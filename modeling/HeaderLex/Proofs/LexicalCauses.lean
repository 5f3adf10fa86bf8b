import HeaderLex.Grammar.Declaration
import HeaderLex.Proofs.ErrorLog
import HeaderLex.Proofs.ErrorOrigins
import HeaderLex.Proofs.LiteralBodies

/-!
# Why a stream fails

A look at the next token can fail for reasons of the text only: a broken gap, a literal without its end
or too long a one, a directive that is refused, or illegal contents of an excluded region.  What the
grammar refuses is of other kinds.  A script may answer with an error of any kind.

* `Cause.isLexical`            the causes that the text has;
* `Outcome.FailsLexically`     an outcome that has no other cause, unless a script has given it;
* `Stream.failsLexically_peek`   looks ahead, wherever their error arises;
* `Lexical`                    parsers that fail for no other cause, and how they are put together.
-/

namespace HeaderLex

/-- The cause lies in the text, not in what the grammar wants. -/
def Cause.isLexical : Cause → Bool
  | unexpectedToken .. | mismatchedDelimiters .. | unbalancedBracket _ | invalidNumeric _ => false
  | _ => true

/-- If the outcome is an error of the source, its cause lies in the text, or it is one of a script's
answers. -/
def Outcome.FailsLexically {σ α : Type} (answers : List ScriptAnswer) (o : Outcome σ α) : Prop :=
  ∀ e : SourceError, o.result = .error (.source e) →
    e.cause.isLexical = true ∨ ∃ place, MayRefuse answers place e

/-! ## lexemes -/

namespace Lexeme

theorem isLexical_scan {c : Char} {cs : List Char} {cause : Cause} (h : scan c cs = .error cause) :
    cause.isLexical = true := by
  rcases scan_class h with ⟨-, h⟩ | ⟨-, h⟩ | ⟨-, h⟩ | ⟨-, h⟩ | h
  · obtain ⟨-, rfl⟩ := identifier_error h
    rfl
  · obtain ⟨-, rfl⟩ := number_error h
    rfl
  · obtain rfl := character_error h
    rfl
  · obtain ⟨-, rfl⟩ | rfl := string_error h
    · rfl
    · rfl
  · cases h

end Lexeme

/-! ## looks ahead -/

theorem Cause.isLexical_of_isOfGap {cause : Cause} (h : cause.isOfGap = true) :
    cause.isLexical = true := by
  cases cause with
  | unexpectedCommentClose | unterminatedComment => rfl
  | _ => cases h

theorem Cause.isLexical_of_isOfRegion {cause : Cause} (h : cause.isOfRegion = true) :
    cause.isLexical = true := by
  cases cause with
  | invalidDirective | illegalMacroInConditional | serializeInConditional => rfl
  | _ => cases h

/-- Wherever the error of a look ahead arises, its cause lies in the text, unless a script is asked. -/
theorem SourceError.Arises.isLexical {answers : List ScriptAnswer} {e : SourceError}
    (h : e.Arises fun lx => lx.answers ⊆ answers) :
    e.cause.isLexical = true ∨ ∃ place, MayRefuse answers place e := by
  cases h with
  | gap hgap => exact .inl (Cause.isLexical_of_isOfGap hgap)
  | region hregion => exact .inl (Cause.isLexical_of_isOfRegion hregion)
  | lexeme _ _ hscan _ => exact .inl (Lexeme.isLexical_scan hscan)
  | answered hsub hmay => exact .inr ⟨_, hmay.mono hsub⟩

theorem Stream.failsLexically_peek (s : Stream) : s.peek.FailsLexically s.answers := by
  cases s with
  | live lx =>
    have hstart : lx.skipGap.2.answers ⊆ lx.answers := List.Subset.refl _
    exact fun e he => ((Lexer.stable_answers lx.answers).arising_peek hstart e he).isLexical
  | replay r => rintro e ⟨⟩

/-! ## parsers -/

/-- The parser works on the stream by operations only, and fails for no cause but those that the text
has or that the stream's script gives. -/
def Lexical {υ α : Type} (p : Parser υ α) : Prop :=
  ∀ x, x.stream.Reaches (p x).state.stream ∧ (p x).FailsLexically x.stream.answers

namespace Lexical

open HeaderLex.Operation

variable {υ α β γ : Type}

/-- It fails for no other cause than these. -/
theorem not_fails {p : Parser υ α} (hp : Lexical p) {x : Session υ} {e : SourceError}
    (hcause : e.cause.isLexical = false) (hscript : ∀ place, ¬ MayRefuse x.stream.answers place e) :
    (p x).result ≠ .error (.source e) := by
  intro h
  obtain hlexical | ⟨place, hmay⟩ := (hp x).2 e h
  · rw [hcause] at hlexical
    cases hlexical
  · exact hscript place hmay

theorem pure (a : α) : Lexical (Pure.pure a : Parser υ α) :=
  fun x => ⟨.refl x.stream, fun e => by rintro ⟨⟩⟩

theorem log (event : Event) : Lexical (Operation.log event : Parser υ Unit) :=
  fun x => ⟨.refl x.stream, fun e => by rintro ⟨⟩⟩

theorem bind {p : Parser υ α} {f : α → Parser υ β} (hp : Lexical p) (hf : ∀ a, Lexical (f a)) :
    Lexical (p >>= f) := by
  intro x
  obtain ⟨hreaches, hfails⟩ := hp x
  cases hr : (p x).result with
  | error cause =>
    rw [bind_of_error hr]
    refine ⟨hreaches, fun e he => ?_⟩
    cases he
    exact hfails e hr
  | ok a =>
    rw [bind_of_ok hr]
    obtain ⟨hreaches', hfails'⟩ := hf a (p x).state
    refine ⟨hreaches.trans hreaches', fun e he => (hfails' e he).imp id ?_⟩
    rintro ⟨place, hmay⟩
    exact ⟨place, hmay.mono hreaches.answers⟩

theorem loop {body : β → Parser υ (β ⊕ γ)} (h : ∀ b, Lexical (body b)) (b : β) :
    Lexical (Parser.loop body b) := by
  have hturns : ∀ turns b, Lexical (Parser.repeatFor body turns b) := by
    intro turns
    induction turns with
    | zero => exact fun b x => ⟨.refl x.stream, fun e => by rintro ⟨⟩⟩
    | succ turns ih =>
      intro b
      apply bind (h b)
      intro r
      cases r with
      | inl b' => exact ih b'
      | inr c => exact .pure c
  exact fun x => hturns _ b x

theorem peek : Lexical (Parser.peek : Parser υ Token) :=
  fun x => ⟨x.stream.reaches_peek, x.stream.failsLexically_peek⟩

theorem bookkeeping {f : Stream → Outcome Stream α} (h : Stream.Bookkeeping f) :
    Lexical (Parser.onStream f : Parser υ α) := by
  refine fun x => ⟨h.reaches x.stream, fun e hr => ?_⟩
  exact absurd hr (h.silent x.stream).no_error

theorem next : Lexical (Parser.next : Parser υ Token) :=
  peek.bind fun t => (bookkeeping .consume).bind fun _ => .pure t

theorem tryMark (c : Char) : Lexical (Grammar.tryMark c : Parser υ Bool) := by
  apply bind (p := Grammar.tryIf (·.isMark c))
  · apply peek.bind
    intro t
    split
    · exact (bookkeeping .consume).bind fun _ => .pure (some t)
    · exact .pure none
  · exact fun t => .pure t.isSome

theorem skipSemicolons (count : Nat) : Lexical (Grammar.skipSemicolons count : Parser υ Nat) := by
  apply loop
  intro count
  apply (tryMark ';').bind
  intro found
  split
  · exact .pure _
  · exact .pure _

theorem skipInstance : Lexical (Grammar.skipInstance : Parser υ Nat) := by
  have hback : Lexical (do Parser.restore; return 0 : Parser υ Nat) :=
    (bookkeeping .restore).bind fun _ => .pure 0
  apply (bookkeeping .save).bind
  intro _
  apply next.bind
  intro name
  split
  · apply peek.bind
    intro t
    split
    · apply (bookkeeping .consume).bind
      intro _
      exact (bookkeeping .abandon).bind fun _ => .pure 2
    · exact hback
  · exact hback

end Lexical

end HeaderLex
