import HeaderLex.Proofs.Checkpoints
import HeaderLex.Proofs.ErrorLog

/-!
# What a lexer hands out

A caller gets tokens and errors from a lexer, by the operations of a stream or by reading the whole
source at once.  The tokens are lexemes, raw lines and end marks, wherever they were found and
whatever the caller went back to; the errors of a source come from looks ahead and from raw text.

* `Token.IsLexeme`          the kind and the text of the token come from a scan;
* `Lexer.HandsOut`, `Lexer.Raises`   tokens and errors, over all runs of operations;
* `drain_answer`, `drain_failure`    reading a whole source is taking one token after the other;
* `HandsOut.cases`          a token that is handed out is a lexeme, a raw line or an end mark;
* `apply_failure`           the operations that fail with an error of the source.
-/

namespace HeaderLex

/-- The kind and the text of the token come from a scan. -/
def Token.IsLexeme (t : Token) : Prop :=
  ∃ c cs l, Lexeme.scan c cs = .ok l ∧ t.kind = l.kind ∧ t.value = String.ofList l.text

namespace Lexer

variable {lx : Lexer}

/-- The token is answered after some operations, or is among the tokens of the whole rest of the
source. -/
inductive HandsOut (lx : Lexer) (t : Token) : Prop
  | answer {ops : List Op} {op : Op} :
      ((lx.run ops).apply op).result = .ok (.token t) → HandsOut lx t
  | whole {ops : List Op} {ts : List Token} :
      (lx.run ops).tokenizeAll.result = .ok ts → t ∈ ts → HandsOut lx t

/-- The operation fails with the error after some operations.  Reading the whole rest of the source
counts as taking the next token. -/
inductive Raises (lx : Lexer) : Op → SourceError → Prop
  | answer {ops : List Op} {op : Op} {e : SourceError} :
      ((lx.run ops).apply op).result = .error (.source e) → Raises lx op e
  | whole {ops : List Op} {e : SourceError} :
      (lx.run ops).tokenizeAll.result = .error (.source e) → Raises lx .next e

theorem run_run (lx : Lexer) (ops later : List Op) : (lx.run ops).run later = lx.run (ops ++ later) :=
  List.foldl_append.symm

/-! ## whole sources -/

theorem apply_next_of_ok {t : Token} (h : lx.peek.result = .ok t) :
    (lx.apply .next).result = .ok (.token t) ∧ (lx.apply .next).state = lx.peek.state.consumed t := by
  show Except.map Answer.token lx.next.result = _ ∧ lx.next.state = _
  rw [next_of_ok h]
  exact ⟨rfl, rfl⟩

/-- The tokens of a whole source are taken one after the other. -/
theorem drain_answer {ts : List Token} (h : lx.drain.result = .ok ts) {t : Token} (ht : t ∈ ts) :
    ∃ n, ((lx.run (List.replicate n .next)).apply .next).result = .ok (.token t) := by
  induction ts generalizing lx with
  | nil => cases ht
  | cons u us ih =>
    obtain ⟨v, hv, ⟨-, hnil⟩ | ⟨vs, -, hrest, hcons⟩⟩ := drain_ok h
    · cases hnil
    · obtain ⟨rfl, rfl⟩ := List.cons.inj hcons
      obtain ⟨hanswer, hstate⟩ := apply_next_of_ok hv
      rcases List.mem_cons.1 ht with rfl | ht
      · exact ⟨0, hanswer⟩
      · rw [← hstate] at hrest
        obtain ⟨n, hn⟩ := ih hrest ht
        exact ⟨n + 1, hn⟩

theorem drain_failure {f : Failure} (h : lx.drain.result = .error f) :
    ∃ n, ((lx.run (List.replicate n .next)).apply .next).result = .error f := by
  fun_induction drain lx with
  | case1 lx o g hg =>
    obtain rfl : g = f := Except.error.inj h
    refine ⟨0, ?_⟩
    show Except.map Answer.token lx.next.result = _
    rw [next_of_error hg]
    rfl
  | case2 => cases h
  | case3 lx o t ht hend r ih =>
    have hrest : (lx.peek.state.consumed t).drain.result = .error f := by
      replace h : Except.map (t :: ·) r.result = .error f := h
      cases hr : r.result with
      | ok ts =>
        rw [hr] at h
        cases h
      | error g =>
        rw [hr] at h
        exact congrArg Except.error (Except.error.inj h)
    obtain ⟨n, hn⟩ := ih hrest
    rw [← (apply_next_of_ok ht).2] at hn
    exact ⟨n + 1, hn⟩

theorem HandsOut.answered {t : Token} (h : lx.HandsOut t) :
    ∃ ops op, ((lx.run ops).apply op).result = .ok (.token t) := by
  cases h with
  | @answer ops op h => exact ⟨ops, op, h⟩
  | @whole ops ts h ht =>
    obtain ⟨later, hlater⟩ := drain_answer h ht
    rw [run_run] at hlater
    exact ⟨_, _, hlater⟩

theorem Raises.failed {op : Op} {e : SourceError} (h : lx.Raises op e) :
    ∃ ops, ((lx.run ops).apply op).result = .error (.source e) := by
  cases h with
  | @answer ops _ _ h => exact ⟨ops, h⟩
  | @whole ops _ h =>
    obtain ⟨later, hlater⟩ := drain_failure h
    rw [run_run] at hlater
    exact ⟨_, hlater⟩

/-! ## tokens -/

theorem found_lexeme {p : Peeked} (h : lx.lexToken.result = .ok p) :
    p.token.kind = .endOfFile ∨ p.token.IsLexeme := by
  induction h using found_induction with
  | lexeme lx _ _ _ _ hat _ =>
    obtain ⟨-, ht, -⟩ | ⟨c, cs, l, -, hscan, ht, -⟩ := lexAt_ok hat
    · rw [ht]
      exact .inl rfl
    · rw [ht]
      exact .inr ⟨c, cs, l, hscan, rfl, rfl⟩
  | directive lx rest _ _ _ _ _ _ ih => exact ih

/-- The current token, if there is one, is a lexeme or an end mark. -/
def HoldsLexeme (_ : Cursor) (p : Option Peeked) : Prop :=
  ∀ q ∈ p, q.token.kind = .endOfFile ∨ q.token.IsLexeme

theorem holdsLexeme_apply (h : lx.Everywhere HoldsLexeme) (op : Op) :
    (lx.apply op).state.Everywhere HoldsLexeme := by
  refine h.found (fun _ q hq => by cases hq) ?_ op
  rintro lx p hp q ⟨⟩
  exact found_lexeme hp

theorem kind_line {t : Token} (h : lx.line.result = .ok t) : t.kind = .line := by
  unfold line at h
  dsimp only at h
  split at h <;>
  · obtain rfl := Except.ok.inj h
    rfl

/-- From a lexer without a current token and without checkpoints only lexemes, raw lines and end marks
are handed out. -/
theorem HandsOut.cases {t : Token} (h : lx.HandsOut t) (hc : lx.current = none)
    (hsaved : lx.saved = []) : t.kind = .line ∨ t.kind = .endOfFile ∨ t.IsLexeme := by
  obtain ⟨ops, op, hanswer⟩ := h.answered
  have hstart : HoldsLexeme lx.cursor lx.current := by
    rw [hc]
    rintro q ⟨⟩
  have hrun := Everywhere.run (fun _ op h => holdsLexeme_apply h op) hstart hsaved ops
  obtain hpeek | ⟨-, hline⟩ := apply_token hanswer
  · cases hcurrent : (lx.run ops).current with
    | some p =>
      rw [peek_of_current hcurrent] at hpeek
      obtain rfl := Except.ok.inj hpeek
      exact .inr (hrun.place p hcurrent)
    | none =>
      obtain ⟨p, hp, rfl, -⟩ := peek_fresh hcurrent hpeek
      exact .inr (found_lexeme hp)
  · exact .inl (kind_line hline)

/-! ## errors -/

/-- Operations fail with an error of the source in a look ahead or in raw text. -/
theorem apply_failure {op : Op} {e : SourceError} (h : (lx.apply op).result = .error (.source e)) :
    (op.isLook = true ∧ lx.peek.result = .error (.source e)) ∨
    ∃ terminator options, op = .rawText terminator options ∧
      (lx.rawText terminator options).result = .error (.source e) := by
  have hanswered : ∀ {α : Type} {f : α → Answer} {o : Outcome Lexer α},
      (answered f o).result = .error (.source e) → o.result = .error (.source e) := by
    intro α f o ho
    replace ho : Except.map f o.result = .error (.source e) := ho
    cases hr : o.result with
    | ok a =>
      rw [hr] at ho
      cases ho
    | error g =>
      rw [hr] at ho
      exact congrArg Except.error (Except.error.inj ho)
  have hlook : op.isLook = true → op.isLook = true ∧ lx.peek.result = .error (.source e) := by
    intro hop
    refine ⟨hop, ?_⟩
    obtain ⟨t, answer, -, hok, -⟩ | ⟨f, hpeek, herr, -⟩ := apply_look lx hop
    · rw [h] at hok
      cases hok
    · rw [h] at herr
      rw [hpeek, ← Except.error.inj herr]
  cases op with
  | peek | next | atEnd => exact .inl (hlook rfl)
  | rawText terminator options => exact .inr ⟨terminator, options, rfl, hanswered h⟩
  | clearComments | disableComments | commitComments | stopRecording => cases h
  | line =>
    have hline := hanswered h
    unfold line at hline
    dsimp only at hline
    split at hline <;> cases hline
  | consume => exact absurd (hanswered h) (Stream.Bookkeeping.consume.silent (.live lx)).no_error
  | enableComments =>
    exact absurd (hanswered h) (Stream.Bookkeeping.enableComments.silent (.live lx)).no_error
  | save => exact absurd (hanswered h) (Stream.Bookkeeping.save.silent (.live lx)).no_error
  | restore => exact absurd (hanswered h) (Stream.Bookkeeping.restore.silent (.live lx)).no_error
  | abandon => exact absurd (hanswered h) (Stream.Bookkeeping.abandon.silent (.live lx)).no_error
  | startRecording =>
    exact absurd (hanswered h) (Stream.Bookkeeping.startRecording.silent (.live lx)).no_error
  | record t =>
    exact absurd (hanswered h) ((Stream.Bookkeeping.record t).silent (.live lx)).no_error

end Lexer

end HeaderLex
