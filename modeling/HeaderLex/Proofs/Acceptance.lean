import HeaderLex.Grammar.Group
import HeaderLex.Proofs.Consumption

/-!
# What a parser accepts

A parser accepts some tokens if on every stream that begins with them it gives its value and has taken
just these tokens.  Most parsers look at the token behind as well, so that one has to fit.

* `Stream.StandsAt`     a stream at a place, with or without a look at the next token there;
* `Accepts`             the judgment, with what becomes of the state of the caller;
* `Accepts.bind`, `Accepts.look`, `Accepts.take`   how it goes over a sequence and a look;
* `Rounds`, `Rounds.loop`   the turns of a loop, and loops;
* `accepts_requireIf`, `accepts_tryMark`, ...   single tokens.
-/

namespace HeaderLex

open HeaderLex.Operation HeaderLex.Parser HeaderLex.Grammar

/-! ## places of a stream -/

namespace Stream

variable {s s' z : Stream} {t : Token} {ts : List Token}

/-- The stream is the other one, perhaps after a look at its next token. -/
def StandsAt (s' s : Stream) : Prop :=
  s' = s ∨ ∃ t, s.peek.result = .ok t ∧ s' = s.peek.state

theorem standsAt_replay {r : Replay} : s'.StandsAt (replay r) ↔ s' = replay r := by
  constructor
  · rintro (h | ⟨-, -, h⟩) <;> exact h
  · exact .inl

theorem StandsAt.refl (s : Stream) : s.StandsAt s := .inl rfl

theorem StandsAt.looked (h : s.peek.result = .ok t) : s.peek.state.StandsAt s := .inr ⟨t, h, rfl⟩

/-- A look finds the same, whether there was one before or not. -/
theorem StandsAt.peek (h : s'.StandsAt s) (ht : s.peek.result = .ok t) :
    s'.peek.result = .ok t ∧ s'.peek.state = s.peek.state := by
  rcases h with rfl | ⟨u, hu, rfl⟩
  · exact ⟨ht, rfl⟩
  · rw [peek_again hu]
    exact ⟨hu.symm.trans ht, rfl⟩

/-- A look that fails at a place was no look there before. -/
theorem StandsAt.eq_of_error (h : s'.StandsAt s) {f : Failure} (hf : s.peek.result = .error f) :
    s' = s := by
  rcases h with rfl | ⟨u, hu, -⟩
  · rfl
  · cases hu.symm.trans hf

theorem Takes.split {us : List Token} (h : s.Takes (ts ++ us) s') :
    ∃ z, s.Takes ts z ∧ z.Takes us s' := by
  induction ts generalizing s with
  | nil => exact ⟨s, .nil s, h⟩
  | cons t ts ih =>
    cases h with
    | cons ht hlater =>
      obtain ⟨z, hfirst, hrest⟩ := ih hlater
      exact ⟨z, .cons ht hfirst, hrest⟩

/-- The token behind some tokens is the first of what is taken later, or else the one at the end. -/
theorem Takes.next (h : s.Takes ts s') (ht : s'.peek.result = .ok t) :
    s.peek.result = .ok (ts.headD t) := by
  cases h with
  | nil => exact ht
  | cons hu _ => exact hu

/-- A replay serves its tokens. -/
theorem takes_replay (ts after : List Token) (saved : List (List Token)) (mark : Token) :
    (replay ⟨ts ++ after, saved, mark⟩).Takes ts (replay ⟨after, saved, mark⟩) := by
  induction ts with
  | nil => exact .nil _
  | cons t ts ih => exact .cons rfl ih

/-! ### soundness and budgets -/

theorem Sound.peek (h : s.Sound) : s.peek.state.Sound := by
  cases s with
  | replay r => exact h
  | live lx =>
    show lx.peek.state.cursor.Within lx.peek.state.source
    rw [Lexer.source_peek]
    cases hc : lx.current with
    | some p =>
      rw [Lexer.peek_of_current hc]
      exact h
    | none =>
      have hwithin := (Lexer.stable_within lx.source).lexToken (Lexer.within_skipGap h)
      cases hr : lx.lexToken.result with
      | ok p => rwa [Lexer.peek_of_lexToken hc hr]
      | error f => rwa [Lexer.peek_of_error hc hr]

theorem Sound.consume (h : s.Sound) : s.consume.state.Sound := by
  cases s with
  | replay r => exact h
  | live lx =>
    show lx.consume.state.cursor.Within lx.consume.state.source
    unfold Lexer.consume
    split <;> exact h

theorem Sound.takes (h : s.Sound) (htakes : s.Takes ts s') : s'.Sound := by
  induction htakes with
  | nil => exact h
  | cons _ _ ih => exact ih h.peek.consume

theorem budget_peek (s : Stream) : s.peek.state.budget = s.budget := by
  cases s with
  | replay r => rfl
  | live lx =>
    show 16 * (lx.peek.state.source.length + 1) = 16 * (lx.source.length + 1)
    rw [Lexer.source_peek]

theorem StandsAt.budget (h : s'.StandsAt s) : s'.budget = s.budget := by
  rcases h with rfl | ⟨-, -, rfl⟩
  · rfl
  · exact s.budget_peek

end Stream

/-! ## the judgment -/

/-- On every stream that begins with the tokens the parser gives `a`, changes the state of the caller
by `give`, and leaves the stream behind these tokens, if the token there is one that `fits`. -/
def Accepts {υ α : Type} (p : Parser υ α) (ts : List Token) (a : α) (give : υ → υ)
    (fits : Token → Prop) : Prop :=
  ∀ (x : Session υ) (s s' : Stream) (t : Token), x.stream.StandsAt s → s.Sound → s.Takes ts s' →
    s'.peek.result = .ok t → fits t →
    ∃ z, p.Ends x a ⟨z, x.arena, give x.user⟩ ∧ z.StandsAt s'

namespace Accepts

variable {υ α β : Type} {p : Parser υ α} {ts us : List Token} {t : Token} {a : α} {b : β}
  {give give' : υ → υ} {fits fits' : Token → Prop}

theorem pure (a : α) : Accepts (Pure.pure a : Parser υ α) [] a id fits := by
  intro x s s' t hstands _ htakes _ _
  cases htakes
  exact ⟨x.stream, ⟨rfl, rfl⟩, hstands⟩

theorem modifyUser (f : υ → υ) : Accepts (Parser.modifyUser f) [] () f fun _ => True := by
  intro x s s' t hstands _ htakes _ _
  cases htakes
  exact ⟨x.stream, ⟨rfl, rfl⟩, hstands⟩

theorem weaken (h : Accepts p ts a give fits) (hfits : ∀ t, fits' t → fits t) :
    Accepts p ts a give fits' :=
  fun x s s' t hstands hsound htakes ht hfit => h x s s' t hstands hsound htakes ht (hfits t hfit)

/-- One parser after the other; the tokens of the second one begin with one that fits the first. -/
theorem bind_give {f : α → Parser υ β} (h : Accepts p ts a give fits)
    (hf : Accepts (f a) us b give' fits') (hfits : ∀ t, fits' t → fits (us.headD t)) :
    Accepts (p >>= f) (ts ++ us) b (give' ∘ give) fits' := by
  intro x s s' t hstands hsound htakes ht hfit
  obtain ⟨z, hfirst, hlater⟩ := htakes.split
  obtain ⟨y, hends, hy⟩ := h x s z (us.headD t) hstands hsound hfirst (hlater.next ht) (hfits t hfit)
  obtain ⟨y', hends', hy'⟩ := hf ⟨y, x.arena, give x.user⟩ z s' t hy (hsound.takes hfirst) hlater ht hfit
  exact ⟨y', ends_bind.mpr ⟨a, _, hends, hends'⟩, hy'⟩

/-- One parser after the other, the first of which leaves the state of the caller alone. -/
theorem bind {f : α → Parser υ β} (h : Accepts p ts a id fits) (hf : Accepts (f a) us b give fits')
    (hfits : ∀ t, fits' t → fits (us.headD t)) : Accepts (p >>= f) (ts ++ us) b give fits' :=
  h.bind_give hf hfits

/-- The same where the first parser does not mind what comes behind. -/
theorem andThen {f : α → Parser υ β} (h : Accepts p ts a id fun _ => True)
    (hf : Accepts (f a) us b give fits) : Accepts (p >>= f) (ts ++ us) b give fits :=
  h.bind hf fun _ _ => trivial

/-- The second parser takes nothing more. -/
theorem andPure {f : α → Parser υ β} (h : Accepts p ts a give fits)
    (hf : Accepts (f a) [] b id fits) : Accepts (p >>= f) ts b give fits := by
  have hboth := h.bind_give hf fun _ hfit => hfit
  rwa [List.append_nil] at hboth

theorem map (h : Accepts p ts a give fits) (f : α → β) :
    Accepts (p >>= fun a => Pure.pure (f a)) ts (f a) give fits :=
  h.andPure (.pure (f a))

/-! ### looks -/

/-- The look finds the first of the tokens, or the one behind if there are none. -/
theorem look {f : Token → Parser υ β} (h : ∀ t, fits t → Accepts (f (ts.headD t)) ts b give (· = t)) :
    Accepts (peek >>= f) ts b give fits := by
  intro x s s' t hstands hsound htakes ht hfit
  have hnext := htakes.next ht
  obtain ⟨hresult, hstate⟩ := hstands.peek hnext
  have hlook : peek.Ends x (ts.headD t) ⟨s.peek.state, x.arena, x.user⟩ :=
    ⟨hresult, congrArg (fun stream => (⟨stream, x.arena, x.user⟩ : Session υ)) hstate⟩
  obtain ⟨z, hends, hz⟩ :=
    h t hfit ⟨s.peek.state, x.arena, x.user⟩ s s' t (.looked hnext) hsound htakes ht rfl
  exact ⟨z, ends_bind.mpr ⟨_, _, hlook, hends⟩, hz⟩

/-- The look finds the first of the tokens. -/
theorem lookFirst {f : Token → Parser υ β} (h : Accepts (f t) (t :: ts) b give fits) :
    Accepts (peek >>= f) (t :: ts) b give fits :=
  look fun _ hfit => h.weaken fun _ hu => hu ▸ hfit

/-- The look finds the token behind, where nothing is to be taken. -/
theorem lookBehind {f : Token → Parser υ β} (h : ∀ t, fits t → Accepts (f t) [] b give (· = t)) :
    Accepts (peek >>= f) [] b give fits := look h

/-- A token that is not asked for is passed by. -/
theorem passBy {test : Token → Bool} {p : Token → Parser υ α} (a : α) :
    Accepts (peek >>= fun t => if test t then p t else Pure.pure a) [] a id
      fun t => test t = false := by
  refine lookBehind fun t ht => ?_
  rw [if_neg (Bool.eq_false_iff.mp ht)]
  exact .pure a

/-- The token that was looked at is taken. -/
theorem take {f : Token → Parser υ β} (q : Parser υ β) (hf : f t = consume >>= fun _ => q)
    (h : Accepts q ts b give fits) : Accepts (peek >>= f) (t :: ts) b give fits := by
  intro x s s' u hstands hsound htakes hu hfit
  cases htakes with
  | cons ht hlater =>
    obtain ⟨hresult, hstate⟩ := hstands.peek ht
    have hlook : peek.Ends x t ⟨s.peek.state, x.arena, x.user⟩ :=
      ⟨hresult, congrArg (fun stream => (⟨stream, x.arena, x.user⟩ : Session υ)) hstate⟩
    have hconsume : consume.Ends (⟨s.peek.state, x.arena, x.user⟩ : Session υ) ()
        ⟨s.peek.state.consume.state, x.arena, x.user⟩ := ⟨Stream.consume_peeked ht, rfl⟩
    obtain ⟨z, hends, hz⟩ := h ⟨s.peek.state.consume.state, x.arena, x.user⟩ _ s' u (.refl _)
      hsound.peek.consume hlater hu hfit
    refine ⟨z, ends_bind.mpr ⟨t, _, hlook, ?_⟩, hz⟩
    rw [hf]
    exact ends_bind.mpr ⟨(), _, hconsume, hends⟩

theorem next (t : Token) : Accepts (Parser.next : Parser υ Token) [t] t id fun _ => True :=
  take (Pure.pure t) rfl (.pure t)

/-! ### the state of the caller -/

theorem withState {δ : Type} {p : Parser (υ × δ) α} {init : δ} {give : υ × δ → υ × δ}
    {giveOuter : υ → υ} {last : δ} (hgive : ∀ u, give (u, init) = (giveOuter u, last))
    (h : Accepts p ts a give fits) :
    Accepts (Parser.withState init p) ts (a, last) giveOuter fits := by
  intro x s s' t hstands hsound htakes ht hfit
  obtain ⟨z, ⟨hresult, hstate⟩, hz⟩ :=
    h ⟨x.stream, x.arena, (x.user, init)⟩ s s' t hstands hsound htakes ht hfit
  refine ⟨z, ⟨?_, ?_⟩, hz⟩
  · unfold Parser.withState
    dsimp only
    rw [hresult, hstate]
    show Except.ok (a, (give (x.user, init)).2) = _
    rw [hgive]
  · unfold Parser.withState
    dsimp only
    rw [hstate]
    show Session.mk z x.arena (give (x.user, init)).1 = _
    rw [hgive]

end Accepts

/-! ## loops -/

/-- The turns of a loop from `b` on: each of them but the last takes some tokens and goes on, and the
last one ends the loop with `c`. -/
inductive Rounds {υ β γ : Type} (body : β → Parser υ (β ⊕ γ)) (fits : Token → Prop) :
    β → List Token → γ → (υ → υ) → Prop
  | last {b : β} {ts : List Token} {c : γ} {give : υ → υ} :
      Accepts (body b) ts (.inr c) give fits → Rounds body fits b ts c give
  | more {b b' : β} {ts us : List Token} {c : γ} {give give' : υ → υ} {before : Token → Prop} :
      ts ≠ [] → Accepts (body b) ts (.inl b') give before → Rounds body fits b' us c give' →
      (∀ u, fits u → before (us.headD u)) → Rounds body fits b (ts ++ us) c (give' ∘ give)

namespace Rounds

variable {υ β γ : Type} {body : β → Parser υ (β ⊕ γ)} {fits : Token → Prop} {b : β} {c : γ}
  {ts : List Token} {give : υ → υ}

theorem repeatFor (h : Rounds body fits b ts c give) {turns : Nat} (hturns : ts.length < turns) :
    Accepts (Parser.repeatFor body turns b) ts c give fits := by
  induction h generalizing turns with
  | @last b ts c give hlast =>
    obtain ⟨turns, rfl⟩ := Nat.exists_eq_add_one_of_ne_zero (Nat.ne_of_gt (Nat.zero_lt_of_lt hturns))
    exact hlast.andPure (.pure c)
  | @more b b' ts us c give give' before hne hturn _ hfits ih =>
    obtain ⟨turns, rfl⟩ := Nat.exists_eq_add_one_of_ne_zero (Nat.ne_of_gt (Nat.zero_lt_of_lt hturns))
    have hlater : us.length < turns := by
      have htaken := List.length_pos_iff.mpr hne
      rw [List.length_append] at hturns
      omega
    exact hturn.bind_give (ih hlater) hfits

/-- A loop has turns enough for its tokens, since each turn that goes on takes one. -/
theorem loop (h : Rounds body fits b ts c give) (hcontent : ∀ t ∈ ts, t.isEnd = false) :
    Accepts (Parser.loop body b) ts c give fits := by
  intro x s s' t hstands hsound htakes ht hfit
  have hturns : ts.length < x.stream.budget := by
    rw [hstands.budget]
    exact htakes.length_lt_budget hsound hcontent
  exact h.repeatFor hturns x s s' t hstands hsound htakes ht hfit

end Rounds

/-! ## single tokens -/

theorem Token.isEnd_of_isOperator {t : Token} {text : String} (h : t.isOperator text = true) :
    t.isEnd = false := by
  rw [isEnd, eq_of_beq (Bool.and_eq_true_iff.mp h).1]
  rfl

namespace Grammar

variable {υ α : Type} {t : Token}

theorem accepts_tryIf {p : Token → Bool} (h : p t = true) :
    Accepts (tryIf p : Parser υ (Option Token)) [t] (some t) id fun _ => True :=
  .take (Pure.pure (some t)) (if_pos h) (.pure (some t))

theorem accepts_tryIf_none (p : Token → Bool) :
    Accepts (tryIf p : Parser υ (Option Token)) [] none id fun t => p t = false :=
  .passBy none

theorem accepts_requireIf {p : Token → Bool} (h : p t = true) (expected : String)
    (context : Option String) :
    Accepts (requireIf p expected context : Parser υ Token) [t] t id fun _ => True :=
  .take (Pure.pure t) (if_pos h) (.pure t)

theorem accepts_requireMark {c : Char} (h : t.isMark c = true) (context : Option String) :
    Accepts (requireMark c context : Parser υ Token) [t] t id fun _ => True :=
  accepts_requireIf h _ _

theorem accepts_requireIdentifier (h : t.isIdentifier = true) (context : Option String) :
    Accepts (requireIdentifier context : Parser υ Token) [t] t id fun _ => True :=
  accepts_requireIf h _ _

theorem accepts_tryMark {c : Char} (h : t.isMark c = true) :
    Accepts (tryMark c : Parser υ Bool) [t] true id fun _ => True :=
  (accepts_tryIf h).map Option.isSome

theorem accepts_tryMark_none (c : Char) :
    Accepts (tryMark c : Parser υ Bool) [] false id fun t => t.isMark c = false :=
  (accepts_tryIf_none _).map Option.isSome

end Grammar

end HeaderLex
