import HeaderLex.Grammar.Single

/-!
# Parsers step by step

Equations that run a parser: through a sequence, through the turns of a loop, and over the tokens of
a replay.

* `Token.eq_of_isMark`        a token is one mark at most;
* `Operation.bind_ok`         a first step that succeeds and logs nothing;
* `Parser.repeatFor_more`, `Parser.repeatFor_done`   one turn of a loop;
* `tryMark_replay_of_mark`, `requireMark_replay_of_mark`, ...   single tokens on a replay;
* `budget_replay`             a loop over a replay has turns enough.
-/

namespace HeaderLex

open HeaderLex.Operation HeaderLex.Parser HeaderLex.Grammar

theorem Token.isEnd_of_isMark {t : Token} {c : Char} (h : t.isMark c = true) : t.isEnd = false := by
  obtain ⟨kind, value, start, unget⟩ := t
  simp only [isMark, isSymbol, Bool.and_eq_true, beq_iff_eq] at h
  rw [isEnd, h.1]
  rfl

theorem Token.isEnd_of_isIdentifier {t : Token} (h : t.isIdentifier = true) : t.isEnd = false := by
  obtain ⟨kind, value, start, unget⟩ := t
  simp only [isIdentifier, beq_iff_eq] at h
  rw [isEnd, h]
  rfl

/-- A token is one mark at most. -/
theorem Token.eq_of_isMark {t : Token} {c d : Char} (hc : t.isMark c = true)
    (hd : t.isMark d = true) : c = d := by
  simp only [isMark, Bool.and_eq_true, beq_iff_eq] at hc hd
  have htext : c.toString = d.toString := hc.2.symm.trans hd.2
  have hlist := congrArg String.toList htext
  simpa [Char.toString] using hlist

section

variable {σ α β : Type}

theorem Operation.bind_ok {x : Operation σ α} {f : α → Operation σ β} {s s' : σ} {a : α}
    (h : x s = .ok a s') : (x >>= f) s = f a s' := by
  rw [bind_apply, h]
  rfl

theorem Operation.bind_error {x : Operation σ α} {f : α → Operation σ β} {s : σ} {e : Failure}
    (h : (x s).result = .error e) : ((x >>= f) s).result = .error e := by
  rw [bind_of_error h]

end

section

variable {υ β γ : Type} {body : β → Parser υ (β ⊕ γ)} {b b' : β} {s s' : Session υ}

theorem Parser.repeatFor_more (h : body b s = .ok (.inl b') s') (turns : Nat) :
    repeatFor body (turns + 1) b s = repeatFor body turns b' s' := bind_ok h

theorem Parser.repeatFor_done {c : γ} (h : body b s = .ok (.inr c) s') (turns : Nat) :
    repeatFor body (turns + 1) b s = .ok c s' := bind_ok h

end

section

variable {υ : Type} (r : Replay) (arena : Arena) (user : υ)

theorem tryMark_replay_of_mark {c : Char} (h : r.peek.isMark c = true) :
    tryMark c ⟨.replay r, arena, user⟩ = .ok true ⟨.replay r.consume, arena, user⟩ := by
  have htry : tryIf (·.isMark c) ⟨.replay r, arena, user⟩
      = .ok (some r.peek) ⟨.replay r.consume, arena, user⟩ := by
    show (if r.peek.isMark c then _ else _ : Parser υ (Option Token)) ⟨.replay r, arena, user⟩ = _
    rw [if_pos h]
    rfl
  exact bind_ok htry

theorem tryMark_replay_of_not_mark {c : Char} (h : ¬ r.peek.isMark c = true) :
    tryMark c ⟨.replay r, arena, user⟩ = .ok false ⟨.replay r, arena, user⟩ := by
  have htry : tryIf (·.isMark c) ⟨.replay r, arena, user⟩ = .ok none ⟨.replay r, arena, user⟩ := by
    show (if r.peek.isMark c then _ else _ : Parser υ (Option Token)) ⟨.replay r, arena, user⟩ = _
    rw [if_neg h]
    rfl
  exact bind_ok htry

theorem requireMark_replay_of_mark {c : Char} (h : r.peek.isMark c = true)
    (context : Option String) :
    requireMark c context ⟨.replay r, arena, user⟩ = .ok r.peek ⟨.replay r.consume, arena, user⟩ := by
  show (if r.peek.isMark c then _ else _ : Parser υ Token) ⟨.replay r, arena, user⟩ = _
  rw [if_pos h]
  rfl

theorem requireMark_replay_of_not_mark {c : Char} (h : ¬ r.peek.isMark c = true)
    (context : Option String) :
    requireMark c context ⟨.replay r, arena, user⟩
      = unexpected c.toString r.peek context ⟨.replay r, arena, user⟩ := by
  show (if r.peek.isMark c then _ else _ : Parser υ Token) ⟨.replay r, arena, user⟩ = _
  rw [if_neg h]

theorem budget_replay : r.rest.length < (Stream.replay r).budget := by
  show _ < 16 * (r.rest.length + r.saved.flatten.length + 1)
  omega

end

end HeaderLex
