import HeaderLex.Proofs.PutBack

/-!
# What a lexer serves

Without a preprocessor a lexer serves the tokens of its source in turn, and then end marks for ever.
What is still to come depends on its place alone: on the cursor and the current token.

* `Cursor.Serves`        the text under a cursor reads as some tokens, up to where the end mark stands;
* `Serves`               the same for a place, which may have a current token;
* `Lexer.serves_drain`   a source that can be read to its end is served;
* `Serves.peek`, `Serves.consumed`   what looking at a token and consuming it do to a place.
-/

namespace HeaderLex

/-- The mark at the end of a source. -/
structure Token.IsEndAt (t : Token) (stop : Position) : Prop where
  kind : t.kind = .endOfFile
  value : t.value = ""
  start : t.start = stop

/-- The gap at the cursor has its end. -/
def Cursor.GapEnds (c : Cursor) : Prop := (Margin.skip ⟨c, .empty, 0⟩).1 = none

/-- The text under a cursor consists of the tokens, with gaps, and its end is at `stop`. -/
inductive Cursor.Serves (stop : Position) : Cursor → List Token → Prop
  | done {c : Cursor} : c.GapEnds → c.afterGap.rest = [] → c.afterGap.position = stop →
      Serves stop c []
  | token {c : Cursor} {a : Char} {cs : List Char} {l : Lexeme} {ts : List Token} : c.GapEnds →
      c.afterGap.rest = a :: cs → Lexeme.scan a cs = .ok l →
      Serves stop (c.afterGap.advance l.text l.rest l.lines) ts →
      Serves stop c (⟨l.kind, String.ofList l.text, c.afterGap.position, c.position⟩ :: ts)

/-- From a place come the tokens and then end marks at `stop`.  A current token is the first of them,
or an end mark. -/
inductive Serves (stop : Position) : Cursor → Option Peeked → List Token → Prop
  | fresh {c : Cursor} {ts : List Token} : c.Serves stop ts → Serves stop c none ts
  | looked {c : Cursor} {p : Peeked} {ts : List Token} : p.token.isEnd = false → c.Serves stop ts →
      Serves stop c (some p) (p.token :: ts)
  | ended {c : Cursor} {p : Peeked} : p.token.IsEndAt stop → c.Serves stop [] →
      Serves stop c (some p) []

/-- What a look shows when `ts` come next. -/
def Shows (stop : Position) (ts : List Token) (t : Token) : Prop :=
  (ts = [] ∧ t.IsEndAt stop) ∨ (t.isEnd = false ∧ ∃ rest, ts = t :: rest)

/-! ## the text under a cursor -/

namespace Cursor

variable {stop : Position} {c : Cursor} {ts : List Token}

theorem length_afterGap_le (c : Cursor) : c.afterGap.rest.length ≤ c.rest.length :=
  Margin.length_rest_skip_le ⟨c, .empty, 0⟩

/-- Every token takes some text. -/
theorem Serves.length_le (h : c.Serves stop ts) : ts.length ≤ c.rest.length := by
  induction h with
  | done => exact Nat.zero_le _
  | @token c a cs l ts _ hrest hscan _ ih =>
    have hshort : l.rest.length < (a :: cs).length := Lexeme.length_rest_of_scan hscan
    have hgap := c.length_afterGap_le
    rw [hrest] at hgap
    replace ih : ts.length ≤ l.rest.length := ih
    rw [List.length_cons]
    omega

/-- At the end of a text the gap is empty. -/
theorem afterGap_of_end (h : c.rest = []) : c.GapEnds ∧ c.afterGap = c := by
  have hnext : GapPiece.next? c.rest = .ok none := by
    rw [h]
    rfl
  have hskip : (Margin.skip ⟨c, .empty, 0⟩).1 = none ∧ (Margin.skip ⟨c, .empty, 0⟩).2.cursor = c := by
    rw [Margin.skip]
    split <;> simp_all
  exact hskip

/-- Behind the end there is nothing but the end. -/
theorem serves_end (hrest : c.rest = []) (hstop : c.position = stop) : c.Serves stop [] := by
  obtain ⟨hgap, hafter⟩ := afterGap_of_end hrest
  refine .done hgap ?_ ?_
  · rw [hafter]
    exact hrest
  · rw [hafter]
    exact hstop

end Cursor

/-! ## looking and consuming -/

namespace Lexer

variable {lx : Lexer} {stop : Position} {ts : List Token}

theorem gapEnds_iff (lx : Lexer) : lx.cursor.GapEnds ↔ lx.skipGap.1 = none := by
  have hplace := (@Margin.skip_place ⟨lx.cursor, lx.comments, lx.metrics.comments⟩
    ⟨lx.cursor, .empty, 0⟩ rfl).1
  show (Margin.skip ⟨lx.cursor, .empty, 0⟩).1 = none ↔
    (Margin.skip ⟨lx.cursor, lx.comments, lx.metrics.comments⟩).1.map _ = none
  rw [Option.map_eq_none_iff, hplace]

/-- A source that can be read to its end is served, up to where the reading stopped. -/
theorem serves_drain (hp : lx.preprocessor = none) (hc : lx.current = none)
    (h : lx.drain.result = .ok ts) : lx.cursor.Serves lx.drain.state.cursor.position ts := by
  induction ts generalizing lx with
  | nil =>
    obtain ⟨t, ht, ⟨hend, -⟩ | ⟨_, -, -, hts⟩⟩ := drain_ok h
    · obtain ⟨p, hlex, rfl, hstate⟩ := peek_fresh hc ht
      obtain ⟨hg, ⟨-, -, hat, hafter⟩ | ⟨rest, hsome, -⟩⟩ := lexToken_ok hlex
      · obtain ⟨hrest, -, hlexed⟩ | ⟨a, cs, l, -, hscan, htok, -⟩ := lexAt_ok hat
        · rw [drain_state_of_end ht hend, hstate, hafter, hlexed]
          refine .done (lx.gapEnds_iff.2 hg) ?_ ?_
          · rw [← cursor_skipGap]
            exact hrest
          · rw [← cursor_skipGap]
            rfl
        · have hkind : p.token.isEnd = false := by
            rw [htok]
            exact Lexeme.scan_kind hscan
          rw [hend] at hkind
          cases hkind
      · rw [ahead_of_bare hp] at hsome
        cases hsome
    · cases hts
  | cons u us ih =>
    obtain ⟨t, ht, ⟨-, hnil⟩ | ⟨ts', hend, hdrain, hts⟩⟩ := drain_ok h
    · cases hnil
    · obtain ⟨rfl, rfl⟩ := List.cons.inj hts
      obtain ⟨p, hlex, rfl, hstate⟩ := peek_fresh hc ht
      obtain ⟨hg, ⟨-, -, hat, hafter⟩ | ⟨rest, hsome, -⟩⟩ := lexToken_ok hlex
      · obtain ⟨-, htok, -⟩ | ⟨a, cs, l, hrest, hscan, htok, hlexed⟩ := lexAt_ok hat
        · rw [htok] at hend
          cases hend
        · have hpre : (lx.peek.state.consumed p.token).preprocessor = none := by
            rw [hstate, hafter, hlexed]
            exact hp
          have hcur : (lx.peek.state.consumed p.token).cursor
              = lx.cursor.afterGap.advance l.text l.rest l.lines := by
            rw [hstate, hafter, hlexed, ← cursor_skipGap]
            rfl
          have htail := ih hpre rfl hdrain
          rw [hcur] at htail
          rw [drain_state_next ht hend]
          generalize (lx.peek.state.consumed p.token).drain.state.cursor.position = stop at htail ⊢
          rw [htok, cursor_skipGap]
          exact .token (lx.gapEnds_iff.2 hg) (cursor_skipGap lx ▸ hrest) hscan htail
      · rw [ahead_of_bare hp] at hsome
        cases hsome

/-- A look finds the end mark or the first token, and stands behind it. -/
theorem peek_serves (hp : lx.preprocessor = none) (hc : lx.current = none)
    (h : lx.cursor.Serves stop ts) :
    ∃ p, lx.peek.result = .ok p.token ∧ Shows stop ts p.token ∧
      Serves stop lx.peek.state.cursor (some p) ts ∧ lx.peek.state.current = some p := by
  cases h with
  | done hgap hrest hstop =>
    have hnil : lx.skipGap.2.cursor.rest = [] := by
      rw [cursor_skipGap]
      exact hrest
    have hat : lx.skipGap.2.lexAt lx.cursor.position
        = (.ok ⟨.endOfFile, "", lx.skipGap.2.cursor.position, lx.cursor.position⟩, lx.skipGap.2) := by
      unfold lexAt
      rw [hnil]
    obtain ⟨hresult, hstate⟩ := peek_lexeme hc (lx.gapEnds_iff.1 hgap) (ahead_of_bare hp)
      (congrArg Prod.fst hat)
    have hmark : Token.IsEndAt
        ⟨.endOfFile, "", lx.skipGap.2.cursor.position, lx.cursor.position⟩ stop :=
      ⟨rfl, rfl, (congrArg Cursor.position lx.cursor_skipGap).trans hstop⟩
    refine ⟨_, hresult, .inl ⟨rfl, hmark⟩, .ended hmark ?_, by rw [hstate]⟩
    rw [hstate, hat]
    exact Cursor.serves_end hnil hmark.start
  | @token _ a cs l us hgap hrest hscan htail =>
    have hcons : lx.skipGap.2.cursor.rest = a :: cs := by
      rw [cursor_skipGap]
      exact hrest
    have hat : lx.skipGap.2.lexAt lx.cursor.position
        = (.ok ⟨l.kind, String.ofList l.text, lx.skipGap.2.cursor.position, lx.cursor.position⟩,
          { lx.skipGap.2 with cursor := lx.skipGap.2.cursor.advance l.text l.rest l.lines }) := by
      unfold lexAt
      rw [hcons]
      simp only [hscan]
    obtain ⟨hresult, hstate⟩ := peek_lexeme hc (lx.gapEnds_iff.1 hgap) (ahead_of_bare hp)
      (congrArg Prod.fst hat)
    rw [hstate, hat, cursor_skipGap] at *
    have hkind : (⟨l.kind, String.ofList l.text, lx.cursor.afterGap.position, lx.cursor.position⟩ :
        Token).isEnd = false := Lexeme.scan_kind hscan
    exact ⟨_, hresult, .inr ⟨hkind, us, rfl⟩, .looked hkind htail, rfl⟩

end Lexer

namespace Serves

variable {lx : Lexer} {stop : Position} {ts : List Token}

/-- Looking at a token does not change what is served. -/
theorem peek (h : Serves stop lx.cursor lx.current ts) (hp : lx.preprocessor = none) :
    ∃ p, lx.peek.result = .ok p.token ∧ Shows stop ts p.token ∧
      Serves stop lx.peek.state.cursor (some p) ts ∧ lx.peek.state.current = some p := by
  generalize hc : lx.current = current at h
  cases h with
  | fresh h => exact Lexer.peek_serves hp hc h
  | @looked p us hkind h =>
    rw [Lexer.peek_of_current hc]
    exact ⟨p, rfl, .inr ⟨hkind, us, rfl⟩, .looked hkind h, hc⟩
  | @ended p hmark h =>
    rw [Lexer.peek_of_current hc]
    exact ⟨p, rfl, .inl ⟨rfl, hmark⟩, .ended hmark h, hc⟩

/-- Without its current token a place serves the others; the end mark comes back. -/
theorem consumed {c : Cursor} {p : Peeked} (h : Serves stop c (some p) ts) :
    Serves stop c none ts.tail := by
  cases h with
  | looked _ h => exact .fresh h
  | ended _ h => exact .fresh h

end Serves

end HeaderLex
