import HeaderLex.Proofs.Lookahead

/-!
# Invariants of a look ahead

A look ahead is made of few moves: over a gap, over a lexeme, over a directive line, over the rest of
a line.  What every move keeps, the whole look ahead keeps, whether it finds a token or fails.

* `Lexer.Conserved`  a property that every move keeps;
* `Lexer.Stable`     the same for a property that does not speak of what is noted on the way;
* `Conserved.lexToken`   the next token keeps it, with all directives and regions on the way;
* `lexToken_induction`, `found_induction`   induction over the directives before the next token;
* `Lexer.ledger`     the part of a lexer that a look ahead never touches;
* `stable_within`    the cursor stays inside its source.
-/

namespace HeaderLex

namespace Lexer

/-! ## moves -/

/-- Every move of a look ahead keeps the property, which may speak of the counts that are kept: the
regions are counted apart from the moves. -/
structure Conserved (P : Lexer → Prop) : Prop where
  gap : ∀ {lx}, P lx → P lx.skipGap.2
  lexeme : ∀ {lx} unget, P lx → P (lx.lexAt unget).2
  directive : ∀ {lx} unget {rest} isIncluded, P lx → directiveAt? lx.cursor = some rest →
    P (lx.verdictAt unget rest isIncluded).2
  line : ∀ {lx}, P lx → P lx.skipLine
  regions : ∀ {lx} b n, P lx →
    P { lx with comments := b, metrics := { lx.metrics with regions := n } }

/-- Every move of a look ahead keeps the property, whatever is noted on the way. -/
structure Stable (P : Lexer → Prop) : Prop extends Conserved P where
  notes : ∀ {lx} b m, P lx → P { lx with comments := b, metrics := m }
  regions := fun b _ h => notes b _ h

variable {P : Lexer → Prop}

/-- The property of the lexer that a step over an excluded region leaves behind. -/
def Stable.Leaves (P : Lexer → Prop) : Outcome Lexer Unit ⊕ Skim → Prop
  | .inl o => P o.state
  | .inr y => P y.lexer

namespace Conserved

theorem and {Q : Lexer → Prop} (hP : Conserved P) (hQ : Conserved Q) :
    Conserved (fun lx => P lx ∧ Q lx) where
  gap h := ⟨hP.gap h.1, hQ.gap h.2⟩
  lexeme unget h := ⟨hP.lexeme unget h.1, hQ.lexeme unget h.2⟩
  directive unget _ isIncluded h hd :=
    ⟨hP.directive unget isIncluded h.1 hd, hQ.directive unget isIncluded h.2 hd⟩
  line h := ⟨hP.line h.1, hQ.line h.2⟩
  regions b n h := ⟨hP.regions b n h.1, hQ.regions b n h.2⟩

/-- One step over an excluded region keeps the property.  It need not hold in the gap at the
beginning of the step. -/
theorem step (h : Conserved P) (start : Position) {x : Skim} (hgap : P x.lexer.skipGap.2) :
    Stable.Leaves P (x.step start) := by
  cases hg : x.lexer.skipGap.1 with
  | some e =>
    rw [Skim.step_broken hg]
    exact hgap
  | none =>
    cases hd : directiveAt? x.lexer.skipGap.2.cursor with
    | some rest =>
      have hdir := h.directive x.lexer.cursor.position false hgap hd
      cases hv : (x.lexer.skipGap.2.verdictAt x.lexer.cursor.position rest false).1 with
      | error e =>
        rw [Skim.step_directive_error hg hd hv]
        exact hdir
      | ok verdict =>
        rw [Skim.step_directive_ok hg hd hv]
        unfold Skim.turn
        split <;> exact hdir
    | none =>
      have hlex := h.lexeme x.lexer.cursor.position hgap
      cases ht : (x.lexer.skipGap.2.lexAt x.lexer.cursor.position).1 with
      | error e =>
        rw [Skim.step_lexeme_error hg hd ht]
        split
        · exact h.line hgap
        · exact hgap
      | ok t =>
        cases hend : t.isEnd with
        | true =>
          rw [Skim.step_end hg hd ht hend]
          exact hgap
        | false =>
          rw [Skim.step_lexeme_ok hg hd ht hend]
          unfold Skim.look
          split
          · split <;> exact hlex
          · exact hlex

theorem scanExcluded (h : Conserved P) (start : Position) {x : Skim} (hgap : P x.lexer.skipGap.2) :
    P (Lexer.scanExcluded start x).state := by
  fun_induction Lexer.scanExcluded start x with
  | case1 x o ho =>
    have hstep := h.step start hgap
    rw [ho] at hstep
    exact hstep
  | case2 x y hy ih =>
    have hstep := h.step start hgap
    rw [hy] at hstep
    exact ih (h.gap hstep)

theorem skipExcluded (h : Conserved P) {lx : Lexer} (hgap : P lx.skipGap.2) (region : Region)
    (start : Position) : P (lx.skipExcluded region start).state := by
  have hscan := @Conserved.scanExcluded P h lx.cursor.position ⟨lx, region == .scanned, .start⟩ hgap
  exact h.regions lx.comments _ hscan

theorem handleDirective (h : Conserved P) {lx : Lexer} (hx : P lx) (unget : Position)
    {rest : List Char} (hd : directiveAt? lx.cursor = some rest) :
    P (lx.handleDirective unget rest).state := by
  have hdir := h.directive unget true hx hd
  rw [handleDirective_eq]
  split
  · exact hdir
  · next verdict _ =>
    have hclear : P ((lx.verdictAt unget rest true).2.settle verdict) :=
      h.regions _ (lx.verdictAt unget rest true).2.metrics.regions hdir
    dsimp only
    split
    · exact hclear
    · exact h.skipExcluded (h.gap hclear) _ _

end Conserved

theorem Stable.directiveAt?_of_ahead {lx : Lexer} {rest : List Char} (h : lx.ahead = some rest) :
    directiveAt? lx.skipGap.2.cursor = some rest := by
  unfold ahead at h
  split at h
  · exact h
  · cases h

/-- Induction over a look ahead: over the directives before the place where it ends. -/
@[elab_as_elim]
theorem lexToken_induction {motive : Lexer → Outcome Lexer Peeked → Prop}
    (broken : ∀ lx e, lx.skipGap.1 = some e → motive lx (lx.skipGap.2.refuse e))
    (unlexed : ∀ lx e, lx.skipGap.1 = none → lx.ahead = none →
      (lx.skipGap.2.lexAt lx.cursor.position).1 = .error e → motive lx (lx.skipGap.2.refuse e))
    (lexeme : ∀ lx t, lx.skipGap.1 = none → lx.ahead = none →
      (lx.skipGap.2.lexAt lx.cursor.position).1 = .ok t →
      motive lx (.ok ⟨t, lx.cursor⟩ (lx.skipGap.2.lexAt lx.cursor.position).2))
    (refused : ∀ lx rest f, lx.skipGap.1 = none → lx.ahead = some rest →
      (lx.skipGap.2.handleDirective lx.cursor.position rest).result = .error f →
      motive lx ⟨.error f, (lx.skipGap.2.handleDirective lx.cursor.position rest).state,
        (lx.skipGap.2.handleDirective lx.cursor.position rest).events⟩)
    (directive : ∀ lx rest, lx.skipGap.1 = none → lx.ahead = some rest →
      (lx.skipGap.2.handleDirective lx.cursor.position rest).result = .ok () →
      motive (lx.skipGap.2.handleDirective lx.cursor.position rest).state
        (lx.skipGap.2.handleDirective lx.cursor.position rest).state.lexToken →
      motive lx ((lx.skipGap.2.handleDirective lx.cursor.position rest).state.lexToken.after
        (lx.skipGap.2.handleDirective lx.cursor.position rest).events))
    (lx : Lexer) : motive lx lx.lexToken := by
  induction hn : lx.unread using Nat.strongRecOn generalizing lx with
  | ind n ih =>
    cases hg : lx.skipGap.1 with
    | some e =>
      rw [lexToken_broken hg]
      exact broken lx e hg
    | none =>
      cases ha : lx.ahead with
      | none =>
        cases ht : (lx.skipGap.2.lexAt lx.cursor.position).1 with
        | error e =>
          rw [lexToken_lexeme_error hg ha ht]
          exact unlexed lx e hg ha ht
        | ok t =>
          rw [lexToken_lexeme_ok hg ha ht]
          exact lexeme lx t hg ha ht
      | some rest =>
        cases ho : (lx.skipGap.2.handleDirective lx.cursor.position rest).result with
        | error f =>
          rw [lexToken_directive_error hg ha ho]
          exact refused lx rest f hg ha ho
        | ok u =>
          rw [lexToken_directive_ok hg ha ho]
          refine directive lx rest hg ha ho (ih _ ?_ _ rfl)
          rw [← hn]
          exact Nat.lt_of_lt_of_le (unread_handleDirective _ _ (Stable.directiveAt?_of_ahead ha))
            lx.unread_skipGap_le

/-- A look ahead keeps the property. -/
theorem Conserved.lexToken (h : Conserved P) {lx : Lexer} (hgap : P lx.skipGap.2) :
    P lx.lexToken.state := by
  induction lx using lexToken_induction with
  | broken lx e hg => exact hgap
  | unlexed lx e hg ha ht => exact hgap
  | lexeme lx t hg ha ht => exact h.lexeme _ hgap
  | refused lx rest f hg ha ho => exact h.handleDirective hgap _ (Stable.directiveAt?_of_ahead ha)
  | directive lx rest hg ha ho ih =>
    exact ih (h.gap (h.handleDirective hgap _ (Stable.directiveAt?_of_ahead ha)))

/-- Induction over a look ahead that finds a token: over the directives before it. -/
@[elab_as_elim]
theorem found_induction {p : Peeked} {motive : ∀ lx : Lexer, lx.lexToken.result = .ok p → Prop}
    (lexeme : ∀ lx hok, lx.skipGap.1 = none → lx.ahead = none → p.origin = lx.cursor →
      (lx.skipGap.2.lexAt lx.cursor.position).1 = .ok p.token →
      lx.lexToken.state = (lx.skipGap.2.lexAt lx.cursor.position).2 → motive lx hok)
    (directive : ∀ lx rest hok hrec, lx.skipGap.1 = none → lx.ahead = some rest →
      (lx.skipGap.2.handleDirective lx.cursor.position rest).result = .ok () →
      lx.lexToken.state
        = (lx.skipGap.2.handleDirective lx.cursor.position rest).state.lexToken.state →
      motive (lx.skipGap.2.handleDirective lx.cursor.position rest).state hrec → motive lx hok)
    {lx : Lexer} (hok : lx.lexToken.result = .ok p) : motive lx hok := by
  induction hn : lx.unread using Nat.strongRecOn generalizing lx with
  | ind n ih =>
    obtain ⟨hg, ⟨ha, horigin, hat, hstate⟩ | ⟨rest, ha, hd, hrec, hstate⟩⟩ := lexToken_ok hok
    · exact lexeme lx hok hg ha horigin hat hstate
    · refine directive lx rest hok hrec hg ha hd hstate (ih _ ?_ hrec rfl)
      rw [← hn]
      exact Nat.lt_of_lt_of_le (unread_handleDirective _ _ (Stable.directiveAt?_of_ahead ha))
        lx.unread_skipGap_le

/-! ## what a look ahead never touches -/

theorem preprocessor_lexAt (lx : Lexer) (unget : Position) :
    (lx.lexAt unget).2.preprocessor = lx.preprocessor := by
  unfold lexAt
  split
  · rfl
  · split <;> rfl

theorem preprocessor_skipLine (lx : Lexer) : lx.skipLine.preprocessor = lx.preprocessor := by
  unfold skipLine
  split <;> rfl

/-- The part of a lexer that only its caller changes. -/
structure Ledger where
  source : List Char
  current : Option Peeked
  commentsOff : Nat
  saved : List Snapshot
  recording : Bool
  recorded : List Token
  preferences : LexicalPreferences

def ledger (lx : Lexer) : Ledger :=
  ⟨lx.source, lx.current, lx.commentsOff, lx.saved, lx.recording, lx.recorded, lx.preferences⟩

theorem stable_ledger (l : Ledger) : Stable (fun lx => lx.ledger = l) where
  gap h := h
  lexeme {lx} unget h := by
    unfold lexAt
    split
    · exact h
    · split <;> exact h
  directive {lx} unget {rest} isIncluded h _ := by
    unfold verdictAt askPreprocessor
    split <;> exact h
  line {lx} h := by
    unfold skipLine
    split <;> exact h
  notes _ _ h := h

theorem ledger_lexToken (lx : Lexer) : lx.lexToken.state.ledger = lx.ledger :=
  (stable_ledger lx.ledger).lexToken rfl

theorem saved_lexToken (lx : Lexer) : lx.lexToken.state.saved = lx.saved :=
  congrArg Ledger.saved (ledger_lexToken lx)

theorem current_lexToken (lx : Lexer) : lx.lexToken.state.current = lx.current :=
  congrArg Ledger.current (ledger_lexToken lx)

/-! ## the cursor stays inside the source -/

theorem stable_within (source : List Char) : Stable (fun lx => lx.cursor.Within source) where
  gap h := within_skipGap h
  lexeme {lx} unget h := by
    cases ht : (lx.lexAt unget).1 with
    | error e =>
      rw [(lexAt_error ht).1]
      exact h
    | ok t =>
      obtain ⟨-, -, hs⟩ | ⟨c, cs, l, hr, hl, -, hs⟩ := lexAt_ok ht
      · rw [hs]
        exact h
      · rw [hs]
        exact within_scan h hr hl
  directive {lx} unget {rest} isIncluded h hd := by
    rw [cursor_verdictAt]
    apply h.advance
    · rw [(directiveAt?_eq_some.1 hd).1, List.cons_append, DirectiveLine.taken_append_left]
    · show _ ≤ List.count '\n' ('#' :: DirectiveLine.taken rest)
      rw [List.count_cons_of_ne (by decide)]
      exact Nat.le_refl _
  line {lx} h := by
    unfold skipLine
    split
    · exact h
    · next c cs hr =>
      refine h.advance ?_ (Nat.zero_le _)
      rw [hr, List.cons_append, List.takeWhile_append_dropWhile]
  notes _ _ h := h

end Lexer

end HeaderLex
