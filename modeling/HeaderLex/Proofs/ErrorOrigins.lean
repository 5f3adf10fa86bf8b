import HeaderLex.Proofs.Refusals

/-!
# Where the errors of a look ahead arise

A look at the next token fails in a gap, at a lexeme, on a directive, or in an excluded region because
of its contents.  The position of the error is where the cursor stood on the way: in the gap, at the
lexeme, at the directive or at the beginning of the region.  So what every move of a look ahead keeps
holds at its position, in included and in excluded text alike.  Only a script refuses a directive with
an error of its own, at a position of its own.

* `Cause.isOfGap`, `Cause.isOfRegion`   the causes that no lexeme has;
* `SourceError.Arises`      the origins of an error;
* `Outcome.Arising`         an outcome whose errors have these origins;
* `Conserved.arising_lexToken`   looks ahead, over all directives and excluded regions.
-/

namespace HeaderLex

/-- A gap that is broken. -/
def Cause.isOfGap : Cause → Bool
  | unexpectedCommentClose | unterminatedComment => true
  | _ => false

/-- A directive that is refused, or what must not stand in an excluded region. -/
def Cause.isOfRegion : Cause → Bool
  | invalidDirective _ | illegalMacroInConditional _ | serializeInConditional => true
  | _ => false

/-- The origins of an error: a gap, a directive or an excluded region, or a lexeme, where a lexer with
the property has its cursor, or else the script that is asked about a directive there. -/
inductive SourceError.Arises (P : Lexer → Prop) (e : SourceError) : Prop
  | gap {lx : Lexer} : e.cause.isOfGap = true → P lx → e.position = lx.cursor.position → Arises P e
  | region {lx : Lexer} : e.cause.isOfRegion = true → P lx → e.position = lx.cursor.position →
      Arises P e
  | lexeme {lx : Lexer} {c : Char} {cs : List Char} : P lx → lx.cursor.rest = c :: cs →
      Lexeme.scan c cs = .error e.cause → e.position = lx.cursor.position → Arises P e
  | answered {lx : Lexer} : P lx → MayRefuse lx.answers lx.cursor.position e → Arises P e

/-- A lexer with the property had its cursor where the error is, or where its script was asked. -/
theorem SourceError.Arises.place {P : Lexer → Prop} {e : SourceError} (h : e.Arises P) :
    ∃ lx, P lx ∧ (e.position = lx.cursor.position ∨ MayRefuse lx.answers lx.cursor.position e) := by
  cases h with
  | gap _ hx hposition => exact ⟨_, hx, .inl hposition⟩
  | region _ hx hposition => exact ⟨_, hx, .inl hposition⟩
  | lexeme hx _ _ hposition => exact ⟨_, hx, .inl hposition⟩
  | answered hx hrefuse => exact ⟨_, hx, .inr hrefuse⟩

/-- If the outcome is an error of the source, it has one of the origins. -/
def Outcome.Arising {σ α : Type} (P : Lexer → Prop) (o : Outcome σ α) : Prop :=
  ∀ e : SourceError, o.result = .error (.source e) → e.Arises P

/-! ## gaps, directives and contents -/

theorem GapPiece.isOfGap_next? {cs : List Char} {cause : Cause} (h : next? cs = .error cause) :
    cause.isOfGap = true := by
  unfold next? at h
  split at h
  case h_1 | h_2 | h_3 | h_4 | h_5 => cases h
  case h_6 =>
    split at h <;> cases h
    rfl
  case h_7 =>
    cases h
    rfl
  case h_8 => split at h <;> cases h

theorem Margin.isOfGap_skip {m : Margin} {cause : Cause} (h : m.skip.1 = some cause) :
    cause.isOfGap = true := by
  fun_induction Margin.skip m with
  | case1 m cause' hnext =>
    obtain rfl := Option.some.inj h
    exact GapPiece.isOfGap_next? hnext
  | case2 => cases h
  | case3 m p rest hnext ih => exact ih h

theorem Conditional.step_error {c : Conditional} {d : Directive} {isIncluded : Bool}
    {e : SourceError} (h : c.step d isIncluded = .error e) :
    e.cause.isOfRegion = true ∧ e.position = d.position := by
  unfold step at h
  dsimp only at h
  split at h
  case h_1 | h_2 | h_3 => cases h
  all_goals
    split at h <;> cases h
    exact ⟨rfl, rfl⟩

/-- Conditional compilation refuses a directive where it stands, a script with one of its answers. -/
theorem Preprocessor.answer_error {p : Preprocessor} {d : Directive} {isIncluded : Bool}
    {e : SourceError} (h : (p.answer d isIncluded).1 = .error e) :
    (e.cause.isOfRegion = true ∧ e.position = d.position) ∨
      MayRefuse p.answers d.position e := by
  cases p with
  | conditional c =>
    left
    replace h : (c.answer d isIncluded).1 = .error e := h
    unfold Conditional.answer at h
    split at h
    · cases h
    · next e' hstep =>
      cases h
      exact Conditional.step_error hstep
  | scripted s =>
    right
    replace h : (s.answer d isIncluded).1 = .error e := h
    unfold Script.answer at h
    dsimp only [Script.note] at h
    split at h
    · cases h
    · next answer rest hanswers =>
      refine ⟨answer, ?_, h⟩
      show answer ∈ s.answers
      rw [hanswers]
      exact List.mem_cons_self

theorem SerializeState.check_error {s : SerializeState} {t : Token} {e : SourceError}
    (h : (s.check t).1 = .error e) : e.cause.isOfRegion = true ∧ e.position = t.start := by
  unfold check at h
  split at h
  · cases h
    exact ⟨rfl, rfl⟩
  · split at h <;> cases h
    exact ⟨rfl, rfl⟩

namespace Lexer

variable {P : Lexer → Prop}

theorem skipGap_error {lx : Lexer} {e : SourceError} (h : lx.skipGap.1 = some e) :
    e.cause.isOfGap = true ∧ e.position = lx.skipGap.2.cursor.position := by
  obtain ⟨cause, hskip, rfl⟩ := Option.map_eq_some_iff.mp h
  exact ⟨Margin.isOfGap_skip hskip, rfl⟩

theorem verdictAt_error {lx : Lexer} {unget : Position} {rest : List Char} {isIncluded : Bool}
    {e : SourceError} (h : (lx.verdictAt unget rest isIncluded).1 = .error e) :
    (e.cause.isOfRegion = true ∧ e.position = lx.cursor.position) ∨
      MayRefuse lx.answers lx.cursor.position e := by
  unfold verdictAt askPreprocessor at h
  split at h
  · cases h
  · next p hp =>
    refine (Preprocessor.answer_error h).imp id ?_
    replace hp : lx.preprocessor = some p := hp
    unfold answers
    rw [hp]
    exact id

/-! ## lexemes -/

theorem arises_lexAt {lx : Lexer} {unget : Position} {e : SourceError} (hx : P lx)
    (h : (lx.lexAt unget).1 = .error e) : e.Arises P := by
  unfold lexAt at h
  split at h
  · cases h
  · next c cs hrest =>
    split at h
    · next cause hscan =>
      cases h
      exact .lexeme hx hrest hscan rfl
    · cases h

theorem start_lexAt {lx : Lexer} {unget : Position} {t : Token} (h : (lx.lexAt unget).1 = .ok t) :
    t.start = lx.cursor.position := by
  obtain ⟨-, rfl, -⟩ | ⟨c, cs, l, -, -, rfl, -⟩ := lexAt_ok h <;> rfl

/-! ## looks ahead -/

theorem arising_refuse {α : Type} {lx : Lexer} {e : SourceError} (h : e.Arises P) :
    (lx.refuse e : Outcome Lexer α).Arising P := by
  rintro e' ⟨⟩
  exact h

theorem arising_refuseInside {α : Type} {lx : Lexer} {e : SourceError} (h : e.Arises P) :
    (lx.refuseInside e : Outcome Lexer α).Arising P := by
  rintro e' ⟨⟩
  exact h

theorem arising_ok {σ α : Type} (P : Lexer → Prop) (a : α) (s : σ) : (Outcome.ok a s).Arising P := by
  rintro e ⟨⟩

theorem arises_gap {lx : Lexer} {e : SourceError} (hgap : P lx.skipGap.2)
    (h : lx.skipGap.1 = some e) : e.Arises P :=
  .gap (skipGap_error h).1 hgap (skipGap_error h).2

theorem arises_verdictAt {lx : Lexer} {unget : Position} {rest : List Char} {isIncluded : Bool}
    {e : SourceError} (hx : P lx) (h : (lx.verdictAt unget rest isIncluded).1 = .error e) :
    e.Arises P := by
  obtain ⟨hregion, hposition⟩ | hrefuse := verdictAt_error h
  · exact .region hregion hx hposition
  · exact .answered hx hrefuse

/-- A step over a region that began where a lexer with the property had its cursor. -/
theorem arising_step {start : Position} {x : Skim} {o : Outcome Lexer Unit}
    (hstart : ∃ lx, P lx ∧ start = lx.cursor.position) (hgap : P x.lexer.skipGap.2)
    (h : x.step start = .inl o) : o.Arising P := by
  cases hg : x.lexer.skipGap.1 with
  | some e =>
    rw [Skim.step_broken hg] at h
    cases h
    exact arising_refuseInside (arises_gap hgap hg)
  | none =>
    cases hd : directiveAt? x.lexer.skipGap.2.cursor with
    | some rest =>
      cases hv : (x.lexer.skipGap.2.verdictAt x.lexer.cursor.position rest false).1 with
      | error e =>
        rw [Skim.step_directive_error hg hd hv] at h
        cases h
        exact arising_refuseInside (arises_verdictAt hgap hv)
      | ok verdict =>
        rw [Skim.step_directive_ok hg hd hv] at h
        unfold Skim.turn at h
        split at h <;> cases h
        exact arising_ok P _ _
    | none =>
      cases ht : (x.lexer.skipGap.2.lexAt x.lexer.cursor.position).1 with
      | error e =>
        rw [Skim.step_lexeme_error hg hd ht] at h
        split at h <;> cases h
        exact arising_refuseInside (arises_lexAt hgap ht)
      | ok t =>
        cases hend : t.isEnd with
        | true =>
          rw [Skim.step_end hg hd ht hend] at h
          cases h
          obtain ⟨lx, hx, rfl⟩ := hstart
          exact arising_refuseInside (.region rfl hx rfl)
        | false =>
          rw [Skim.step_lexeme_ok hg hd ht hend] at h
          unfold Skim.look at h
          split at h
          · split at h
            · next e _ hcheck =>
              cases h
              obtain ⟨hregion, hposition⟩ := SerializeState.check_error (congrArg Prod.fst hcheck)
              exact arising_refuseInside (.region hregion hgap (hposition.trans (start_lexAt ht)))
            · cases h
          · cases h

namespace Conserved

theorem arising_scanExcluded (h : Conserved P) {start : Position}
    (hstart : ∃ lx, P lx ∧ start = lx.cursor.position) {x : Skim} (hgap : P x.lexer.skipGap.2) :
    (Lexer.scanExcluded start x).Arising P := by
  fun_induction Lexer.scanExcluded start x with
  | case1 x o ho => exact arising_step hstart hgap ho
  | case2 x y hy ih =>
    have hstep := h.step start hgap
    rw [hy] at hstep
    exact ih (h.gap hstep)

theorem arising_handleDirective (h : Conserved P) {lx : Lexer} (hx : P lx) (unget : Position)
    {rest : List Char} (hd : directiveAt? lx.cursor = some rest) :
    (lx.handleDirective unget rest).Arising P := by
  have hdir := h.directive unget true hx hd
  rw [handleDirective_eq]
  split
  · next e hv => exact arising_refuse (arises_verdictAt hx hv)
  · next verdict _ =>
    have hclear : P ((lx.verdictAt unget rest true).2.settle verdict) :=
      h.regions _ (lx.verdictAt unget rest true).2.metrics.regions hdir
    dsimp only
    split
    · exact arising_ok P _ _
    · exact @arising_scanExcluded P h _ ⟨_, hclear, rfl⟩
        ⟨(lx.verdictAt unget rest true).2.settle verdict, verdict.region == .scanned, .start⟩
        (h.gap hclear)

/-- Where a look ahead fails at a lexeme, what every move keeps holds. -/
theorem arising_lexToken (h : Conserved P) {lx : Lexer} (hgap : P lx.skipGap.2) :
    lx.lexToken.Arising P := by
  induction lx using lexToken_induction with
  | broken lx e hg => exact arising_refuse (arises_gap hgap hg)
  | unlexed lx e hg ha ht => exact arising_refuse (arises_lexAt hgap ht)
  | lexeme lx t hg ha ht => exact arising_ok P _ _
  | refused lx rest f hg ha ho =>
    have hdirective := h.arising_handleDirective hgap lx.cursor.position
      (Stable.directiveAt?_of_ahead ha)
    rintro e ⟨⟩
    exact hdirective e ho
  | directive lx rest hg ha ho ih =>
    exact ih (h.gap (h.handleDirective hgap _ (Stable.directiveAt?_of_ahead ha)))

theorem arising_peek (h : Conserved P) {lx : Lexer} (hgap : P lx.skipGap.2) :
    lx.peek.Arising P := by
  cases hc : lx.current with
  | some p =>
    rw [peek_of_current hc]
    exact arising_ok P _ _
  | none =>
    cases hr : lx.lexToken.result with
    | ok p =>
      rw [peek_of_lexToken hc hr]
      rintro e ⟨⟩
    | error f =>
      rw [peek_of_error hc hr]
      rintro e ⟨⟩
      exact h.arising_lexToken hgap e hr

end Conserved

end Lexer

end HeaderLex
