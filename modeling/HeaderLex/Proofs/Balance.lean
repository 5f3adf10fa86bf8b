import HeaderLex.Proofs.Exclusion

/-!
# Balanced conditionals

An alternative or an end without an open conditional is refused wherever it is met.  At the end of
the source open conditionals are looked at only while text is left out: an excluding one is refused,
including ones are not.

* `Lexer.Visits`            the places that reading a source comes to;
* `Comes.excluded`          inside a region that is left out, an excluding conditional stays open;
* `Comes.outcome`           what a look ahead does that comes to the end, or to an unmatched directive;
* `balance_checked_iff`     the same for the reading of a whole source.
-/

namespace HeaderLex

/-- The directives that need an open conditional. -/
def Conditional.closers : List String := ["elif", "else", "endif"]

def unmatchedFailure (name : String) (p : Position) : Failure :=
  .source ⟨.invalidDirective s!"#{name} without matching #if", p⟩

def unfinishedFailure (p : Position) : Failure :=
  .source ⟨.invalidDirective "end of file inside a preprocessor-excluded region", p⟩

theorem Conditional.step_unmatched {c : Conditional} (hstack : c.stack = []) {d : Directive}
    (hname : d.name ∈ closers) (isIncluded : Bool) : c.step d isIncluded
      = .error ⟨.invalidDirective s!"#{d.name} without matching #if", d.position⟩ := by
  rcases List.mem_cons.1 hname with h | hname
  · simp only [step, h, hstack]
  rcases List.mem_cons.1 hname with h | hname
  · simp only [step, h, hstack]
  · have h := List.mem_singleton.1 hname
    simp only [step, h, hstack]

namespace Lexer

/-! ## the places of a reading -/

/-- Stepping over an excluded region comes to a place behind a gap. -/
inductive Skim.Comes (start : Position) : Skim → Lexer → Prop
  | here {x : Skim} : x.lexer.skipGap.1 = none → Comes start x x.lexer.skipGap.2
  | later {x y : Skim} {place : Lexer} : x.step start = .inr y → Comes start y place →
      Comes start x place

/-- A look ahead comes to a place behind a gap: behind the first one, in the region after an excluding
directive, or after a directive with its region. -/
inductive Comes : Lexer → Lexer → Prop
  | here {lx : Lexer} : lx.skipGap.1 = none → Comes lx lx.skipGap.2
  | inside {lx place : Lexer} {cs : List Char} {verdict : Verdict} : lx.skipGap.1 = none →
      lx.ahead = some cs → (lx.skipGap.2.verdictAt lx.cursor.position cs true).1 = .ok verdict →
      verdict.region.isIncluded = false →
      Skim.Comes ((lx.skipGap.2.verdictAt lx.cursor.position cs true).2.settle verdict).cursor.position
        ⟨(lx.skipGap.2.verdictAt lx.cursor.position cs true).2.settle verdict,
          verdict.region == .scanned, .start⟩ place → Comes lx place
  | after {lx place : Lexer} {cs : List Char} : lx.skipGap.1 = none → lx.ahead = some cs →
      (lx.skipGap.2.handleDirective lx.cursor.position cs).result = .ok () →
      Comes (lx.skipGap.2.handleDirective lx.cursor.position cs).state place → Comes lx place

/-- Reading to the end comes to a place, on the way to the next token or to a later one. -/
inductive Visits : Lexer → Lexer → Prop
  | look {lx place : Lexer} : lx.Comes place → Visits lx place
  | next {lx place : Lexer} {t : Token} : lx.peek.result = .ok t → t.isEnd = false →
      Visits (lx.peek.state.consumed t) place → Visits lx place

/-- At the place stands a directive that needs an open conditional. -/
def Closes (place : Lexer) (name : String) : Prop :=
  ∃ cs, directiveAt? place.cursor = some cs ∧ name = String.ofList (DirectiveLine.nameOf cs) ∧
    name ∈ Conditional.closers

variable {c : Conditional} {lx place : Lexer}

/-! ## inside excluded regions -/

theorem frames_skipLine (lx : Lexer) : lx.skipLine.frames = lx.frames := by
  unfold frames
  rw [preprocessor_skipLine]

theorem Skim.turn_inr {x y : Skim} {region : Region} (h : x.turn lx region = .inr y) :
    y.lexer = lx ∧ region ≠ .included := by
  cases region with
  | included => cases h
  | scanned =>
    obtain rfl := Sum.inr.inj h
    exact ⟨rfl, fun h => by cases h⟩
  | silent =>
    obtain rfl := Sum.inr.inj h
    exact ⟨rfl, fun h => by cases h⟩

theorem Skim.look_inr {x y : Skim} {t : Token} (h : x.look lx t = .inr y) : y.lexer = lx := by
  unfold Skim.look at h
  split at h
  · split at h
    · cases h
    · obtain rfl := Sum.inr.inj h
      rfl
  · obtain rfl := Sum.inr.inj h
    rfl

/-- As long as an excluded region goes on, some open conditional excludes it. -/
theorem Skim.step_excluded {start : Position} {x y : Skim} (hu : x.lexer.Under c)
    (hout : ¬ AllIncluded x.lexer.frames) (h : x.step start = .inr y) :
    ¬ AllIncluded y.lexer.frames := by
  cases hg : x.lexer.skipGap.1 with
  | some e =>
    rw [Skim.step_broken hg] at h
    cases h
  | none =>
    cases hd : directiveAt? x.lexer.skipGap.2.cursor with
    | some rest =>
      cases hv : (x.lexer.skipGap.2.verdictAt x.lexer.cursor.position rest false).1 with
      | error e =>
        rw [Skim.step_directive_error hg hd hv] at h
        cases h
      | ok verdict =>
        have hiff := Under.verdict_iff ((stable_under c).gap hu) hv
        rw [Skim.step_directive_ok hg hd hv] at h
        obtain ⟨hstate, hregion⟩ := Skim.turn_inr h
        rw [hstate]
        exact fun hall => hregion (hiff.2 hall)
    | none =>
      cases ht : (x.lexer.skipGap.2.lexAt x.lexer.cursor.position).1 with
      | error e =>
        rw [Skim.step_lexeme_error hg hd ht] at h
        split at h
        · obtain rfl := Sum.inr.inj h
          rw [frames_skipLine]
          exact hout
        · cases h
      | ok t =>
        cases hend : t.isEnd with
        | true =>
          rw [Skim.step_end hg hd ht hend] at h
          cases h
        | false =>
          rw [Skim.step_lexeme_ok hg hd ht hend] at h
          rw [Skim.look_inr h, frames_lexAt]
          exact hout

theorem lexAt_end (unget : Position) (h : lx.cursor.rest = []) :
    lx.lexAt unget = (.ok ⟨.endOfFile, "", lx.cursor.position, unget⟩, lx) := by
  unfold lexAt
  simp only [h]

theorem directiveAt?_end {cur : Cursor} (h : cur.rest = []) : directiveAt? cur = none := by
  unfold directiveAt?
  rw [h]

/-- Inside an excluded region an excluding conditional stays open, and the end of the source is
refused there. -/
theorem Skim.Comes.excluded {start : Position} {x : Skim} (h : Skim.Comes start x place)
    (hu : x.lexer.Under c) (hout : ¬ AllIncluded x.lexer.frames) :
    ¬ AllIncluded place.frames ∧ (place.cursor.rest = [] →
      (scanExcluded start x).result = .error (unfinishedFailure start)) := by
  induction h with
  | @here x hg =>
    refine ⟨hout, ?_⟩
    intro hend
    have htoken := congrArg Prod.fst (lexAt_end x.lexer.cursor.position hend)
    rw [scanExcluded_of_inl (Skim.step_end hg (directiveAt?_end hend) htoken rfl)]
    rfl
  | @later x y place hstep _ ih =>
    have hu' := (stable_under c).step start ((stable_under c).gap hu)
    rw [hstep] at hu'
    rw [scanExcluded_of_inr hstep]
    exact ih hu' (Skim.step_excluded hu hout hstep)

/-! ## one look ahead -/

theorem ahead_of_directive (hu : lx.Under c) {cs : List Char}
    (hd : directiveAt? lx.skipGap.2.cursor = some cs) : lx.ahead = some cs := by
  obtain ⟨stack, hp⟩ := hu
  unfold ahead
  rw [hp]
  exact hd

/-- A look ahead that begins in included text and comes to the end of the source finds it when all
open conditionals include the text there, and is refused otherwise.  One that comes to an unmatched
directive is refused. -/
theorem Comes.outcome (h : lx.Comes place) (hu : lx.Under c) (hin : AllIncluded lx.frames) :
    (place.cursor.rest = [] → AllIncluded place.frames →
      ∃ p, lx.lexToken.result = .ok p ∧ p.token.isEnd = true) ∧
    (place.cursor.rest = [] → ¬ AllIncluded place.frames →
      ∃ start, lx.lexToken.result = .error (unfinishedFailure start)) ∧
    (∀ name, place.Closes name → place.frames = [] →
      lx.lexToken.result = .error (unmatchedFailure name place.cursor.position)) := by
  induction h with
  | @here lx hg =>
    refine ⟨?_, fun _ hout => absurd hin hout, ?_⟩
    · intro hend _
      have ha : lx.ahead = none := by
        unfold ahead
        rw [directiveAt?_end hend, ite_self]
      have htoken := congrArg Prod.fst (lexAt_end lx.cursor.position hend)
      rw [lexToken_lexeme_ok hg ha htoken]
      exact ⟨_, rfl, rfl⟩
    · rintro name ⟨cs, hd, rfl, hname⟩ hempty
      have ha := ahead_of_directive hu hd
      obtain ⟨stack, hp⟩ := hu
      have hstack : stack = [] := (frames_eq hp).symm.trans hempty
      have hstep := @Conditional.step_unmatched { c with stack } hstack
        (directiveOf lx.skipGap.2.cursor.position lx.cursor.position cs) hname true
      have hverdict : (lx.skipGap.2.verdictAt lx.cursor.position cs true).1
          = .error ⟨.invalidDirective
            s!"#{String.ofList (DirectiveLine.nameOf cs)} without matching #if",
            lx.skipGap.2.cursor.position⟩ := by
        obtain ⟨stack', hok, -⟩ | ⟨e, herr, hv, -⟩ :=
          @verdictAt_conditional lx.skipGap.2 _ hp lx.cursor.position cs true
        · rw [hstep] at hok
          cases hok
        · rw [hv, Except.error.inj (herr.symm.trans hstep)]
          rfl
      have hhandled := handleDirective_eq lx.skipGap.2 lx.cursor.position cs
      rw [hverdict] at hhandled
      rw [lexToken_directive_error hg ha (congrArg Outcome.result hhandled)]
      rfl
  | @inside lx place cs verdict hg ha hv hr hskim =>
    have hregion : verdict.region ≠ .included := by
      intro hincluded
      rw [hincluded] at hr
      cases hr
    have hiff := Under.verdict_iff ((stable_under c).gap hu) hv
    have hu' := (stable_under c).directive lx.cursor.position true ((stable_under c).gap hu)
      (Stable.directiveAt?_of_ahead ha)
    -- a conditional stays open all the way, so nothing is unmatched inside the region
    obtain ⟨hout, hunfinished⟩ := hskim.excluded hu' fun hall => hregion (hiff.2 hall)
    refine ⟨fun _ hall => absurd hall hout, ?_, ?_⟩
    · intro hend _
      have hhandled := handleDirective_eq lx.skipGap.2 lx.cursor.position cs
      rw [hv] at hhandled
      dsimp only at hhandled
      rw [hr] at hhandled
      have hfailed := (congrArg Outcome.result hhandled).trans (hunfinished hend)
      rw [lexToken_directive_error hg ha hfailed]
      exact ⟨_, rfl⟩
    · intro name _ hempty
      rw [hempty] at hout
      exact absurd (fun _ h => absurd h List.not_mem_nil) hout
  | @after lx place cs hg ha ho _ ih =>
    rw [lexToken_directive_ok hg ha ho]
    exact ih (hu.handled ha) (Under.handleDirective ((stable_under c).gap hu)
      (Stable.directiveAt?_of_ahead ha) ho)

/-! ## a whole reading -/

/-- Between two tokens of a reading: included text, and no token is current. -/
structure Between (c : Conditional) (lx : Lexer) : Prop where
  current : lx.current = none
  under : lx.Under c
  included : AllIncluded lx.frames

theorem Between.next (h : lx.Between c) {t : Token} (hok : lx.peek.result = .ok t) :
    (lx.peek.state.consumed t).Between c := by
  obtain ⟨p, hp, -, hstate⟩ := peek_fresh h.current hok
  have hframes : (lx.peek.state.consumed t).frames = lx.lexToken.state.frames := by
    rw [hstate]
    rfl
  have hunder : (lx.peek.state.consumed t).Under c := by
    rw [hstate]
    exact (stable_under c).lexToken ((stable_under c).gap h.under)
  refine ⟨rfl, hunder, ?_⟩
  rw [hframes]
  exact h.under.lexToken hp h.included

theorem Visits.outcome (h : lx.Visits place) (hb : lx.Between c) :
    (place.cursor.rest = [] → AllIncluded place.frames → ∃ tokens, lx.drain.result = .ok tokens) ∧
    (place.cursor.rest = [] → ¬ AllIncluded place.frames →
      ∃ start, lx.drain.result = .error (unfinishedFailure start)) ∧
    (∀ name, place.Closes name → place.frames = [] →
      lx.drain.result = .error (unmatchedFailure name place.cursor.position)) := by
  induction h with
  | @look lx place hcomes =>
    obtain ⟨hfound, hunfinished, hunmatched⟩ := hcomes.outcome hb.under hb.included
    have herror : ∀ f, lx.lexToken.result = .error f → lx.drain.result = .error f := by
      intro f hf
      apply drain_of_error
      rw [peek_of_error hb.current hf]
    refine ⟨?_, ?_, ?_⟩
    · intro hend hall
      obtain ⟨p, hp, hlast⟩ := hfound hend hall
      have hpeek := congrArg Outcome.result (peek_of_lexToken hb.current hp)
      exact ⟨[], drain_of_end hpeek hlast⟩
    · intro hend hout
      obtain ⟨start, hf⟩ := hunfinished hend hout
      exact ⟨start, herror _ hf⟩
    · exact fun name hcloses hempty => herror _ (hunmatched name hcloses hempty)
  | @next lx place t hok hlast _ ih =>
    obtain ⟨hfound, hunfinished, hunmatched⟩ := ih (hb.next hok)
    rw [drain_next hok hlast]
    refine ⟨?_, ?_, ?_⟩
    · intro hend hall
      obtain ⟨tokens, hts⟩ := hfound hend hall
      rw [hts]
      exact ⟨t :: tokens, rfl⟩
    · intro hend hout
      obtain ⟨start, hf⟩ := hunfinished hend hout
      rw [hf]
      exact ⟨start, rfl⟩
    · intro name hcloses hempty
      rw [hunmatched name hcloses hempty]
      rfl

/-- A look ahead that finds the end mark comes to the end of the source. -/
theorem comes_end {p : Peeked} (hok : lx.lexToken.result = .ok p) (hlast : p.token.isEnd = true) :
    ∃ place, lx.Comes place ∧ place.cursor.rest = [] := by
  induction hok using found_induction with
  | lexeme lx _ hg _ _ hat _ =>
    obtain ⟨hend, -, -⟩ | ⟨a, cs, l, -, hl, htoken, -⟩ := lexAt_ok hat
    · exact ⟨_, .here hg, hend⟩
    · have hkind : p.token.isEnd = false := by
        rw [htoken]
        exact Lexeme.scan_kind hl
      rw [hlast] at hkind
      cases hkind
  | directive lx rest _ _ hg ha hd _ ih =>
    obtain ⟨place, hcomes, hend⟩ := ih
    exact ⟨place, .after hg ha hd hcomes, hend⟩

theorem Between.visits_end (h : lx.Between c) {tokens : List Token}
    (hd : lx.drain.result = .ok tokens) : ∃ place, lx.Visits place ∧ place.cursor.rest = [] := by
  induction tokens generalizing lx with
  | nil =>
    obtain ⟨t, hok, ⟨hlast, -⟩ | ⟨ts, -, -, hts⟩⟩ := drain_ok hd
    · obtain ⟨p, hp, rfl, -⟩ := peek_fresh h.current hok
      obtain ⟨place, hcomes, hend⟩ := comes_end hp hlast
      exact ⟨place, .look hcomes, hend⟩
    · cases hts
  | cons t ts ih =>
    obtain ⟨u, hok, ⟨-, hts⟩ | ⟨us, hlast, hrest, hts⟩⟩ := drain_ok hd
    · cases hts
    · obtain ⟨rfl, rfl⟩ := List.cons.inj hts
      obtain ⟨place, hvisits, hend⟩ := ih (h.next hok) hrest
      exact ⟨place, .next hok hlast hvisits, hend⟩

end Lexer

/-- What reading a source with conditional compilation checks of its conditionals.  A directive that
needs an open conditional is refused where there is none; so an accepted source has none such.  At
the end of the source the reading is accepted exactly when all conditionals that are still open
include the text, and refused as unfinished exactly when one of them does not.  An accepted reading
comes to the end. -/
theorem balance_checked_iff (source : String) (preferences : LexicalPreferences) :
    let start := (Lexer.ofSource source preferences).withPreprocessor
      (some (.conditional Conditional.standard))
    let o := tokenizePreprocessed source preferences
    (∀ place name, start.Visits place → place.Closes name → place.frames = [] →
      o.result = .error (unmatchedFailure name place.cursor.position)) ∧
    (∀ place, start.Visits place → place.cursor.rest = [] →
      ((∃ tokens, o.result = .ok tokens) ↔ AllIncluded place.frames) ∧
      ((∃ p, o.result = .error (unfinishedFailure p)) ↔ ¬ AllIncluded place.frames)) ∧
    ∀ tokens, o.result = .ok tokens →
      (∃ place, start.Visits place ∧ place.cursor.rest = []) ∧
      ∀ place name, start.Visits place → place.Closes name → place.frames ≠ [] := by
  intro start o
  have hb : start.Between Conditional.standard :=
    ⟨rfl, ⟨[], rfl⟩, fun _ h => absurd h List.not_mem_nil⟩
  refine ⟨?_, ?_, ?_⟩
  · exact fun place name hvisits => (hvisits.outcome hb).2.2 name
  · intro place hvisits hend
    obtain ⟨haccepted, hunfinished, -⟩ := hvisits.outcome hb
    by_cases hall : AllIncluded place.frames
    · obtain ⟨tokens, hok⟩ := haccepted hend hall
      refine ⟨iff_of_true ⟨tokens, hok⟩ hall, iff_of_false ?_ (fun hout => hout hall)⟩
      rintro ⟨p, herror⟩
      cases hok.symm.trans herror
    · obtain ⟨p, herror⟩ := hunfinished hend hall
      refine ⟨iff_of_false ?_ hall, iff_of_true ⟨p, herror⟩ hall⟩
      rintro ⟨tokens, hok⟩
      cases hok.symm.trans herror
  · intro tokens hok
    refine ⟨hb.visits_end hok, ?_⟩
    intro place name hvisits hcloses hempty
    cases hok.symm.trans ((hvisits.outcome hb).2.2 name hcloses hempty)

/-- The end of the source under an open conditional that includes the text is accepted. -/
theorem balance_checked_sample :
    let start := (Lexer.ofSource "#if 1\nint x;\n" ⟨true, false, false, true⟩).withPreprocessor
      (some (.conditional Conditional.standard))
    (∃ place, start.Visits place ∧ place.cursor.rest = [] ∧ place.frames.length = 1) ∧
      ∃ tokens, (tokenizePreprocessed "#if 1\nint x;\n" ⟨true, false, false, true⟩).result = .ok tokens := by
  intro start
  let t₁ : Token := ⟨.identifier, "int", ⟨6, 2⟩, ⟨6, 2⟩⟩
  let t₂ : Token := ⟨.identifier, "x", ⟨10, 2⟩, ⟨9, 2⟩⟩
  let t₃ : Token := ⟨.symbol, ";", ⟨11, 2⟩, ⟨11, 2⟩⟩
  let lx₁ := start.peek.state.consumed t₁
  let lx₂ := lx₁.peek.state.consumed t₂
  let lx₃ := lx₂.peek.state.consumed t₃
  have h₁ : start.peek.result = .ok t₁ := ok_of_toOption (by decide +kernel)
  have h₂ : lx₁.peek.result = .ok t₂ := ok_of_toOption (by decide +kernel)
  have h₃ : lx₂.peek.result = .ok t₃ := ok_of_toOption (by decide +kernel)
  have hgap : lx₃.skipGap.1 = none := by decide +kernel
  have hend : lx₃.skipGap.2.cursor.rest = [] := by decide +kernel
  have hlength : lx₃.skipGap.2.frames.length = 1 := by decide +kernel
  have hall : AllIncluded lx₃.skipGap.2.frames := by decide +kernel
  have hvisits : start.Visits lx₃.skipGap.2 :=
    .next h₁ rfl (.next h₂ rfl (.next h₃ rfl (.look (.here hgap))))
  obtain ⟨-, hchecked, -⟩ := balance_checked_iff "#if 1\nint x;\n" ⟨true, false, false, true⟩
  exact ⟨⟨_, hvisits, hend, hlength⟩, (hchecked _ hvisits hend).1.2 hall⟩

end HeaderLex
