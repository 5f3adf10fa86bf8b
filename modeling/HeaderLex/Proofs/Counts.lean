import HeaderLex.Proofs.Run

/-!
# Counts are only written, and preferences decide nothing

A lexer counts tokens, comments, directives and regions, and never looks at the counts.  It looks at
its preferences only to choose what it counts and logs.  Two lexers that differ only in these answer
alike for ever, and log the same where the preferences are the same.

* `Lexer.Kin`         the lexers differ at most in their counts and preferences;
* `Outcome.Kin`       the same result, and states that are kin;
* `Kin.lexToken`      a look ahead, with all directives and regions on the way;
* `Kin.apply`         one operation;
* `Alike.sights`      what a caller sees of a row of operations, where only the counts differ.
-/

namespace HeaderLex

/-- How many comments were met before a gap does not matter to it. -/
theorem Margin.skip_commentCount (m : Margin) (n : Nat) :
    ∃ k, ({ m with commentCount := n } : Margin).skip = (m.skip.1, { m.skip.2 with commentCount := k }) := by
  fun_induction Margin.skip m generalizing n with
  | case1 m cause h =>
    refine ⟨n, ?_⟩
    rw [Margin.skip]
    split <;> simp_all
  | case2 m h =>
    have hskip := @Margin.skip_none { m with commentCount := n } h
    refine ⟨n, ?_⟩
    rw [hskip]
    dsimp only
    split <;> rfl
  | case3 m p rest h ih =>
    have hpass : ∃ j, ({ m with commentCount := n } : Margin).pass p rest
        = { m.pass p rest with commentCount := j } := by
      cases p with
      | lineComment body => exact ⟨n + 1, rfl⟩
      | blockComment body => exact ⟨n + 1, rfl⟩
      | _ => exact ⟨n, rfl⟩
    obtain ⟨j, hj⟩ := hpass
    obtain ⟨k, hk⟩ := ih j
    have hskip := @Margin.skip_piece { m with commentCount := n } p rest h
    rw [hj] at hskip
    exact ⟨k, hskip.trans hk⟩

namespace Lexer

/-! ## lexers and outcomes that are kin -/

/-- The lexers differ at most in their counts. -/
def Alike (lx lx' : Lexer) : Prop := ∃ m, lx' = { lx with metrics := m }

/-- The lexers differ at most in their counts and preferences; under the condition `same` the
preferences are the same. -/
def Kin (same : Prop) (lx lx' : Lexer) : Prop :=
  ∃ m p, lx' = { lx with metrics := m, preferences := p } ∧ (same → p = lx.preferences)

end Lexer

/-- The same result, in lexers that are kin; under the condition `same` also the same events. -/
structure Outcome.Kin {α : Type} (same : Prop) (o o' : Outcome Lexer α) : Prop where
  result : o'.result = o.result
  events : same → o'.events = o.events
  state : o.state.Kin same o'.state

namespace Lexer

variable {same : Prop} {lx lx' : Lexer}

theorem alike_iff_kin : lx.Alike lx' ↔ lx.Kin True lx' := by
  constructor
  · rintro ⟨m, rfl⟩
    exact ⟨m, lx.preferences, rfl, fun _ => rfl⟩
  · rintro ⟨m, p, rfl, hp⟩
    obtain rfl := hp trivial
    exact ⟨m, rfl⟩

theorem Kin.cursor (h : lx.Kin same lx') : lx'.cursor = lx.cursor := by
  obtain ⟨m, p, rfl, -⟩ := h
  rfl

theorem Kin.current (h : lx.Kin same lx') : lx'.current = lx.current := by
  obtain ⟨m, p, rfl, -⟩ := h
  rfl

theorem Kin.preprocessor (h : lx.Kin same lx') : lx'.preprocessor = lx.preprocessor := by
  obtain ⟨m, p, rfl, -⟩ := h
  rfl

theorem Kin.refuse {α : Type} (h : lx.Kin same lx') (e : SourceError) :
    (lx.refuse e : Outcome Lexer α).Kin same (lx'.refuse e) := by
  obtain ⟨m, p, rfl, hp⟩ := h
  refine ⟨rfl, fun hs => ?_, m, p, rfl, hp⟩
  obtain rfl := hp hs
  rfl

theorem Kin.refuseInside {α : Type} (h : lx.Kin same lx') (e : SourceError) :
    (lx.refuseInside e : Outcome Lexer α).Kin same (lx'.refuseInside e) := by
  obtain ⟨m, p, rfl, hp⟩ := h
  refine ⟨rfl, fun hs => ?_, m, p, rfl, hp⟩
  obtain rfl := hp hs
  rfl

/-! ## moves -/

theorem Kin.skipGap (h : lx.Kin same lx') :
    lx'.skipGap.1 = lx.skipGap.1 ∧ lx.skipGap.2.Kin same lx'.skipGap.2 := by
  obtain ⟨m, p, rfl, hp⟩ := h
  obtain ⟨k, hk⟩ := Margin.skip_commentCount ⟨lx.cursor, lx.comments, lx.metrics.comments⟩ m.comments
  unfold Lexer.skipGap
  dsimp only at hk ⊢
  rw [hk]
  exact ⟨rfl, _, p, rfl, hp⟩

theorem Kin.lexAt (h : lx.Kin same lx') (unget : Position) :
    (lx'.lexAt unget).1 = (lx.lexAt unget).1 ∧ (lx.lexAt unget).2.Kin same (lx'.lexAt unget).2 := by
  obtain ⟨m, p, rfl, hp⟩ := h
  unfold Lexer.lexAt
  dsimp only
  cases hr : lx.cursor.rest with
  | nil => exact ⟨rfl, m, p, rfl, hp⟩
  | cons c cs =>
    dsimp only
    cases hl : Lexeme.scan c cs with
    | error cause => exact ⟨rfl, m, p, rfl, hp⟩
    | ok l => exact ⟨rfl, m, p, rfl, hp⟩

theorem Kin.verdictAt (h : lx.Kin same lx') (unget : Position) (rest : List Char)
    (isIncluded : Bool) :
    (lx'.verdictAt unget rest isIncluded).1 = (lx.verdictAt unget rest isIncluded).1 ∧
      (lx.verdictAt unget rest isIncluded).2.Kin same (lx'.verdictAt unget rest isIncluded).2 := by
  obtain ⟨m, p, rfl, hp⟩ := h
  unfold Lexer.verdictAt askPreprocessor readDirective
  dsimp only
  cases hc : lx.preprocessor with
  | none => exact ⟨rfl, _, p, rfl, hp⟩
  | some c => exact ⟨rfl, _, p, rfl, hp⟩

theorem Kin.skipLine (h : lx.Kin same lx') : lx.skipLine.Kin same lx'.skipLine := by
  obtain ⟨m, p, rfl, hp⟩ := h
  unfold Lexer.skipLine
  dsimp only
  cases hr : lx.cursor.rest with
  | nil => exact ⟨m, p, rfl, hp⟩
  | cons c cs => exact ⟨m, p, rfl, hp⟩

theorem Kin.unget (h : lx.Kin same lx') : lx.unget.Kin same lx'.unget := by
  obtain ⟨m, p, rfl, hp⟩ := h
  unfold Lexer.unget
  dsimp only
  split <;> exact ⟨m, p, rfl, hp⟩

/-! ## excluded regions -/

/-- The states of stepping over an excluded region, over lexers that are kin. -/
structure Skim.Kin (same : Prop) (x x' : Skim) : Prop where
  lexer : x.lexer.Kin same x'.lexer
  scan : x'.scan = x.scan
  seen : x'.seen = x.seen

/-- Both steps end the region, or neither does. -/
inductive Skim.StepKin (same : Prop) : Outcome Lexer Unit ⊕ Skim → Outcome Lexer Unit ⊕ Skim → Prop
  | ended {o o' : Outcome Lexer Unit} : o.Kin same o' → StepKin same (.inl o) (.inl o')
  | more {y y' : Skim} : y.Kin same y' → StepKin same (.inr y) (.inr y')

theorem Skim.Kin.turn {x x' : Skim} (h : x.Kin same x') (hx : lx.Kin same lx') (region : Region) :
    StepKin same (x.turn lx region) (x'.turn lx' region) := by
  unfold Skim.turn
  rw [h.scan, h.seen]
  cases region with
  | included => exact .ended ⟨rfl, fun _ => rfl, hx⟩
  | scanned => exact .more ⟨hx, rfl, rfl⟩
  | silent => exact .more ⟨hx, rfl, rfl⟩

theorem Skim.Kin.look {x x' : Skim} (h : x.Kin same x') (hx : lx.Kin same lx') (t : Token) :
    StepKin same (x.look lx t) (x'.look lx' t) := by
  unfold Skim.look
  rw [h.scan, h.seen]
  split
  · split
    · exact .ended (hx.refuseInside _)
    · exact .more ⟨hx, rfl, rfl⟩
  · exact .more ⟨hx, rfl, rfl⟩

theorem Skim.Kin.step {x x' : Skim} (h : x.Kin same x') (start : Position) :
    StepKin same (x.step start) (x'.step start) := by
  obtain ⟨hgap, hgapped⟩ := h.lexer.skipGap
  have hplace : x'.lexer.cursor.position = x.lexer.cursor.position := by rw [h.lexer.cursor]
  have hat : directiveAt? x'.lexer.skipGap.2.cursor = directiveAt? x.lexer.skipGap.2.cursor := by
    rw [hgapped.cursor]
  cases hg : x.lexer.skipGap.1 with
  | some e =>
    rw [step_broken hg, step_broken (hgap.trans hg)]
    exact .ended (hgapped.refuseInside e)
  | none =>
    have hg' := hgap.trans hg
    cases hd : directiveAt? x.lexer.skipGap.2.cursor with
    | some rest =>
      have hd' := hat.trans hd
      obtain ⟨hverdict, hasked⟩ := hgapped.verdictAt x.lexer.cursor.position rest false
      rw [← hplace] at hverdict hasked
      cases hv : (x.lexer.skipGap.2.verdictAt x'.lexer.cursor.position rest false).1 with
      | error e =>
        have hv' := hverdict.trans hv
        rw [hplace] at hv
        rw [step_directive_error hg hd hv, step_directive_error hg' hd' hv', ← hplace]
        exact .ended (hasked.refuseInside e)
      | ok verdict =>
        have hv' := hverdict.trans hv
        rw [hplace] at hv
        rw [step_directive_ok hg hd hv, step_directive_ok hg' hd' hv', ← hplace]
        exact h.turn hasked verdict.region
    | none =>
      have hd' := hat.trans hd
      obtain ⟨htoken, hlexed⟩ := hgapped.lexAt x.lexer.cursor.position
      rw [← hplace] at htoken hlexed
      cases ht : (x.lexer.skipGap.2.lexAt x'.lexer.cursor.position).1 with
      | error e =>
        have ht' := htoken.trans ht
        rw [hplace] at ht
        rw [step_lexeme_error hg hd ht, step_lexeme_error hg' hd' ht']
        split
        · exact .more ⟨hgapped.skipLine, h.scan, h.seen⟩
        · exact .ended (hgapped.refuseInside e)
      | ok t =>
        have ht' := htoken.trans ht
        rw [hplace] at ht
        cases hend : t.isEnd with
        | true =>
          rw [step_end hg hd ht hend, step_end hg' hd' ht' hend]
          exact .ended (hgapped.refuseInside _)
        | false =>
          rw [step_lexeme_ok hg hd ht hend, step_lexeme_ok hg' hd' ht' hend, ← hplace]
          exact h.look hlexed t

theorem Skim.Kin.scanExcluded {x x' : Skim} (h : x.Kin same x') (start : Position) :
    (Lexer.scanExcluded start x).Kin same (Lexer.scanExcluded start x') := by
  fun_induction Lexer.scanExcluded start x generalizing x' with
  | case1 x o ho =>
    have hstep := h.step start
    rw [ho] at hstep
    generalize ho' : x'.step start = s' at hstep
    cases hstep with
    | ended hkin =>
      rw [scanExcluded_of_inl ho']
      exact hkin
  | case2 x y hy ih =>
    have hstep := h.step start
    rw [hy] at hstep
    generalize hy' : x'.step start = s' at hstep
    cases hstep with
    | more hkin =>
      rw [scanExcluded_of_inr hy']
      exact ih hkin

/-! ## the next token -/

theorem Kin.skipExcluded (h : lx.Kin same lx') (region : Region) (start : Position) :
    (lx.skipExcluded region start).Kin same (lx'.skipExcluded region start) := by
  obtain ⟨m, p, rfl, hp⟩ := h
  have hskim : Skim.Kin same ⟨lx, region == .scanned, .start⟩
      ⟨{ lx with metrics := m, preferences := p }, region == .scanned, .start⟩ :=
    ⟨⟨m, p, rfl, hp⟩, rfl, rfl⟩
  obtain ⟨hresult, hevents, hstate⟩ := hskim.scanExcluded lx.cursor.position
  have hcursor := hstate.cursor
  unfold Lexer.skipExcluded
  dsimp only
  refine ⟨hresult, fun hs => ?_, ?_⟩
  · dsimp only
    rw [hresult, hevents hs, hcursor, hp hs]
  · obtain ⟨k, q, hk, hq⟩ := hstate
    dsimp only
    rw [hk]
    exact ⟨_, q, rfl, hq⟩

theorem Kin.handleDirective (h : lx.Kin same lx') (unget : Position) (rest : List Char) :
    (lx.handleDirective unget rest).Kin same (lx'.handleDirective unget rest) := by
  obtain ⟨hverdict, hasked⟩ := h.verdictAt unget rest true
  rw [handleDirective_eq, handleDirective_eq, hverdict, h.cursor]
  cases hv : (lx.verdictAt unget rest true).1 with
  | error e => exact hasked.refuse e
  | ok verdict =>
    have hsettled : ((lx.verdictAt unget rest true).2.settle verdict).Kin same
        ((lx'.verdictAt unget rest true).2.settle verdict) := by
      obtain ⟨m, p, hm, hp⟩ := hasked
      rw [hm]
      exact ⟨m, p, rfl, hp⟩
    dsimp only
    split
    · exact ⟨rfl, fun _ => rfl, hsettled⟩
    · exact hsettled.skipExcluded _ _

theorem Kin.ahead (h : lx.Kin same lx') : lx'.ahead = lx.ahead := by
  unfold Lexer.ahead
  rw [h.preprocessor, h.skipGap.2.cursor]

/-- A look ahead depends neither on the counts nor on the preferences. -/
theorem Kin.lexToken (h : lx.Kin same lx') : lx.lexToken.Kin same lx'.lexToken := by
  induction lx using lexToken_induction generalizing lx' with
  | broken lx e hg =>
    obtain ⟨hgap, hgapped⟩ := h.skipGap
    rw [lexToken_broken (hgap.trans hg)]
    exact hgapped.refuse e
  | unlexed lx e hg ha ht =>
    obtain ⟨hgap, hgapped⟩ := h.skipGap
    have ht' := (hgapped.lexAt lx.cursor.position).1.trans ht
    rw [← h.cursor] at ht'
    rw [lexToken_lexeme_error (hgap.trans hg) (h.ahead.trans ha) ht']
    exact hgapped.refuse e
  | lexeme lx t hg ha ht =>
    obtain ⟨hgap, hgapped⟩ := h.skipGap
    obtain ⟨htoken, hlexed⟩ := hgapped.lexAt lx.cursor.position
    have ht' := htoken.trans ht
    rw [← h.cursor] at ht'
    rw [lexToken_lexeme_ok (hgap.trans hg) (h.ahead.trans ha) ht', h.cursor]
    exact ⟨rfl, fun _ => rfl, hlexed⟩
  | refused lx rest f hg ha ho =>
    obtain ⟨hgap, hgapped⟩ := h.skipGap
    have hhandled := hgapped.handleDirective lx.cursor.position rest
    have ho' := hhandled.result.trans ho
    rw [← h.cursor] at ho'
    rw [lexToken_directive_error (hgap.trans hg) (h.ahead.trans ha) ho', h.cursor]
    exact ⟨rfl, hhandled.events, hhandled.state⟩
  | directive lx rest hg ha ho ih =>
    obtain ⟨hgap, hgapped⟩ := h.skipGap
    have hhandled := hgapped.handleDirective lx.cursor.position rest
    have ho' := hhandled.result.trans ho
    rw [← h.cursor] at ho'
    obtain ⟨hresult, hevents, hstate⟩ := ih hhandled.state
    rw [lexToken_directive_ok (hgap.trans hg) (h.ahead.trans ha) ho', h.cursor]
    refine ⟨hresult, fun hs => ?_, hstate⟩
    show _ ++ _ = _ ++ _
    rw [hhandled.events hs, hevents hs]

/-! ## operations -/

theorem Kin.peek (h : lx.Kin same lx') : lx.peek.Kin same lx'.peek := by
  cases hc : lx.current with
  | some p =>
    rw [peek_of_current hc, peek_of_current (h.current.trans hc)]
    exact ⟨rfl, fun _ => rfl, h⟩
  | none =>
    have hc' := h.current.trans hc
    obtain ⟨hresult, hevents, m, q, hm, hq⟩ := h.lexToken
    cases hr : lx.lexToken.result with
    | ok p =>
      rw [peek_of_lexToken hc hr, peek_of_lexToken hc' (hresult.trans hr), hm]
      exact ⟨rfl, hevents, m, q, rfl, hq⟩
    | error f =>
      rw [peek_of_error hc hr, peek_of_error hc' (hresult.trans hr), hm]
      exact ⟨rfl, hevents, m, q, rfl, hq⟩

theorem Kin.consumed (h : lx.Kin same lx') (t : Token) : (lx.consumed t).Kin same (lx'.consumed t) := by
  obtain ⟨m, p, rfl, hp⟩ := h
  exact ⟨_, p, rfl, hp⟩

theorem Kin.next (h : lx.Kin same lx') : lx.next.Kin same lx'.next := by
  have hpeek := h.peek
  cases hr : lx.peek.result with
  | ok t =>
    rw [next_of_ok hr, next_of_ok (hpeek.result.trans hr)]
    exact ⟨rfl, hpeek.events, hpeek.state.consumed t⟩
  | error f =>
    rw [next_of_error hr, next_of_error (hpeek.result.trans hr)]
    exact ⟨rfl, hpeek.events, hpeek.state⟩

theorem Kin.line (h : lx.Kin same lx') : lx.line.Kin same lx'.line := by
  obtain ⟨m, p, hm, hp⟩ := h.unget
  unfold Lexer.line
  rw [hm]
  dsimp only
  cases (lx.unget.cursor.rest.dropWhile DirectiveLine.isInnerBlank).dropWhile (· != '\n') with
  | nil => exact ⟨rfl, fun _ => rfl, m, p, rfl, hp⟩
  | cons c rest => exact ⟨rfl, fun _ => rfl, m, p, rfl, hp⟩

theorem Kin.rawText (h : lx.Kin same lx') (terminator : Char) (options : RawTextOptions) :
    (lx.rawText terminator options).Kin same (lx'.rawText terminator options) := by
  obtain ⟨hgap, hgapped⟩ := h.unget.skipGap
  unfold Lexer.rawText
  dsimp only
  rw [hgap, hgapped.cursor]
  split
  · exact hgapped.refuse _
  · split
    · exact hgapped.refuse _
    · split
      · exact hgapped.refuse _
      · obtain ⟨m, p, hm, hp⟩ := hgapped
        rw [hm]
        exact ⟨rfl, fun _ => rfl, m, p, rfl, hp⟩

theorem kin_answered {α : Type} {f : α → Answer} {o o' : Outcome Lexer α} (h : o.Kin same o') :
    (answered f o).Kin same (answered f o') :=
  ⟨congrArg (Except.map f) h.result, h.events, h.state⟩

/-- No operation depends on the counts, and the preferences matter to what is logged alone. -/
theorem Kin.apply (h : lx.Kin same lx') (op : Op) : (lx.apply op).Kin same (lx'.apply op) := by
  cases op with
  | peek => exact kin_answered h.peek
  | next => exact kin_answered h.next
  | atEnd =>
    have hpeek := h.peek
    exact kin_answered ⟨congrArg (Except.map Token.isEnd) hpeek.result, hpeek.events, hpeek.state⟩
  | line => exact kin_answered h.line
  | rawText terminator options => exact kin_answered (h.rawText terminator options)
  | consume | enableComments | save | restore | abandon | startRecording | record =>
    obtain ⟨m, p, rfl, hp⟩ := h
    apply kin_answered
    simp only [consume, enableComments, save, restore, abandon, startRecording, record]
    split <;> exact ⟨rfl, fun _ => rfl, _, p, rfl, hp⟩
  | clearComments | disableComments | commitComments | stopRecording =>
    obtain ⟨m, p, rfl, hp⟩ := h
    exact ⟨rfl, fun _ => rfl, m, p, rfl, hp⟩

/-! ## what a caller sees -/

/-- What a caller sees of an operation: the outcome without the lexer, and then the position, the
comments before the consumed tokens and the recorded tokens. -/
structure Sight where
  result : Except Failure Answer
  events : List Event
  position : Position
  comments : List Comment
  recorded : List Token

def sight (o : Outcome Lexer Answer) : Sight :=
  ⟨o.result, o.events, o.state.position, o.state.comments.committed, o.state.recorded⟩

/-- What a caller sees of a row of operations. -/
def sights (lx : Lexer) : List Op → List Sight
  | [] => []
  | op :: ops => sight (lx.apply op) :: (lx.apply op).state.sights ops

theorem Alike.sights (h : lx.Alike lx') (ops : List Op) : lx'.sights ops = lx.sights ops := by
  induction ops generalizing lx lx' with
  | nil => rfl
  | cons op ops ih =>
    obtain ⟨hresult, hevents, hstate⟩ := (alike_iff_kin.mp h).apply op
    have halike := alike_iff_kin.mpr hstate
    have hsight : sight (lx'.apply op) = sight (lx.apply op) := by
      obtain ⟨m, hm⟩ := halike
      unfold sight
      rw [hresult, hevents trivial, hm]
      rfl
    show sight (lx'.apply op) :: _ = sight (lx.apply op) :: _
    rw [hsight, ih halike]

end Lexer

end HeaderLex
