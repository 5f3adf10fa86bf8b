import HeaderLex.Proofs.Balance
import HeaderLex.Proofs.LineEndings

/-!
# Reading with carriage returns

Two lexers read the same source side by side, one of them with a carriage return before every line
feed.  They stay side by side as long as no literal and no directive goes over the end of its line.

* `Lexer.Abreast`          the two lexers are at the same place;
* `Lexer.Steady`           at the place stands nothing that goes over the end of its line;
* `Abreast.lexToken`       one look ahead with conditional compilation;
* `Abreast.drain_plain`    reading to the end without a preprocessor;
* `line_endings_iff`       both ways to read a source, with both line ends.
-/

set_option linter.unusedVariables false

namespace HeaderLex

/-- What stays of a token when its text is changed: its kind, its text and its lines. -/
def Token.onLines (change : List Char → List Char) (t : Token) : TokenKind × List Char × Nat × Nat :=
  (t.kind, change t.value.toList, t.start.line, t.unget.line)

/-- The tokens have the same kind, the same text, which is in one line, and the same lines. -/
structure Token.Abreast (t u : Token) : Prop where
  kind : u.kind = t.kind
  value : u.value = t.value
  line : '\n' ∉ t.value.toList
  start : u.start.line = t.start.line
  unget : u.unget.line = t.unget.line

theorem Token.Abreast.onLines {t u : Token} (h : t.Abreast u) :
    u.onLines id = t.onLines Text.crlf := by
  unfold Token.onLines
  rw [h.kind, h.value, h.start, h.unget, Text.crlf_eq_self h.line]
  rfl

theorem Token.Abreast.isEnd {t u : Token} (h : t.Abreast u) : u.isEnd = t.isEnd :=
  congrArg TokenKind.isEnd h.kind

/-- The search for illegal contents does not look at places. -/
theorem SerializeState.check_abreast {t u : Token} (h : t.Abreast u) (s : SerializeState) :
    (∃ e e' seen, s.check t = (.error e, seen) ∧ s.check u = (.error e', seen)) ∨
      ∃ seen, s.check t = (.ok (), seen) ∧ s.check u = (.ok (), seen) := by
  have hword : ∀ text, u.isWord text = t.isWord text := by
    intro text
    unfold Token.isWord Token.isIdentifier
    rw [h.kind, h.value]
  have hmove : s.move u = s.move t := by
    unfold SerializeState.move
    simp only [hword]
    unfold Token.isMark Token.isOperator Token.isSymbol
    rw [h.kind, h.value]
  have hidentifier : u.isIdentifier = t.isIdentifier := by
    unfold Token.isIdentifier
    rw [h.kind]
  unfold SerializeState.check
  rw [hidentifier, h.value, hmove, hword]
  split
  · exact .inl ⟨_, _, _, rfl, rfl⟩
  · split
    · exact .inr ⟨_, rfl, rfl⟩
    · exact .inl ⟨_, _, _, rfl, rfl⟩
    · exact .inr ⟨_, rfl, rfl⟩

/-- A directive does the same to the open conditionals wherever it stands. -/
theorem Conditional.step_place {c : Conditional} {d e : Directive} (hn : e.name = d.name)
    (ha : e.arguments = d.arguments) (isIncluded : Bool) :
    (c.step e isIncluded).toOption = (c.step d isIncluded).toOption := by
  unfold step
  rw [hn, ha]
  dsimp only
  split
  · rfl
  · rfl
  · rfl
  · split <;> rfl
  · split <;> rfl
  · split <;> rfl
  · split <;> rfl

/-- The blanks before a place on its line do not change. -/
theorem lastLineBlank_crlf (backwards : List Char) :
    lastLineBlank (Text.crlf backwards.reverse).reverse = lastLineBlank backwards := by
  induction backwards with
  | nil => rfl
  | cons c cs ih =>
    rw [List.reverse_cons, Text.crlf_append, List.reverse_append]
    by_cases hc : c = '\n'
    · subst hc
      rfl
    · rw [Text.crlf_cons_of_ne hc]
      unfold lastLineBlank at ih ⊢
      show ((c :: (Text.crlf cs.reverse).reverse).takeWhile (· != '\n')).all isLineBlank = _
      rw [List.takeWhile_cons_of_pos (by simpa using hc), List.takeWhile_cons_of_pos (by simpa using hc),
        List.all_cons, List.all_cons, ih]

namespace Lexer

/-- The second lexer is where the first one is, in the source with carriage returns. -/
structure Abreast (source : List Char) (lx mx : Lexer) : Prop where
  free : '\r' ∉ source
  within : lx.cursor.Within source
  within' : mx.cursor.Within (Text.crlf source)
  rest : Text.Mirrors lx.cursor.rest mx.cursor.rest
  line : mx.cursor.position.line = lx.cursor.position.line
  preprocessor : mx.preprocessor = lx.preprocessor

variable {source : List Char} {lx mx : Lexer}

theorem Abreast.not_mem (h : Abreast source lx mx) : '\r' ∉ lx.cursor.rest := by
  intro hmem
  apply h.free
  rw [← h.within.text]
  exact List.mem_append_right _ hmem

/-! ## gaps and what stands behind them -/

/-- Behind a gap the lexers are not between a carriage return and its line feed. -/
theorem Abreast.skipGap (h : Abreast source lx mx) :
    (mx.skipGap.1 = none ↔ lx.skipGap.1 = none) ∧ Abreast source lx.skipGap.2 mx.skipGap.2 ∧
      mx.skipGap.2.cursor.rest = Text.crlf lx.skipGap.2.cursor.rest := by
  obtain ⟨hcause, hrest, hline⟩ := @Margin.skip_crlf ⟨lx.cursor, lx.comments, lx.metrics.comments⟩
    ⟨mx.cursor, mx.comments, mx.metrics.comments⟩ h.not_mem h.rest h.line
  have hbroken : mx.skipGap.1 = none ↔ lx.skipGap.1 = none := by
    show Option.map _ _ = none ↔ Option.map _ _ = none
    rw [Option.map_eq_none_iff, Option.map_eq_none_iff, hcause]
  exact ⟨hbroken, ⟨h.free, within_skipGap h.within, within_skipGap h.within', .inl hrest, hline,
    h.preprocessor⟩, hrest⟩

theorem Abreast.atLineStart (h : Abreast source lx mx)
    (hrest : mx.cursor.rest = Text.crlf lx.cursor.rest) :
    mx.cursor.atLineStart = lx.cursor.atLineStart := by
  have hbefore : mx.cursor.before.reverse = Text.crlf lx.cursor.before.reverse := by
    have htext := h.within'.text
    rw [← h.within.text, Text.crlf_append, ← hrest] at htext
    exact List.append_cancel_right htext
  unfold Cursor.atLineStart
  rw [← lastLineBlank_crlf lx.cursor.before, ← hbefore, List.reverse_reverse]

theorem Abreast.directiveAt? (h : Abreast source lx mx)
    (hrest : mx.cursor.rest = Text.crlf lx.cursor.rest) :
    directiveAt? mx.cursor = (directiveAt? lx.cursor).map Text.crlf := by
  have hstart := h.atLineStart hrest
  cases hd : Lexer.directiveAt? lx.cursor with
  | some cs =>
    obtain ⟨hcs, hline⟩ := directiveAt?_eq_some.1 hd
    rw [hcs, Text.crlf_cons_of_ne (by decide)] at hrest
    exact directiveAt?_eq_some.2 ⟨hrest, hstart.trans hline⟩
  | none =>
    cases hd' : Lexer.directiveAt? mx.cursor with
    | none => rfl
    | some ds =>
      obtain ⟨hds, hline⟩ := directiveAt?_eq_some.1 hd'
      obtain ⟨hc, -⟩ | ⟨-, cs, hcs, -⟩ := Text.crlf_eq_cons (hrest.symm.trans hds)
      · cases hc
      · rw [directiveAt?_eq_some.2 ⟨hcs, hstart.symm.trans hline⟩] at hd
        cases hd

/-- At the place stands nothing that goes over the end of its line: no directive with a continuation,
and no literal that comes to the line end. -/
structure Steady (place : Lexer) : Prop where
  directive : ∀ cs, directiveAt? place.cursor = some cs → '\n' ∉ DirectiveLine.argumentsOf cs
  lexeme : directiveAt? place.cursor = none →
    ∀ c cs, place.cursor.rest = c :: cs → Lexeme.touchesLine c cs = false

theorem Abreast.advance (h : Abreast source lx mx) {lx' mx' : Lexer}
    {text rest text' rest' : List Char} {lines lines' : Nat}
    (hlx : lx'.cursor = lx.cursor.advance text rest lines)
    (hmx : mx'.cursor = mx.cursor.advance text' rest' lines')
    (hin : lx'.cursor.Within source) (hin' : mx'.cursor.Within (Text.crlf source))
    (hrest : Text.Mirrors rest rest') (hlines : lines' = lines)
    (hp : mx'.preprocessor = lx'.preprocessor) : Abreast source lx' mx' := by
  refine ⟨h.free, hin, hin', ?_, ?_, hp⟩
  · rw [hlx, hmx]
    exact hrest
  · rw [hlx, hmx]
    show mx.cursor.position.line + lines' = lx.cursor.position.line + lines
    rw [h.line, hlines]

/-- Two lexemes behind a gap: both lack, for the same reason, or both are there. -/
theorem Abreast.lexAt (h : Abreast source lx mx) (hrest : mx.cursor.rest = Text.crlf lx.cursor.rest)
    (hhead : ∀ c cs, lx.cursor.rest = c :: cs → c ≠ '\n' ∧ Lexeme.touchesLine c cs = false)
    {u v : Position} (hu : v.line = u.line) :
    (∃ e e', (lx.lexAt u).1 = .error e ∧ (mx.lexAt v).1 = .error e' ∧ e'.cause = e.cause) ∨
      ∃ t t', (lx.lexAt u).1 = .ok t ∧ (mx.lexAt v).1 = .ok t' ∧ t.Abreast t' ∧
        Abreast source (lx.lexAt u).2 (mx.lexAt v).2 := by
  cases hcs : lx.cursor.rest with
  | nil =>
    rw [hcs] at hrest
    rw [lexAt_end u hcs, lexAt_end v hrest]
    exact .inr ⟨_, _, rfl, rfl, ⟨rfl, rfl, List.not_mem_nil, h.line, hu⟩, h⟩
  | cons c cs =>
    obtain ⟨hc, htouch⟩ := hhead c cs hcs
    rw [hcs, Text.crlf_cons_of_ne hc] at hrest
    have hscan := Lexeme.scan_crlf hc htouch
    cases hl : Lexeme.scan c cs with
    | error cause =>
      rw [hl] at hscan
      refine .inl ⟨⟨cause, lx.cursor.position⟩, ⟨cause, mx.cursor.position⟩, ?_, ?_, rfl⟩
      · unfold Lexer.lexAt
        simp only [hcs, hl]
      · unfold Lexer.lexAt
        simp only [hrest, hscan]
        rfl
    | ok l =>
      rw [hl] at hscan
      have hlx : lx.lexAt u = (.ok ⟨l.kind, String.ofList l.text, lx.cursor.position, u⟩,
          { lx with cursor := lx.cursor.advance l.text l.rest l.lines }) := by
        unfold Lexer.lexAt
        simp only [hcs, hl]
      have hmx : mx.lexAt v = (.ok ⟨l.kind, String.ofList l.text, mx.cursor.position, v⟩,
          { mx with cursor := mx.cursor.advance l.text (Text.crlf l.rest) l.lines }) := by
        unfold Lexer.lexAt
        simp only [hrest, hscan]
        rfl
      rw [hlx, hmx]
      refine .inr ⟨_, _, rfl, rfl, ⟨rfl, rfl, ?_, h.line, hu⟩, ?_⟩
      · rw [String.toList_ofList]
        exact Lexeme.newline_not_mem_scan hc hl htouch
      · exact h.advance rfl rfl (within_scan h.within hcs hl) (within_scan h.within' hrest hscan)
          (.inl rfl) rfl h.preprocessor

theorem Abreast.skipLine (h : Abreast source lx mx) (hrest : mx.cursor.rest = Text.crlf lx.cursor.rest)
    (hhead : ∀ c cs, lx.cursor.rest = c :: cs → c ≠ '\n') :
    Abreast source lx.skipLine mx.skipLine := by
  have hin := (stable_within source).line h.within
  have hin' := (stable_within (Text.crlf source)).line h.within'
  cases hcs : lx.cursor.rest with
  | nil =>
    rw [hcs] at hrest
    have hlx : lx.skipLine = lx := by
      unfold Lexer.skipLine
      simp only [hcs]
    have hmx : mx.skipLine = mx := by
      unfold Lexer.skipLine
      simp only [hrest]
      rfl
    rw [hlx, hmx]
    exact h
  | cons c cs =>
    rw [hcs, Text.crlf_cons_of_ne (hhead c cs hcs)] at hrest
    have hp : mx.skipLine.preprocessor = lx.skipLine.preprocessor := by
      rw [preprocessor_skipLine, preprocessor_skipLine, h.preprocessor]
    have hlx : lx.skipLine.cursor = lx.cursor.advance (c :: cs.takeWhile (· != '\n'))
        (cs.dropWhile (· != '\n')) 0 := by
      unfold Lexer.skipLine
      simp only [hcs]
    have hmx : mx.skipLine.cursor = mx.cursor.advance (c :: (Text.crlf cs).takeWhile (· != '\n'))
        ((Text.crlf cs).dropWhile (· != '\n')) 0 := by
      unfold Lexer.skipLine
      simp only [hrest]
    exact h.advance hlx hmx hin hin' (Text.mirrors_dropWhile cs) rfl hp

/-- A directive without a continuation gets the same verdict. -/
theorem Abreast.verdictAt (h : Abreast source lx mx)
    (hrest : mx.cursor.rest = Text.crlf lx.cursor.rest) {c : Conditional} (hu : lx.Under c)
    {cs : List Char} (hd : Lexer.directiveAt? lx.cursor = some cs)
    (hline : '\n' ∉ DirectiveLine.argumentsOf cs) (u v : Position) (isIncluded : Bool) :
    (∃ e e', (lx.verdictAt u cs isIncluded).1 = .error e ∧
      (mx.verdictAt v (Text.crlf cs) isIncluded).1 = .error e') ∨
    ∃ verdict, (lx.verdictAt u cs isIncluded).1 = .ok verdict ∧
      (mx.verdictAt v (Text.crlf cs) isIncluded).1 = .ok verdict ∧
      Abreast source (lx.verdictAt u cs isIncluded).2 (mx.verdictAt v (Text.crlf cs) isIncluded).2 := by
  have hd' : Lexer.directiveAt? mx.cursor = some (Text.crlf cs) := by
    rw [h.directiveAt? hrest, hd]
    rfl
  obtain ⟨hname, harguments, hleft, htaken⟩ := DirectiveLine.read_crlf hline
  obtain ⟨stack, hp⟩ := hu
  have hp' := h.preprocessor.trans hp
  have hstep := @Conditional.step_place { c with stack } (directiveOf lx.cursor.position u cs)
    (directiveOf mx.cursor.position v (Text.crlf cs)) (congrArg String.ofList hname)
    (congrArg String.ofList harguments) isIncluded
  have hin := (stable_within source).directive u isIncluded h.within hd
  have hin' := (stable_within (Text.crlf source)).directive v isIncluded h.within' hd'
  obtain ⟨after, hok, hverdict, hafter⟩ | ⟨e, herror, hverdict, -⟩ :=
    verdictAt_conditional hp u cs isIncluded
  · obtain ⟨after', hok', hverdict', hafter'⟩ | ⟨e', herror', -, -⟩ :=
      verdictAt_conditional hp' v (Text.crlf cs) isIncluded
    · rw [hok, hok'] at hstep
      obtain rfl : after' = after := Option.some.inj hstep
      rw [hname] at hverdict'
      refine .inr ⟨_, hverdict, hverdict', ?_⟩
      exact h.advance (cursor_verdictAt ..) (cursor_verdictAt ..) hin hin' (.inl hleft) htaken
        (hafter'.trans hafter.symm)
    · rw [hok, herror'] at hstep
      cases hstep
  · obtain ⟨after', hok', -, -⟩ | ⟨e', -, hverdict', -⟩ :=
      verdictAt_conditional hp' v (Text.crlf cs) isIncluded
    · rw [herror, hok'] at hstep
      cases hstep
    · exact .inl ⟨e, e', hverdict, hverdict'⟩

theorem Abreast.notes (h : Abreast source lx mx) (b b' : CommentBuffer) (m m' : Metrics) :
    Abreast source { lx with comments := b, metrics := m } { mx with comments := b', metrics := m' } :=
  ⟨h.free, h.within, h.within', h.rest, h.line, h.preprocessor⟩

/-! ## excluded regions -/

structure Skim.Abreast (source : List Char) (x y : Skim) : Prop where
  lexer : Lexer.Abreast source x.lexer y.lexer
  scan : y.scan = x.scan
  seen : y.seen = x.seen

/-- Both steps fail, or end the region, or go on. -/
inductive Skim.StepAbreast (source : List Char) :
    Outcome Lexer Unit ⊕ Skim → Outcome Lexer Unit ⊕ Skim → Prop
  | failed {o o' : Outcome Lexer Unit} {f f' : Failure} :
      o.result = .error f → o'.result = .error f' → StepAbreast source (.inl o) (.inl o')
  | ended {o o' : Outcome Lexer Unit} : o.result = .ok () → o'.result = .ok () →
      Lexer.Abreast source o.state o'.state → StepAbreast source (.inl o) (.inl o')
  | more {x y : Skim} : x.Abreast source y → StepAbreast source (.inr x) (.inr y)

theorem Skim.Abreast.turn {x y : Skim} (h : x.Abreast source y) (hx : Lexer.Abreast source lx mx)
    (region : Region) : StepAbreast source (x.turn lx region) (y.turn mx region) := by
  unfold Skim.turn
  rw [h.scan, h.seen]
  cases region with
  | included => exact .ended rfl rfl hx
  | scanned => exact .more ⟨hx, rfl, rfl⟩
  | silent => exact .more ⟨hx, rfl, rfl⟩

theorem Skim.Abreast.look {x y : Skim} (h : x.Abreast source y) (hx : Lexer.Abreast source lx mx)
    {t u : Token} (ht : t.Abreast u) : StepAbreast source (x.look lx t) (y.look mx u) := by
  unfold Skim.look
  rw [h.scan, h.seen]
  split
  · obtain ⟨e, e', seen, hcheck, hcheck'⟩ | ⟨seen, hcheck, hcheck'⟩ := SerializeState.check_abreast ht x.seen
    · rw [hcheck, hcheck']
      exact .failed rfl rfl
    · rw [hcheck, hcheck']
      exact .more ⟨hx, rfl, rfl⟩
  · exact .more ⟨hx, rfl, rfl⟩

/-- Behind a gap that is not broken stands no line feed. -/
theorem head_steady (hg : lx.skipGap.1 = none) (hd : Lexer.directiveAt? lx.skipGap.2.cursor = none)
    (hsteady : lx.skipGap.2.Steady) : ∀ c cs, lx.skipGap.2.cursor.rest = c :: cs →
      c ≠ '\n' ∧ Lexeme.touchesLine c cs = false :=
  fun c cs hcs => ⟨head_skipGap hg hcs, hsteady.lexeme hd c cs hcs⟩

theorem Skim.Abreast.step {x y : Skim} (h : x.Abreast source y) {c : Conditional}
    (hu : x.lexer.Under c) (hsteady : x.lexer.skipGap.1 = none → x.lexer.skipGap.2.Steady)
    (start start' : Position) : StepAbreast source (x.step start) (y.step start') := by
  obtain ⟨hbroken, hgapped, hrest⟩ := h.lexer.skipGap
  have hat := hgapped.directiveAt? hrest
  cases hg : x.lexer.skipGap.1 with
  | some e =>
    cases hg' : y.lexer.skipGap.1 with
    | none =>
      rw [hbroken.1 hg'] at hg
      cases hg
    | some e' =>
      rw [step_broken hg, step_broken hg']
      exact .failed rfl rfl
  | none =>
    have hg' := hbroken.2 hg
    have hplace := hsteady hg
    cases hd : Lexer.directiveAt? x.lexer.skipGap.2.cursor with
    | some cs =>
      rw [hd] at hat
      obtain ⟨e, e', hv, hv'⟩ | ⟨verdict, hv, hv', hasked⟩ := hgapped.verdictAt hrest
        ((stable_under c).gap hu) hd (hplace.directive cs hd) x.lexer.cursor.position
        y.lexer.cursor.position false
      · rw [step_directive_error hg hd hv, step_directive_error hg' hat hv']
        exact .failed rfl rfl
      · rw [step_directive_ok hg hd hv, step_directive_ok hg' hat hv']
        exact h.turn hasked verdict.region
    | none =>
      rw [hd] at hat
      have hhead := head_steady hg hd hplace
      obtain ⟨e, e', ht, ht', hcause⟩ | ⟨t, u, ht, ht', htu, hlexed⟩ :=
        @Abreast.lexAt _ _ _ hgapped hrest hhead x.lexer.cursor.position y.lexer.cursor.position h.lexer.line
      · rw [step_lexeme_error hg hd ht, step_lexeme_error hg' hat ht', hcause]
        split
        · exact .more ⟨hgapped.skipLine hrest fun a cs hcs => (hhead a cs hcs).1, h.scan, h.seen⟩
        · exact .failed rfl rfl
      · cases hend : t.isEnd with
        | true =>
          rw [step_end hg hd ht hend, step_end hg' hat ht' (htu.isEnd.trans hend)]
          exact .failed rfl rfl
        | false =>
          rw [step_lexeme_ok hg hd ht hend, step_lexeme_ok hg' hat ht' (htu.isEnd.trans hend)]
          exact h.look hlexed htu

/-- Both results are failures, or both are there and the lexers are side by side. -/
def BothEnd {α : Type} (source : List Char) (P : α → α → Prop) (o o' : Outcome Lexer α) : Prop :=
  (∃ f f', o.result = .error f ∧ o'.result = .error f') ∨
    ∃ a a', o.result = .ok a ∧ o'.result = .ok a' ∧ P a a' ∧ Abreast source o.state o'.state

theorem Skim.Abreast.scanExcluded {x y : Skim} (h : x.Abreast source y) {c : Conditional}
    (hu : x.lexer.Under c) {start start' : Position}
    (hsteady : ∀ place, Skim.Comes start x place → place.Steady) :
    BothEnd source (fun _ _ => True) (Lexer.scanExcluded start x) (Lexer.scanExcluded start' y) := by
  fun_induction Lexer.scanExcluded start x generalizing y with
  | case1 x o ho =>
    have hstep := h.step hu (fun hg => hsteady _ (.here hg)) start start'
    rw [ho] at hstep
    generalize ho' : y.step start' = s at hstep
    cases hstep with
    | failed hf hf' =>
      rw [scanExcluded_of_inl ho']
      exact .inl ⟨_, _, hf, hf'⟩
    | ended hok hok' hstate =>
      rw [scanExcluded_of_inl ho']
      exact .inr ⟨(), (), hok, hok', trivial, hstate⟩
  | case2 x z hz ih =>
    have hstep := h.step hu (fun hg => hsteady _ (.here hg)) start start'
    have hu' := (stable_under c).step start ((stable_under c).gap hu)
    rw [hz] at hstep hu'
    generalize ho' : y.step start' = s at hstep
    cases hstep with
    | more hmore =>
      rw [scanExcluded_of_inr ho']
      exact ih hmore hu' fun place hcomes => hsteady place (.later hz hcomes)

/-! ## the next token -/

/-- A directive with the region after it. -/
theorem Abreast.handleDirective (h : Abreast source lx mx) {c : Conditional} (hu : lx.Under c)
    (hg : lx.skipGap.1 = none) {cs : List Char} (ha : lx.ahead = some cs)
    (hsteady : ∀ place, lx.Comes place → place.Steady) :
    BothEnd source (fun _ _ => True) (lx.skipGap.2.handleDirective lx.cursor.position cs)
      (mx.skipGap.2.handleDirective mx.cursor.position (Text.crlf cs)) := by
  obtain ⟨-, hgapped, hrest⟩ := h.skipGap
  have hd := Stable.directiveAt?_of_ahead ha
  have hline := (hsteady _ (.here hg)).directive cs hd
  have hasked := (stable_under c).directive lx.cursor.position true ((stable_under c).gap hu) hd
  rw [handleDirective_eq, handleDirective_eq]
  obtain ⟨e, e', hv, hv'⟩ | ⟨verdict, hv, hv', hstate⟩ := hgapped.verdictAt hrest
    ((stable_under c).gap hu) hd hline lx.cursor.position mx.cursor.position true
  · rw [hv, hv']
    exact .inl ⟨_, _, rfl, rfl⟩
  · rw [hv, hv']
    have hsettled := hstate.notes
      (if verdict.clearComments then (lx.skipGap.2.verdictAt lx.cursor.position cs true).2.comments.clearPending
        else (lx.skipGap.2.verdictAt lx.cursor.position cs true).2.comments)
      (if verdict.clearComments then
          (mx.skipGap.2.verdictAt mx.cursor.position (Text.crlf cs) true).2.comments.clearPending
        else (mx.skipGap.2.verdictAt mx.cursor.position (Text.crlf cs) true).2.comments)
      (lx.skipGap.2.verdictAt lx.cursor.position cs true).2.metrics
      (mx.skipGap.2.verdictAt mx.cursor.position (Text.crlf cs) true).2.metrics
    have hsettled : Abreast source ((lx.skipGap.2.verdictAt lx.cursor.position cs true).2.settle verdict)
        ((mx.skipGap.2.verdictAt mx.cursor.position (Text.crlf cs) true).2.settle verdict) := hsettled
    have hunder : ((lx.skipGap.2.verdictAt lx.cursor.position cs true).2.settle verdict).Under c := hasked
    dsimp only
    cases hr : verdict.region.isIncluded with
    | true => exact .inr ⟨(), (), rfl, rfl, trivial, hsettled⟩
    | false =>
      have hskim : Skim.Abreast source
          ⟨(lx.skipGap.2.verdictAt lx.cursor.position cs true).2.settle verdict,
            verdict.region == .scanned, .start⟩
          ⟨(mx.skipGap.2.verdictAt mx.cursor.position (Text.crlf cs) true).2.settle verdict,
            verdict.region == .scanned, .start⟩ := ⟨hsettled, rfl, rfl⟩
      have hscan := @Skim.Abreast.scanExcluded _ _ _ hskim c hunder
        ((lx.skipGap.2.verdictAt lx.cursor.position cs true).2.settle verdict).cursor.position
        ((mx.skipGap.2.verdictAt mx.cursor.position (Text.crlf cs) true).2.settle verdict).cursor.position
        fun place hcomes => hsteady place (.inside hg ha hv hr hcomes)
      obtain ⟨f, f', hf, hf'⟩ | ⟨_, _, hok, hok', -, hstate'⟩ := hscan
      · exact .inl ⟨f, f', hf, hf'⟩
      · exact .inr ⟨(), (), hok, hok', trivial, hstate'.notes _ _ _ _⟩

theorem Abreast.ahead (h : Abreast source lx mx) : mx.ahead = lx.ahead.map Text.crlf := by
  obtain ⟨-, hgapped, hrest⟩ := h.skipGap
  unfold Lexer.ahead
  rw [h.preprocessor, hgapped.directiveAt? hrest]
  split <;> rfl

/-- One look ahead with conditional compilation. -/
theorem Abreast.lexToken (h : Abreast source lx mx) {c : Conditional} (hu : lx.Under c)
    (hsteady : ∀ place, lx.Comes place → place.Steady) :
    BothEnd source (fun p q => p.token.Abreast q.token) lx.lexToken mx.lexToken := by
  induction hn : lx.unread using Nat.strongRecOn generalizing lx mx with
  | ind n ih =>
    obtain ⟨hbroken, hgapped, hrest⟩ := h.skipGap
    have hat := h.ahead
    cases hg : lx.skipGap.1 with
    | some e =>
      cases hg' : mx.skipGap.1 with
      | none =>
        rw [hbroken.1 hg'] at hg
        cases hg
      | some e' =>
        rw [lexToken_broken hg, lexToken_broken hg']
        exact .inl ⟨_, _, rfl, rfl⟩
    | none =>
      have hg' := hbroken.2 hg
      cases ha : lx.ahead with
      | none =>
        rw [ha] at hat
        have hd : Lexer.directiveAt? lx.skipGap.2.cursor = none := by
          cases hd : Lexer.directiveAt? lx.skipGap.2.cursor with
          | none => rfl
          | some cs =>
            rw [ahead_of_directive hu hd] at ha
            cases ha
        have hhead := head_steady hg hd (hsteady _ (.here hg))
        obtain ⟨e, e', ht, ht', -⟩ | ⟨t, u, ht, ht', htu, hlexed⟩ :=
          @Abreast.lexAt _ _ _ hgapped hrest hhead lx.cursor.position mx.cursor.position h.line
        · rw [lexToken_lexeme_error hg ha ht, lexToken_lexeme_error hg' hat ht']
          exact .inl ⟨_, _, rfl, rfl⟩
        · rw [lexToken_lexeme_ok hg ha ht, lexToken_lexeme_ok hg' hat ht']
          exact .inr ⟨_, _, rfl, rfl, htu, hlexed⟩
      | some cs =>
        rw [ha] at hat
        obtain ⟨f, f', ho, ho'⟩ | ⟨_, _, ho, ho', -, hstate⟩ := h.handleDirective hu hg ha hsteady
        · rw [lexToken_directive_error hg ha ho, lexToken_directive_error hg' hat ho']
          exact .inl ⟨_, _, rfl, rfl⟩
        · have hless : (lx.skipGap.2.handleDirective lx.cursor.position cs).state.unread < n := by
            rw [← hn]
            exact Nat.lt_of_lt_of_le
              (unread_handleDirective _ _ (Stable.directiveAt?_of_ahead ha)) lx.unread_skipGap_le
          have hlater := ih _ hless hstate (hu.handled ha)
            (fun place hcomes => hsteady place (.after hg ha ho hcomes)) rfl
          rw [lexToken_directive_ok hg ha ho, lexToken_directive_ok hg' hat ho']
          exact hlater

/-! ## whole readings -/

theorem Abreast.consumed (hc : lx.current = none) (hc' : mx.current = none) {p q : Peeked}
    (hlook : lx.lexToken.result = .ok p) (hlook' : mx.lexToken.result = .ok q)
    (h : Abreast source lx.lexToken.state mx.lexToken.state) :
    lx.peek.result = .ok p.token ∧ mx.peek.result = .ok q.token ∧
      Abreast source (lx.peek.state.consumed p.token) (mx.peek.state.consumed q.token) := by
  rw [peek_of_lexToken hc hlook, peek_of_lexToken hc' hlook']
  exact ⟨rfl, rfl, h.free, h.within, h.within', h.rest, h.line, h.preprocessor⟩

/-- All tokens with conditional compilation. -/
theorem Abreast.drain (h : Abreast source lx mx) {c : Conditional} (hb : lx.Between c)
    (hc : mx.current = none) (hsteady : ∀ place, lx.Visits place → place.Steady) :
    (∃ f f', lx.drain.result = .error f ∧ mx.drain.result = .error f') ∨
      ∃ ts us, lx.drain.result = .ok ts ∧ mx.drain.result = .ok us ∧
        us.map (Token.onLines id) = ts.map (Token.onLines Text.crlf) := by
  induction hn : lx.workLeft using Nat.strongRecOn generalizing lx mx with
  | ind n ih =>
    obtain ⟨f, f', hf, hf'⟩ | ⟨p, q, hp, hq, hpq, hstate⟩ :=
      h.lexToken hb.under fun place hcomes => hsteady place (.look hcomes)
    · have hpeek := congrArg Outcome.result (peek_of_error hb.current hf)
      have hpeek' := congrArg Outcome.result (peek_of_error hc hf')
      exact .inl ⟨f, f', drain_of_error hpeek, drain_of_error hpeek'⟩
    · obtain ⟨hok, hok', hnext⟩ := Abreast.consumed hb.current hc hp hq hstate
      cases hend : p.token.isEnd with
      | true =>
        have hend' := hpq.isEnd.trans hend
        exact .inr ⟨[], [], drain_of_end hok hend, drain_of_end hok' hend', rfl⟩
      | false =>
        have hend' := hpq.isEnd.trans hend
        have hless := workLeft_consumed hok hend
        rw [hn] at hless
        rw [drain_next hok hend, drain_next hok' hend']
        obtain ⟨f, f', hf, hf'⟩ | ⟨ts, us, hts, hus, hsame⟩ := ih _ hless hnext (hb.next hok) rfl
          (fun place hvisits => hsteady place (.next hok hend hvisits)) rfl
        · rw [hf, hf']
          exact .inl ⟨f, f', rfl, rfl⟩
        · rw [hts, hus]
          refine .inr ⟨_, _, rfl, rfl, ?_⟩
          rw [List.map_cons, List.map_cons, hsame, hpq.onLines]

/-- One look ahead without a preprocessor: the second lexer fails where the first one fails or finds a
token that goes over a line end. -/
theorem Abreast.lexToken_plain (h : Abreast source lx mx) (hp : lx.preprocessor = none) :
    (∃ f', mx.lexToken.result = .error f' ∧ ((∃ f, lx.lexToken.result = .error f) ∨
      ∃ p, lx.lexToken.result = .ok p ∧ p.token.isEnd = false ∧ '\n' ∈ p.token.value.toList)) ∨
    ∃ p q, lx.lexToken.result = .ok p ∧ mx.lexToken.result = .ok q ∧ p.token.Abreast q.token ∧
      Abreast source lx.lexToken.state mx.lexToken.state := by
  obtain ⟨hbroken, hgapped, hrest⟩ := h.skipGap
  have ha : lx.ahead = none := by
    unfold Lexer.ahead
    rw [hp]
    rfl
  have ha' : mx.ahead = none := by
    rw [h.ahead, ha]
    rfl
  cases hg : lx.skipGap.1 with
  | some e =>
    cases hg' : mx.skipGap.1 with
    | none =>
      rw [hbroken.1 hg'] at hg
      cases hg
    | some e' =>
      rw [lexToken_broken hg, lexToken_broken hg']
      exact .inl ⟨_, rfl, .inl ⟨_, rfl⟩⟩
  | none =>
    have hg' := hbroken.2 hg
    by_cases hhead : ∀ c cs, lx.skipGap.2.cursor.rest = c :: cs →
        c ≠ '\n' ∧ Lexeme.touchesLine c cs = false
    · obtain ⟨e, e', ht, ht', -⟩ | ⟨t, u, ht, ht', htu, hlexed⟩ :=
        @Abreast.lexAt _ _ _ hgapped hrest hhead lx.cursor.position mx.cursor.position h.line
      · rw [lexToken_lexeme_error hg ha ht, lexToken_lexeme_error hg' ha' ht']
        exact .inl ⟨_, rfl, .inl ⟨_, rfl⟩⟩
      · rw [lexToken_lexeme_ok hg ha ht, lexToken_lexeme_ok hg' ha' ht']
        exact .inr ⟨_, _, rfl, rfl, htu, hlexed⟩
    · -- a literal comes to the end of its line
      obtain ⟨c, cs, hcs, htouch⟩ : ∃ c cs, lx.skipGap.2.cursor.rest = c :: cs ∧
          Lexeme.touchesLine c cs ≠ false := by
        apply Classical.byContradiction
        intro hnone
        apply hhead
        intro c cs hcs
        refine ⟨head_skipGap hg hcs, Classical.byContradiction fun htouch => hnone ⟨c, cs, hcs, htouch⟩⟩
      have hc := head_skipGap hg hcs
      have hcs' : mx.skipGap.2.cursor.rest = c :: Text.crlf cs := by
        rw [hrest, hcs, Text.crlf_cons_of_ne hc]
      have hfailed : ∃ e', (mx.skipGap.2.lexAt mx.cursor.position).1 = .error e' := by
        cases hl : Lexeme.scan c (Text.crlf cs) with
        | ok l => exact absurd (Lexeme.touchesLine_of_crlf hl) htouch
        | error cause =>
          refine ⟨⟨cause, mx.skipGap.2.cursor.position⟩, ?_⟩
          unfold Lexer.lexAt
          simp only [hcs', hl]
      obtain ⟨e', ht'⟩ := hfailed
      rw [lexToken_lexeme_error hg' ha' ht']
      refine .inl ⟨_, rfl, ?_⟩
      cases ht : (lx.skipGap.2.lexAt lx.cursor.position).1 with
      | error e =>
        rw [lexToken_lexeme_error hg ha ht]
        exact .inl ⟨_, rfl⟩
      | ok t =>
        rw [lexToken_lexeme_ok hg ha ht]
        refine .inr ⟨_, rfl, ?_⟩
        obtain ⟨hnil, -, -⟩ | ⟨d, ds, l, hds, hl, rfl, -⟩ := lexAt_ok ht
        · rw [hcs] at hnil
          cases hnil
        · rw [hcs] at hds
          obtain ⟨rfl, rfl⟩ := List.cons.inj hds
          refine ⟨Lexeme.scan_kind hl, Classical.byContradiction fun hmem => htouch ?_⟩
          dsimp only at hmem
          rw [String.toList_ofList] at hmem
          exact Lexeme.touchesLine_of_ok hl hmem

/-- All tokens without a preprocessor: the second reading fails where the first one fails or has a
token that goes over a line end. -/
theorem Abreast.drain_plain (h : Abreast source lx mx) (hp : lx.preprocessor = none)
    (hc : lx.current = none) (hc' : mx.current = none) :
    (∃ f', mx.drain.result = .error f' ∧
      ∀ ts, lx.drain.result = .ok ts → ¬ ∀ t ∈ ts, '\n' ∉ t.value.toList) ∨
    ∃ ts us, lx.drain.result = .ok ts ∧ mx.drain.result = .ok us ∧
      (∀ t ∈ ts, '\n' ∉ t.value.toList) ∧
      us.map (Token.onLines id) = ts.map (Token.onLines Text.crlf) := by
  induction hn : lx.workLeft using Nat.strongRecOn generalizing lx mx with
  | ind n ih =>
    obtain ⟨f', hf', hlx⟩ | ⟨p, q, hlook, hlook', hpq, hstate⟩ := h.lexToken_plain hp
    · refine .inl ⟨f', drain_of_error (congrArg Outcome.result (peek_of_error hc' hf')), ?_⟩
      intro ts hts
      obtain ⟨f, hf⟩ | ⟨p, hlook, hend, hmem⟩ := hlx
      · have hpeek := congrArg Outcome.result (peek_of_error hc hf)
        rw [drain_of_error hpeek] at hts
        cases hts
      · have hok : lx.peek.result = .ok p.token := congrArg Outcome.result (peek_of_lexToken hc hlook)
        rw [drain_next hok hend] at hts
        cases hrec : (lx.peek.state.consumed p.token).drain.result with
        | error f =>
          rw [hrec] at hts
          cases hts
        | ok us =>
          rw [hrec] at hts
          obtain rfl : p.token :: us = ts := Except.ok.inj hts
          exact fun hall => hall p.token List.mem_cons_self hmem
    · obtain ⟨hok, hok', hnext⟩ := Abreast.consumed hc hc' hlook hlook' hstate
      cases hend : p.token.isEnd with
      | true =>
        have hend' := hpq.isEnd.trans hend
        exact .inr ⟨[], [], drain_of_end hok hend, drain_of_end hok' hend',
          fun t ht => absurd ht List.not_mem_nil, rfl⟩
      | false =>
        have hend' := hpq.isEnd.trans hend
        have hbare : (lx.peek.state.consumed p.token).preprocessor = none := by
          rw [peek_of_lexToken hc hlook]
          exact stable_bare.lexToken (stable_bare.gap hp)
        have hless := workLeft_consumed hok hend
        rw [hn] at hless
        rw [drain_next hok hend, drain_next hok' hend']
        obtain ⟨f', hf', hlx⟩ | ⟨ts, us, hts, hus, hlines, hsame⟩ := ih _ hless hnext hbare rfl rfl rfl
        · rw [hf']
          refine .inl ⟨f', rfl, ?_⟩
          intro ts hts
          cases hrec : (lx.peek.state.consumed p.token).drain.result with
          | error f =>
            rw [hrec] at hts
            cases hts
          | ok us =>
            rw [hrec] at hts
            obtain rfl : p.token :: us = ts := Except.ok.inj hts
            exact fun hall => hlx us hrec fun t ht => hall t (List.mem_cons_of_mem _ ht)
        · rw [hts, hus]
          refine .inr ⟨_, _, rfl, rfl, ?_, ?_⟩
          · intro t ht
            rcases List.mem_cons.1 ht with rfl | ht
            · exact hpq.line
            · exact hlines t ht
          · rw [List.map_cons, List.map_cons, hsame, hpq.onLines]

/-! ## sources that are steady everywhere -/

theorem Skim.Comes.within {start : Position} {x : Skim} {place : Lexer} (h : Skim.Comes start x place)
    (hin : x.lexer.cursor.Within source) : place.cursor.Within source := by
  induction h with
  | here => exact within_skipGap hin
  | later hstep _ ih =>
    have hlater := (stable_within source).step start (within_skipGap hin)
    rw [hstep] at hlater
    exact ih hlater

theorem Comes.within {place : Lexer} (h : lx.Comes place) (hin : lx.cursor.Within source) :
    place.cursor.Within source := by
  induction h with
  | here => exact within_skipGap hin
  | inside _ ha _ _ hskim =>
    exact hskim.within ((stable_within source).directive _ true (within_skipGap hin)
      (Stable.directiveAt?_of_ahead ha))
  | after _ ha _ _ ih =>
    exact ih ((stable_within source).handleDirective (within_skipGap hin) _ (Stable.directiveAt?_of_ahead ha))

theorem Visits.within {place : Lexer} (h : lx.Visits place) (hc : lx.current = none)
    (hin : lx.cursor.Within source) : place.cursor.Within source := by
  induction h with
  | look hcomes => exact hcomes.within hin
  | next hok _ _ ih =>
    refine ih rfl ?_
    obtain ⟨p, -, -, hstate⟩ := peek_fresh hc hok
    rw [hstate]
    exact (stable_within source).lexToken (within_skipGap hin)

end Lexer

theorem Text.byteLength_line_le {p : Char → Bool} {cs source : List Char} (h : cs <:+ source) :
    byteLength (cs.takeWhile p) ≤ byteLength source := by
  obtain ⟨before, rfl⟩ := h
  have hline := congrArg byteLength (@List.takeWhile_append_dropWhile _ p cs)
  rw [byteLength_append] at hline
  rw [byteLength_append]
  omega

/-- Without escaped line feeds, a string stays within a line that has room for it. -/
theorem Lexeme.stringTouches_of_short {used : Nat} {cs : List Char} (hescape : ¬ ['\\', '\n'] <:+: cs)
    (hshort : used + Text.byteLength (cs.takeWhile (· != '\n')) < maxText) :
    Lexeme.stringTouches used cs = false := by
  fun_induction stringTouches used cs with
  | case1 => rfl
  | case2 => rfl
  | case3 used hle cs =>
    rw [beq_eq_false_iff_ne]
    omega
  | case4 => rfl
  | case5 => rfl
  | case6 used hle c cs ih =>
    have hc : c ≠ '\n' := by
      rintro rfl
      exact hescape ⟨[], cs, rfl⟩
    rw [beq_false_of_ne hc, Bool.false_or]
    apply ih fun hin => hescape (List.infix_cons (List.infix_cons hin))
    have hsize : '\\'.utf8Size = 1 := by decide
    rw [List.takeWhile_cons_of_pos (by decide), List.takeWhile_cons_of_pos (by simpa using hc),
      Text.byteLength_cons, Text.byteLength_cons] at hshort
    omega
  | case7 used hle c cs hn hq hb hb' ih =>
    apply ih fun hin => hescape (List.infix_cons hin)
    rw [List.takeWhile_cons_of_pos (by simpa using hn), Text.byteLength_cons] at hshort
    omega

/-- Without escaped line feeds, the arguments of a directive stay within their line. -/
theorem DirectiveLine.arguments_of_plain {quoted : Bool} {cs : List Char}
    (hescape : ¬ ['\\', '\n'] <:+: cs) : '\n' ∉ (arguments quoted cs).1 := by
  fun_induction arguments quoted cs with
  | case1 => exact List.not_mem_nil
  | case2 => exact List.not_mem_nil
  | case3 => exact List.not_mem_nil
  | case4 => exact List.not_mem_nil
  | case5 cs => exact absurd ⟨[], cs, rfl⟩ hescape
  | case6 cs => exact absurd ⟨[], cs, rfl⟩ hescape
  | case7 c cs hc text rest lines heq ih =>
    have htext := ih fun hin => hescape (List.infix_cons (List.infix_cons hin))
    rw [heq] at htext
    have hn : c ≠ '\n' := by simpa using hc
    simp only [List.mem_cons, not_or]
    exact ⟨by decide, fun h => hn h.symm, htext⟩
  | case8 quoted c cs hn _ _ _ _ _ text rest lines heq ih =>
    have htext := ih fun hin => hescape (List.infix_cons hin)
    rw [heq] at htext
    simp only [List.mem_cons, not_or]
    exact ⟨fun h => hn h.symm, htext⟩

namespace Lexer

/-- A source without escaped line feeds whose lines have room for a string is steady everywhere. -/
theorem steady_of_plain {source : List Char} {place : Lexer} (hescape : ¬ ['\\', '\n'] <:+: source)
    (hshort : ∀ cs, cs <:+ source → Text.byteLength (cs.takeWhile (· != '\n')) < maxText)
    (hin : place.cursor.Within source) : place.Steady := by
  have hsuffix : place.cursor.rest <:+ source := ⟨place.cursor.before.reverse, hin.text⟩
  have hno : ∀ {cs : List Char}, cs <:+ place.cursor.rest → ¬ ['\\', '\n'] <:+: cs :=
    fun hcs h => hescape (h.trans (hcs.trans hsuffix).isInfix)
  constructor
  · intro cs hd
    obtain ⟨hrest, -⟩ := directiveAt?_eq_some.1 hd
    apply DirectiveLine.arguments_of_plain
    apply hno
    rw [hrest]
    exact ((List.dropWhile_suffix _).trans (List.dropWhile_suffix _)).trans (List.suffix_cons _ _)
  · intro _ c cs hrest
    have htail : cs <:+ place.cursor.rest := by
      rw [hrest]
      exact List.suffix_cons _ _
    unfold Lexeme.touchesLine
    split
    · unfold Lexeme.characterTouches
      split
      · next rest => exact absurd ⟨[], _, rfl⟩ (hno htail)
      · rfl
    · split
      · next hquote =>
        have hline := hshort _ hsuffix
        rw [hrest, hquote, List.takeWhile_cons_of_pos (by decide), Text.byteLength_cons] at hline
        exact Lexeme.stringTouches_of_short (hno htail) hline
      · rfl

end Lexer

/-- Two lexers at the beginning of the two sources. -/
theorem Lexer.abreast_ofSource {source turned : String} (hcr : '\r' ∉ source.toList)
    (h : turned.toList = Text.crlf source.toList) (preferences : LexicalPreferences)
    (p : Option Preprocessor) : Lexer.Abreast source.toList
      ((Lexer.ofSource source preferences).withPreprocessor p)
      ((Lexer.ofSource turned preferences).withPreprocessor p) where
  free := hcr
  within := Cursor.Within.ofText source.toList
  within' := h ▸ Cursor.Within.ofText turned.toList
  rest := .inl h
  line := rfl
  preprocessor := rfl

/-- Two results that are both failures or both agree. -/
theorem agree_iff {φ α : Type} {r r' : Except φ α} {S : α → α → Prop}
    (h : (∃ f f', r = .error f ∧ r' = .error f') ∨ ∃ a b, r = .ok a ∧ r' = .ok b ∧ S a b) :
    ((∃ b, r' = .ok b) ↔ ∃ a, r = .ok a) ∧ ∀ a b, r = .ok a → r' = .ok b → S a b := by
  obtain ⟨f, f', rfl, rfl⟩ | ⟨a, b, rfl, rfl, hab⟩ := h
  · refine ⟨iff_of_false ?_ ?_, ?_⟩
    · rintro ⟨b, hb⟩
      cases hb
    · rintro ⟨a, ha⟩
      cases ha
    · intro a b ha
      cases ha
  · refine ⟨iff_of_true ⟨b, rfl⟩ ⟨a, rfl⟩, ?_⟩
    intro a' b' ha hb
    obtain rfl := Except.ok.inj ha
    obtain rfl := Except.ok.inj hb
    exact hab

/-- The second result is there exactly when the first one is and has a property, and then they agree. -/
theorem agree_iff_of {φ α : Type} {r r' : Except φ α} {P : α → Prop} {S : α → α → Prop}
    (h : (∃ f, r' = .error f ∧ ∀ a, r = .ok a → ¬ P a) ∨
      ∃ a b, r = .ok a ∧ r' = .ok b ∧ P a ∧ S a b) :
    ((∃ b, r' = .ok b) ↔ ∃ a, r = .ok a ∧ P a) ∧ ∀ a b, r = .ok a → r' = .ok b → S a b := by
  obtain ⟨f, rfl, hno⟩ | ⟨a, b, rfl, rfl, hp, hab⟩ := h
  · refine ⟨iff_of_false ?_ ?_, ?_⟩
    · rintro ⟨b, hb⟩
      cases hb
    · rintro ⟨a, ha, hp⟩
      exact hno a ha hp
    · intro a b _ hb
      cases hb
  · refine ⟨iff_of_true ⟨b, rfl⟩ ⟨a, rfl, hp⟩, ?_⟩
    intro a' b' ha hb
    obtain rfl := Except.ok.inj ha
    obtain rfl := Except.ok.inj hb
    exact hab

/-- Reading a source and the same source with a carriage return before every line feed.  Without a
preprocessor the second reading is accepted exactly when the first one is and no token goes over a
line end; then both have the same tokens on the same lines.  With conditional compilation the two
readings agree if at no place that the first one comes to, a literal or a directive goes over the end
of its line. -/
theorem line_endings_iff {source : String} (hcr : '\r' ∉ source.toList)
    (preferences : LexicalPreferences) :
    let turned := String.ofList (Text.crlf source.toList)
    let start := (Lexer.ofSource source preferences).withPreprocessor
      (some (.conditional Conditional.standard))
    ((∃ us, (tokenize turned preferences).result = .ok us) ↔
      ∃ ts, (tokenize source preferences).result = .ok ts ∧ ∀ t ∈ ts, '\n' ∉ t.value.toList) ∧
    (∀ ts us, (tokenize source preferences).result = .ok ts →
      (tokenize turned preferences).result = .ok us →
      us.map (Token.onLines id) = ts.map (Token.onLines Text.crlf)) ∧
    ((∀ place, start.Visits place → place.Steady) →
      ((∃ us, (tokenizePreprocessed turned preferences).result = .ok us) ↔
        ∃ ts, (tokenizePreprocessed source preferences).result = .ok ts) ∧
      ∀ ts us, (tokenizePreprocessed source preferences).result = .ok ts →
        (tokenizePreprocessed turned preferences).result = .ok us →
        us.map (Token.onLines id) = ts.map (Token.onLines Text.crlf)) := by
  intro turned start
  have hturned : turned.toList = Text.crlf source.toList := String.toList_ofList
  clear_value turned
  have hbetween : start.Between Conditional.standard :=
    ⟨rfl, ⟨[], rfl⟩, fun _ h => absurd h List.not_mem_nil⟩
  obtain ⟨hiff, hsame⟩ := agree_iff_of
    ((Lexer.abreast_ofSource hcr hturned preferences none).drain_plain rfl rfl rfl)
  refine ⟨hiff, hsame, fun hsteady => agree_iff ?_⟩
  exact (Lexer.abreast_ofSource hcr hturned preferences _).drain hbetween rfl hsteady

/-- A literal without an end in a region that is left out, and a string over two lines. -/
theorem line_endings_sample :
    let source := "#if FOO\nit's \"so\n#endif\nint x; // c\n"
    let preferences : LexicalPreferences := ⟨true, false, false, true⟩
    let start := (Lexer.ofSource source preferences).withPreprocessor
      (some (.conditional Conditional.standard))
    '\r' ∉ source.toList ∧ (∀ place, start.Visits place → place.Steady) ∧
    (∃ us, (tokenizePreprocessed (String.ofList (Text.crlf source.toList)) preferences).result = .ok us ∧
      us.map (Token.onLines id) = [(.identifier, ['i', 'n', 't'], 4, 4), (.identifier, ['x'], 4, 4),
        (.symbol, [';'], 4, 4)]) ∧
    ¬ ∃ us, (tokenize (String.ofList (Text.crlf "\"a\\\nb\"".toList)) preferences).result = .ok us := by
  intro source preferences start
  have hsteady : ∀ place, start.Visits place → place.Steady := by
    intro place hvisits
    refine Lexer.steady_of_plain (by decide +kernel) ?_ (hvisits.within rfl (Cursor.Within.ofText source.toList))
    intro cs hcs
    exact Nat.lt_of_le_of_lt (Text.byteLength_line_le hcs) (by decide +kernel)
  have htokens : (tokenizePreprocessed source preferences).result = .ok
      [⟨.identifier, "int", ⟨24, 4⟩, ⟨24, 4⟩⟩, ⟨.identifier, "x", ⟨28, 4⟩, ⟨27, 4⟩⟩,
        ⟨.symbol, ";", ⟨29, 4⟩, ⟨29, 4⟩⟩] := ok_of_toOption (by decide +kernel)
  obtain ⟨hiff, hsame⟩ := (line_endings_iff (by decide +kernel) preferences).2.2 hsteady
  obtain ⟨us, hus⟩ := hiff.2 ⟨_, htokens⟩
  refine ⟨by decide +kernel, hsteady, ⟨us, hus, (hsame _ us htokens hus).trans (by decide +kernel)⟩, ?_⟩
  have hstring : (tokenize "\"a\\\nb\"" preferences).result
      = .ok [⟨.stringConst, "\"a\\\nb\"", ⟨0, 1⟩, ⟨0, 1⟩⟩] := ok_of_toOption (by decide +kernel)
  intro hturned
  obtain ⟨ts, hts, hlines⟩ := (line_endings_iff (by decide +kernel) preferences).1.1 hturned
  obtain rfl := Except.ok.inj (hstring.symm.trans hts)
  exact hlines _ List.mem_cons_self (by decide +kernel)

end HeaderLex
