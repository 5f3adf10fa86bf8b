import HeaderLex.Lexer.Operations
import HeaderLex.Proofs.DirectiveLine

/-!
# The steps of a look ahead

Equations for the search of the next token, one for each thing that can stand after a gap: a broken
gap, a directive, a lexeme or the end.  Later modules use them and do not open the definitions.

* `Lexer.ahead`              what stands after the gap at the cursor;
* `Lexer.lexToken_broken`, `lexToken_directive_ok`, `lexToken_lexeme_ok`   a look ahead in included text;
* `Lexer.scanExcluded_*`     a look ahead in an excluded region.
-/

namespace HeaderLex

theorem ok_of_toOption {ε α : Type} {x : Except ε α} {a : α} (h : x.toOption = some a) :
    x = .ok a := by
  cases x with
  | error e => cases h
  | ok b => exact congrArg Except.ok (Option.some.inj h)

theorem Conditional.step_congr {c : Conditional} {d e : Directive} {isIncluded : Bool}
    (hn : d.name = e.name) (ha : d.arguments = e.arguments) (hp : d.position = e.position) :
    c.step d isIncluded = c.step e isIncluded := by
  unfold step
  rw [hn, ha, hp]

namespace Lexer

/-! ## included text -/

theorem lexToken_of_inl {lx : Lexer} {o : Outcome Lexer Peeked} (h : lx.lexStep = .inl o) :
    lx.lexToken = o := by
  rw [lexToken]
  split <;> simp_all

theorem lexToken_of_inr {lx lx' : Lexer} {events : List Event}
    (h : lx.lexStep = .inr (lx', events)) : lx.lexToken = lx'.lexToken.after events := by
  rw [lexToken]
  split <;> simp_all

theorem lexToken_broken {lx : Lexer} {e : SourceError} (h : lx.skipGap.1 = some e) :
    lx.lexToken = lx.skipGap.2.refuse e := by
  apply lexToken_of_inl
  unfold lexStep
  simp only [h]

/-- The text after a gap is read as a directive only with a preprocessor. -/
def ahead (lx : Lexer) : Option (List Char) :=
  if lx.preprocessor.isSome then directiveAt? lx.skipGap.2.cursor else none

theorem ahead_of_bare {lx : Lexer} (hp : lx.preprocessor = none) : lx.ahead = none := by
  rw [ahead, hp]
  rfl

theorem lexToken_directive_ok {lx : Lexer} {rest : List Char} (hg : lx.skipGap.1 = none)
    (ha : lx.ahead = some rest)
    (ho : (lx.skipGap.2.handleDirective lx.cursor.position rest).result = .ok ()) :
    lx.lexToken = (lx.skipGap.2.handleDirective lx.cursor.position rest).state.lexToken.after
      (lx.skipGap.2.handleDirective lx.cursor.position rest).events := by
  apply lexToken_of_inr
  have ha' : (if lx.skipGap.2.preprocessor.isSome then directiveAt? lx.skipGap.2.cursor else none)
      = some rest := ha
  unfold lexStep
  simp only [hg, ha', ho]

theorem lexToken_directive_error {lx : Lexer} {rest : List Char} {f : Failure}
    (hg : lx.skipGap.1 = none) (ha : lx.ahead = some rest)
    (ho : (lx.skipGap.2.handleDirective lx.cursor.position rest).result = .error f) :
    lx.lexToken = ⟨.error f, (lx.skipGap.2.handleDirective lx.cursor.position rest).state,
      (lx.skipGap.2.handleDirective lx.cursor.position rest).events⟩ := by
  apply lexToken_of_inl
  have ha' : (if lx.skipGap.2.preprocessor.isSome then directiveAt? lx.skipGap.2.cursor else none)
      = some rest := ha
  unfold lexStep
  simp only [hg, ha', ho]

theorem lexToken_lexeme_ok {lx : Lexer} {t : Token} (hg : lx.skipGap.1 = none)
    (ha : lx.ahead = none) (ht : (lx.skipGap.2.lexAt lx.cursor.position).1 = .ok t) :
    lx.lexToken = .ok ⟨t, lx.cursor⟩ (lx.skipGap.2.lexAt lx.cursor.position).2 := by
  apply lexToken_of_inl
  have ha' : (if lx.skipGap.2.preprocessor.isSome then directiveAt? lx.skipGap.2.cursor else none)
      = none := ha
  unfold lexStep
  simp only [hg, ha', ht]

theorem lexToken_lexeme_error {lx : Lexer} {e : SourceError} (hg : lx.skipGap.1 = none)
    (ha : lx.ahead = none) (ht : (lx.skipGap.2.lexAt lx.cursor.position).1 = .error e) :
    lx.lexToken = lx.skipGap.2.refuse e := by
  apply lexToken_of_inl
  have ha' : (if lx.skipGap.2.preprocessor.isSome then directiveAt? lx.skipGap.2.cursor else none)
      = none := ha
  unfold lexStep
  simp only [hg, ha', ht, (lexAt_error ht).1]

/-- A token is found in one of two ways: it stands after the gap, or after a directive that was
handled without failure. -/
theorem lexToken_ok {lx : Lexer} {p : Peeked} (h : lx.lexToken.result = .ok p) :
    lx.skipGap.1 = none ∧
    ((lx.ahead = none ∧ p.origin = lx.cursor ∧
        (lx.skipGap.2.lexAt lx.cursor.position).1 = .ok p.token ∧
        lx.lexToken.state = (lx.skipGap.2.lexAt lx.cursor.position).2) ∨
      ∃ rest, lx.ahead = some rest ∧
        (lx.skipGap.2.handleDirective lx.cursor.position rest).result = .ok () ∧
        (lx.skipGap.2.handleDirective lx.cursor.position rest).state.lexToken.result = .ok p ∧
        lx.lexToken.state
          = (lx.skipGap.2.handleDirective lx.cursor.position rest).state.lexToken.state) := by
  cases hg : lx.skipGap.1 with
  | some e =>
    rw [lexToken_broken hg] at h
    cases h
  | none =>
    refine ⟨rfl, ?_⟩
    cases ha : lx.ahead with
    | none =>
      cases ht : (lx.skipGap.2.lexAt lx.cursor.position).1 with
      | error e =>
        rw [lexToken_lexeme_error hg ha ht] at h
        cases h
      | ok t =>
        rw [lexToken_lexeme_ok hg ha ht] at h ⊢
        obtain rfl : (⟨t, lx.cursor⟩ : Peeked) = p := Except.ok.inj h
        exact .inl ⟨rfl, rfl, rfl, rfl⟩
    | some rest =>
      cases ho : (lx.skipGap.2.handleDirective lx.cursor.position rest).result with
      | error f =>
        rw [lexToken_directive_error hg ha ho] at h
        cases h
      | ok u =>
        rw [lexToken_directive_ok hg ha ho] at h ⊢
        exact .inr ⟨rest, rfl, ho, h, rfl⟩

/-! ## where a look ahead began does not matter -/

/-- A preprocessor is asked about the name, the arguments and the place of a directive. -/
theorem askPreprocessor_congr {lx : Lexer} {d e : Directive} {isIncluded : Bool}
    (hn : d.name = e.name) (ha : d.arguments = e.arguments) (hp : d.position = e.position) :
    lx.askPreprocessor d isIncluded = lx.askPreprocessor e isIncluded := by
  unfold askPreprocessor
  cases lx.preprocessor with
  | none => rfl
  | some p =>
    cases p with
    | conditional c =>
      simp only [Preprocessor.answer, Conditional.answer, Conditional.step_congr hn ha hp, hn]
    | scripted s => simp only [Preprocessor.answer, Script.answer, hn, ha, hp]

/-- The verdict on the directive whose symbol stands at the cursor, and the lexer after it. -/
def verdictAt (lx : Lexer) (unget : Position) (rest : List Char) (isIncluded : Bool) :
    Except SourceError Verdict × Lexer :=
  (lx.readDirective unget rest).2.askPreprocessor (lx.readDirective unget rest).1 isIncluded

theorem verdictAt_unget (lx : Lexer) (u v : Position) (rest : List Char) (isIncluded : Bool) :
    lx.verdictAt u rest isIncluded = lx.verdictAt v rest isIncluded := by
  show (lx.readDirective v rest).2.askPreprocessor (lx.readDirective u rest).1 isIncluded = _
  exact askPreprocessor_congr rfl rfl rfl

theorem directiveAt?_eq_some {c : Cursor} {rest : List Char} :
    directiveAt? c = some rest ↔ c.rest = '#' :: rest ∧ c.atLineStart = true := by
  unfold directiveAt?
  split
  · next cs hr =>
    rw [hr]
    split
    · next hl => simp [hl]
    · next hl => simp [hl]
  · next hne =>
    constructor
    · intro h
      cases h
    · intro h
      exact absurd h.1 (hne rest)

/-- Reading a directive steps over its symbol and its line. -/
theorem cursor_verdictAt (lx : Lexer) (unget : Position) (rest : List Char) (isIncluded : Bool) :
    (lx.verdictAt unget rest isIncluded).2.cursor = lx.cursor.advance
      ('#' :: DirectiveLine.taken rest) (DirectiveLine.left rest)
      (Text.newlines (DirectiveLine.taken rest)) := by
  have hread : (lx.readDirective unget rest).2.cursor = lx.cursor.advance
      ('#' :: DirectiveLine.taken rest) (DirectiveLine.left rest)
      (Text.newlines (DirectiveLine.taken rest)) := by
    show (DirectiveLine.read ⟨.symbol, "#", lx.cursor.position, unget⟩
      (lx.cursor.advance ['#'] rest 0)).2 = _
    rw [DirectiveLine.read_eq]
    show (lx.cursor.advance ['#'] rest 0).advance _ _ _ = _
    rw [Cursor.advance_advance, Nat.zero_add]
    rfl
  rw [← hread]
  unfold verdictAt askPreprocessor
  split <;> rfl

/-- The directive that is read after a `#`. -/
def directiveOf (place unget : Position) (rest : List Char) : Directive :=
  ⟨⟨.symbol, "#", place, unget⟩, String.ofList (DirectiveLine.nameOf rest),
    String.ofList (Text.trim (DirectiveLine.argumentsOf rest))⟩

theorem readDirective_fst (lx : Lexer) (unget : Position) (rest : List Char) :
    (lx.readDirective unget rest).1 = directiveOf lx.cursor.position unget rest := by
  show (DirectiveLine.read ⟨.symbol, "#", lx.cursor.position, unget⟩
    (lx.cursor.advance ['#'] rest 0)).1 = _
  rw [DirectiveLine.read_eq]
  rfl

/-- The verdict of conditional compilation: the open conditionals after the directive decide. -/
theorem verdictAt_conditional {lx : Lexer} {c : Conditional}
    (hp : lx.preprocessor = some (.conditional c)) (unget : Position) (rest : List Char)
    (isIncluded : Bool) :
    (∃ stack, c.step (directiveOf lx.cursor.position unget rest) isIncluded = .ok stack ∧
      (lx.verdictAt unget rest isIncluded).1 = .ok ⟨Conditional.effective stack,
        !Conditional.passive.contains (String.ofList (DirectiveLine.nameOf rest))⟩ ∧
      (lx.verdictAt unget rest isIncluded).2.preprocessor
        = some (.conditional { c with stack })) ∨
    ∃ e, c.step (directiveOf lx.cursor.position unget rest) isIncluded = .error e ∧
      (lx.verdictAt unget rest isIncluded).1 = .error e ∧
      (lx.verdictAt unget rest isIncluded).2.preprocessor = some (.conditional c) := by
  have hp' : (lx.readDirective unget rest).2.preprocessor = some (.conditional c) := hp
  unfold verdictAt askPreprocessor
  rw [readDirective_fst]
  simp only [hp', Preprocessor.answer, Conditional.answer]
  cases hs : c.step (directiveOf lx.cursor.position unget rest) isIncluded with
  | ok stack => exact .inl ⟨stack, rfl, rfl, rfl⟩
  | error e => exact .inr ⟨e, rfl, rfl, rfl⟩

/-- The lexer after a verdict, which may drop the comments before the directive. -/
def settle (lx : Lexer) (verdict : Verdict) : Lexer :=
  { lx with comments := if verdict.clearComments then lx.comments.clearPending else lx.comments }

theorem handleDirective_eq (lx : Lexer) (unget : Position) (rest : List Char) :
    lx.handleDirective unget rest = match (lx.verdictAt unget rest true).1 with
      | .error e => (lx.verdictAt unget rest true).2.refuse e
      | .ok verdict =>
        let lx' := (lx.verdictAt unget rest true).2.settle verdict
        if verdict.region.isIncluded then .ok () lx'
        else lx'.skipExcluded verdict.region lx.cursor.position := by
  unfold handleDirective
  show (match (lx.verdictAt unget rest true).1 with
    | .error e => (lx.verdictAt unget rest true).2.refuse e
    | .ok verdict => _) = _
  cases (lx.verdictAt unget rest true).1 with
  | error e => rfl
  | ok verdict =>
    obtain ⟨region, clear⟩ := verdict
    cases clear <;> rfl

theorem handleDirective_unget (lx : Lexer) (u v : Position) (rest : List Char) :
    lx.handleDirective u rest = lx.handleDirective v rest := by
  rw [handleDirective_eq, handleDirective_eq, verdictAt_unget lx u v]

/-! ## excluded regions -/

theorem scanExcluded_of_inl {start : Position} {x : Skim} {o : Outcome Lexer Unit}
    (h : x.step start = .inl o) : scanExcluded start x = o := by
  rw [scanExcluded]
  split <;> simp_all

theorem scanExcluded_of_inr {start : Position} {x y : Skim} (h : x.step start = .inr y) :
    scanExcluded start x = scanExcluded start y := by
  rw [scanExcluded]
  split <;> simp_all

namespace Skim

variable {start : Position} {x : Skim}

theorem step_broken {e : SourceError} (hg : x.lexer.skipGap.1 = some e) :
    x.step start = .inl (x.lexer.skipGap.2.refuseInside e) := by
  unfold step
  simp only [hg]

theorem step_directive_ok {rest : List Char} {verdict : Verdict} (hg : x.lexer.skipGap.1 = none)
    (hd : directiveAt? x.lexer.skipGap.2.cursor = some rest)
    (hv : (x.lexer.skipGap.2.verdictAt x.lexer.cursor.position rest false).1 = .ok verdict) :
    x.step start = x.turn (x.lexer.skipGap.2.verdictAt x.lexer.cursor.position rest false).2
      verdict.region := by
  unfold verdictAt at hv ⊢
  unfold step
  simp only [hg, hd, hv]

theorem step_directive_error {rest : List Char} {e : SourceError} (hg : x.lexer.skipGap.1 = none)
    (hd : directiveAt? x.lexer.skipGap.2.cursor = some rest)
    (hv : (x.lexer.skipGap.2.verdictAt x.lexer.cursor.position rest false).1 = .error e) :
    x.step start
      = .inl ((x.lexer.skipGap.2.verdictAt x.lexer.cursor.position rest false).2.refuseInside e) := by
  unfold verdictAt at hv ⊢
  unfold step
  simp only [hg, hd, hv]

theorem step_lexeme_error {e : SourceError} (hg : x.lexer.skipGap.1 = none)
    (hd : directiveAt? x.lexer.skipGap.2.cursor = none)
    (ht : (x.lexer.skipGap.2.lexAt x.lexer.cursor.position).1 = .error e) :
    x.step start = if isUnclosedLiteral e.cause then
        .inr { x with lexer := x.lexer.skipGap.2.skipLine }
      else .inl (x.lexer.skipGap.2.refuseInside e) := by
  unfold step
  simp only [hg, hd, ht]

theorem step_lexeme_ok {t : Token} (hg : x.lexer.skipGap.1 = none)
    (hd : directiveAt? x.lexer.skipGap.2.cursor = none)
    (ht : (x.lexer.skipGap.2.lexAt x.lexer.cursor.position).1 = .ok t) (hend : t.isEnd = false) :
    x.step start = x.look (x.lexer.skipGap.2.lexAt x.lexer.cursor.position).2 t := by
  unfold step
  simp only [hg, hd, ht, hend, Bool.false_eq_true, if_false]

theorem step_end {t : Token} (hg : x.lexer.skipGap.1 = none)
    (hd : directiveAt? x.lexer.skipGap.2.cursor = none)
    (ht : (x.lexer.skipGap.2.lexAt x.lexer.cursor.position).1 = .ok t) (hend : t.isEnd = true) :
    x.step start = .inl (x.lexer.skipGap.2.refuseInside
      ⟨.invalidDirective "end of file inside a preprocessor-excluded region", start⟩) := by
  unfold step
  simp only [hg, hd, ht, hend, if_true]

/-- A step that ends the region ends it with an error, or without a result or an event. -/
theorem step_inl {o : Outcome Lexer Unit} (h : x.step start = .inl o) :
    (∃ (lx : Lexer) (e : SourceError), o = lx.refuseInside e) ∨ ∃ lx, o = .ok () lx := by
  cases hg : x.lexer.skipGap.1 with
  | some e =>
    rw [step_broken hg] at h
    cases h
    exact .inl ⟨_, e, rfl⟩
  | none =>
    cases hd : directiveAt? x.lexer.skipGap.2.cursor with
    | some rest =>
      cases hv : (x.lexer.skipGap.2.verdictAt x.lexer.cursor.position rest false).1 with
      | error e =>
        rw [step_directive_error hg hd hv] at h
        cases h
        exact .inl ⟨_, e, rfl⟩
      | ok verdict =>
        rw [step_directive_ok hg hd hv] at h
        unfold turn at h
        split at h <;> cases h
        exact .inr ⟨_, rfl⟩
    | none =>
      cases ht : (x.lexer.skipGap.2.lexAt x.lexer.cursor.position).1 with
      | error e =>
        rw [step_lexeme_error hg hd ht] at h
        split at h <;> cases h
        exact .inl ⟨_, e, rfl⟩
      | ok t =>
        cases hend : t.isEnd with
        | true =>
          rw [step_end hg hd ht hend] at h
          cases h
          exact .inl ⟨_, _, rfl⟩
        | false =>
          rw [step_lexeme_ok hg hd ht hend] at h
          unfold look at h
          split at h
          · split at h <;> cases h
            exact .inl ⟨_, _, rfl⟩
          · cases h

/-- An excluded region ends in one way: with a directive that includes what follows. -/
theorem step_inl_ok {o : Outcome Lexer Unit} (h : x.step start = .inl o) (ho : o.result = .ok ()) :
    ∃ rest verdict, x.lexer.skipGap.1 = none ∧
      directiveAt? x.lexer.skipGap.2.cursor = some rest ∧
      (x.lexer.skipGap.2.verdictAt x.lexer.cursor.position rest false).1 = .ok verdict ∧
      verdict.region = .included ∧
      o.state = (x.lexer.skipGap.2.verdictAt x.lexer.cursor.position rest false).2 := by
  cases hg : x.lexer.skipGap.1 with
  | some e =>
    rw [step_broken hg] at h
    cases h
    cases ho
  | none =>
    cases hd : directiveAt? x.lexer.skipGap.2.cursor with
    | some rest =>
      cases hv : (x.lexer.skipGap.2.verdictAt x.lexer.cursor.position rest false).1 with
      | error e =>
        rw [step_directive_error hg hd hv] at h
        cases h
        cases ho
      | ok verdict =>
        rw [step_directive_ok hg hd hv] at h
        cases hr : verdict.region with
        | included =>
          rw [hr] at h
          cases h
          exact ⟨rest, verdict, rfl, rfl, hv, hr, rfl⟩
        | scanned =>
          rw [hr] at h
          cases h
        | silent =>
          rw [hr] at h
          cases h
    | none =>
      cases ht : (x.lexer.skipGap.2.lexAt x.lexer.cursor.position).1 with
      | error e =>
        rw [step_lexeme_error hg hd ht] at h
        split at h
        · cases h
        · cases h
          cases ho
      | ok t =>
        cases hend : t.isEnd with
        | true =>
          rw [step_end hg hd ht hend] at h
          cases h
          cases ho
        | false =>
          rw [step_lexeme_ok hg hd ht hend] at h
          unfold look at h
          split at h
          · split at h
            · cases h
              cases ho
            · cases h
          · cases h

end Skim

/-! ## looking at a token and consuming it -/

theorem peek_of_current {lx : Lexer} {p : Peeked} (hc : lx.current = some p) :
    lx.peek = .ok p.token lx := by
  unfold peek
  simp only [hc]

theorem peek_of_lexToken {lx : Lexer} (hc : lx.current = none) {p : Peeked}
    (h : lx.lexToken.result = .ok p) :
    lx.peek = ⟨.ok p.token, { lx.lexToken.state with current := some p }, lx.lexToken.events⟩ := by
  unfold peek
  simp only [hc, h]

theorem peek_of_error {lx : Lexer} (hc : lx.current = none) {f : Failure}
    (h : lx.lexToken.result = .error f) :
    lx.peek = ⟨.error f, lx.lexToken.state, lx.lexToken.events⟩ := by
  unfold peek
  simp only [hc, h]

/-- A token that was not looked at before is the next one. -/
theorem peek_fresh {lx : Lexer} (hc : lx.current = none) {t : Token} (h : lx.peek.result = .ok t) :
    ∃ p, lx.lexToken.result = .ok p ∧ p.token = t ∧
      lx.peek.state = { lx.lexToken.state with current := some p } := by
  cases hr : lx.lexToken.result with
  | error f =>
    rw [peek_of_error hc hr] at h
    cases h
  | ok p =>
    rw [peek_of_lexToken hc hr] at h ⊢
    exact ⟨p, rfl, Except.ok.inj h, rfl⟩

/-- Reading all tokens reads one, and then the rest unless it was the end mark. -/
theorem drain_ok {lx : Lexer} {tokens : List Token} (h : lx.drain.result = .ok tokens) :
    ∃ t, lx.peek.result = .ok t ∧ ((t.isEnd = true ∧ tokens = []) ∨
      ∃ ts, t.isEnd = false ∧ (lx.peek.state.consumed t).drain.result = .ok ts ∧
        tokens = t :: ts) := by
  rw [drain] at h
  split at h
  · cases h
  · next t ht =>
    refine ⟨t, ht, ?_⟩
    split at h
    · next hend => exact .inl ⟨hend, (Except.ok.inj h).symm⟩
    · next hend =>
      have hend : t.isEnd = false := by simpa using hend
      dsimp only at h
      cases hr : (lx.peek.state.consumed t).drain.result with
      | error f =>
        rw [hr] at h
        cases h
      | ok ts =>
        rw [hr] at h
        exact .inr ⟨ts, hend, rfl, (Except.ok.inj h).symm⟩

theorem peek_lexeme {lx : Lexer} {t : Token} (hc : lx.current = none) (hg : lx.skipGap.1 = none)
    (ha : lx.ahead = none) (ht : (lx.skipGap.2.lexAt lx.cursor.position).1 = .ok t) :
    lx.peek.result = .ok t ∧
      lx.peek.state = { (lx.skipGap.2.lexAt lx.cursor.position).2 with
        current := some ⟨t, lx.cursor⟩ } := by
  have hl := lexToken_lexeme_ok hg ha ht
  have hp : lx.lexToken.result = .ok ⟨t, lx.cursor⟩ := by
    rw [hl]
    rfl
  rw [peek_of_lexToken hc hp, hl]
  exact ⟨rfl, rfl⟩

theorem drain_of_end {lx : Lexer} {t : Token} (h : lx.peek.result = .ok t) (ht : t.isEnd = true) :
    lx.drain.result = .ok [] := by
  rw [drain]
  split
  · next f hf =>
    rw [h] at hf
    cases hf
  · next u hu =>
    obtain rfl : t = u := Except.ok.inj (h.symm.trans hu)
    rw [dif_pos ht]

theorem drain_state_of_end {lx : Lexer} {t : Token} (h : lx.peek.result = .ok t) (ht : t.isEnd = true) :
    lx.drain.state = lx.peek.state.consumed t := by
  rw [drain]
  split
  · next f hf =>
    rw [h] at hf
    cases hf
  · next u hu =>
    obtain rfl : t = u := Except.ok.inj (h.symm.trans hu)
    rw [dif_pos ht]

theorem drain_state_next {lx : Lexer} {t : Token} (h : lx.peek.result = .ok t)
    (ht : t.isEnd = false) :
    lx.drain.state = (lx.peek.state.consumed t).drain.state := by
  rw [drain]
  split
  · next f hf =>
    rw [h] at hf
    cases hf
  · next u hu =>
    obtain rfl : t = u := Except.ok.inj (h.symm.trans hu)
    rw [dif_neg (by rw [ht]; decide)]

theorem drain_of_error {lx : Lexer} {f : Failure} (h : lx.peek.result = .error f) : lx.drain.result = .error f := by
  rw [drain]
  split
  · next g hg =>
    rw [h] at hg
    rw [Except.error.inj hg]
  · next t ht =>
    rw [h] at ht
    cases ht

theorem drain_state_of_error {lx : Lexer} {f : Failure} (h : lx.peek.result = .error f) :
    lx.drain.state = lx.peek.state := by
  rw [drain]
  split
  · rfl
  · next t ht =>
    rw [h] at ht
    cases ht

theorem drain_next {lx : Lexer} {t : Token} (h : lx.peek.result = .ok t) (ht : t.isEnd = false) :
    lx.drain.result = (lx.peek.state.consumed t).drain.result.map (t :: ·) := by
  rw [drain]
  split
  · next f hf =>
    rw [h] at hf
    cases hf
  · next u hu =>
    obtain rfl : t = u := Except.ok.inj (h.symm.trans hu)
    rw [dif_neg (by rw [ht]; decide)]

theorem drain_of_token {lx : Lexer} {t : Token} {ts : List Token} (h : lx.peek.result = .ok t)
    (ht : t.isEnd = false) (hd : (lx.peek.state.consumed t).drain.result = .ok ts) :
    lx.drain.result = .ok (t :: ts) := by
  rw [drain_next h ht, hd]
  rfl

end Lexer

end HeaderLex
