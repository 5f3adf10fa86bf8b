import HeaderLex.Proofs.Run

/-!
# Excluded regions and what is delivered

A token is delivered under open conditionals that all include it, as long as no look ahead gave up
inside an excluded region: a failure leaves the region open, and the next look ahead reads on in it.

* `Lexer.frames`             the open conditionals;
* `Under.lexToken_iff`       the conditionals under which a token is found;
* `Sheltered`                the invariant of runs, and `Lexer.FailsInside`, what breaks it;
* `look_under_exclusion_iff`   when exactly a token is delivered under an exclusion.
-/

namespace HeaderLex

/-- All open conditionals include the text. -/
def AllIncluded (stack : List Frame) : Prop := ∀ frame ∈ stack, frame.region = .included

instance (stack : List Frame) : Decidable (AllIncluded stack) :=
  inferInstanceAs (Decidable (∀ frame ∈ stack, frame.region = .included))

theorem Conditional.effective_eq_included (stack : List Frame) :
    effective stack = .included ↔ AllIncluded stack := by
  induction stack with
  | nil => exact ⟨fun _ _ hf => absurd hf List.not_mem_nil, fun _ => rfl⟩
  | cons frame outer ih =>
    have hcons : AllIncluded (frame :: outer) ↔ frame.region = .included ∧ AllIncluded outer :=
      List.forall_mem_cons
    rw [hcons, ← ih, effective]
    cases he : effective outer with
    | included => simp [Region.isIncluded]
    | scanned => simp [Region.isIncluded]
    | silent => simp [Region.isIncluded]

namespace Lexer

/-- The open conditionals, innermost first. -/
def frames (lx : Lexer) : List Frame :=
  match lx.preprocessor with
  | some (.conditional c) => c.stack
  | _ => []

theorem frames_eq {lx : Lexer} {c : Conditional} (h : lx.preprocessor = some (.conditional c)) :
    lx.frames = c.stack := by
  unfold frames
  rw [h]

/-- Conditional compilation as `c` has it, apart from the open conditionals. -/
def Under (c : Conditional) (lx : Lexer) : Prop :=
  ∃ stack, lx.preprocessor = some (.conditional { c with stack })

/-- A look ahead makes no preprocessor. -/
theorem stable_bare : Stable (fun lx => lx.preprocessor = none) where
  gap h := h
  lexeme {lx} unget h := (preprocessor_lexAt lx unget).trans h
  directive {lx} unget {rest} isIncluded h _ := by
    have hread : (lx.readDirective unget rest).2.preprocessor = none := h
    unfold verdictAt askPreprocessor
    rw [hread]
    exact hread
  line {lx} h := (preprocessor_skipLine lx).trans h
  notes _ _ h := h

/-- A look ahead changes nothing of conditional compilation but the open conditionals. -/
theorem stable_under (c : Conditional) : Stable (Under c) where
  gap h := h
  lexeme {lx} unget h := by
    obtain ⟨stack, hp⟩ := h
    exact ⟨stack, (preprocessor_lexAt lx unget).trans hp⟩
  directive {lx} unget {rest} isIncluded h _ := by
    obtain ⟨stack, hp⟩ := h
    obtain ⟨stack', -, -, hp'⟩ | ⟨e, -, -, hp'⟩ := verdictAt_conditional hp unget rest isIncluded
    · exact ⟨stack', hp'⟩
    · exact ⟨stack, hp'⟩
  line {lx} h := by
    obtain ⟨stack, hp⟩ := h
    exact ⟨stack, (preprocessor_skipLine lx).trans hp⟩
  notes _ _ h := h

/-! ## what a handled directive leaves -/

/-- A verdict includes the text when all open conditionals do. -/
theorem Under.verdict_iff {c : Conditional} {lx : Lexer} (h : lx.Under c) {unget : Position}
    {rest : List Char} {isIncluded : Bool} {verdict : Verdict}
    (hv : (lx.verdictAt unget rest isIncluded).1 = .ok verdict) :
    verdict.region = .included ↔ AllIncluded (lx.verdictAt unget rest isIncluded).2.frames := by
  obtain ⟨stack, hp⟩ := h
  obtain ⟨stack', -, hv', hp'⟩ | ⟨e, -, hv', -⟩ := verdictAt_conditional hp unget rest isIncluded
  · rw [hv'] at hv
    obtain rfl := Except.ok.inj hv
    rw [frames_eq hp']
    exact Conditional.effective_eq_included stack'
  · rw [hv'] at hv
    cases hv

/-- An excluded region is left without failure where all open conditionals include the text. -/
theorem Under.scanExcluded {c : Conditional} {start : Position} {x : Skim} (h : x.lexer.Under c)
    (hok : (Lexer.scanExcluded start x).result = .ok ()) :
    AllIncluded (Lexer.scanExcluded start x).state.frames := by
  fun_induction Lexer.scanExcluded start x with
  | case1 x o ho =>
    obtain ⟨rest, verdict, -, -, hv, hr, hstate⟩ := Skim.step_inl_ok ho hok
    rw [hstate]
    exact (Under.verdict_iff ((stable_under c).gap h) hv).1 hr
  | case2 x y hy ih =>
    have hstep := (stable_under c).step start ((stable_under c).gap h)
    rw [hy] at hstep
    exact ih hstep hok

/-- So is a directive, with the region after it. -/
theorem Under.handleDirective {c : Conditional} {lx : Lexer} (h : lx.Under c) {unget : Position}
    {rest : List Char} (hd : directiveAt? lx.cursor = some rest)
    (hok : (lx.handleDirective unget rest).result = .ok ()) :
    AllIncluded (lx.handleDirective unget rest).state.frames := by
  have hdir := (stable_under c).directive unget true h hd
  rw [handleDirective_eq] at hok ⊢
  cases hv : (lx.verdictAt unget rest true).1 with
  | error e =>
    rw [hv] at hok
    cases hok
  | ok verdict =>
    rw [hv] at hok
    dsimp only at hok ⊢
    cases hr : verdict.region with
    | included => exact (h.verdict_iff hv).1 hr
    | scanned =>
      rw [hr] at hok
      exact Under.scanExcluded hdir hok
    | silent =>
      rw [hr] at hok
      exact Under.scanExcluded hdir hok

/-! ## under which conditionals a token is found -/

theorem frames_lexAt (lx : Lexer) (unget : Position) : (lx.lexAt unget).2.frames = lx.frames := by
  unfold frames
  rw [preprocessor_lexAt]

theorem Under.handled {c : Conditional} {lx : Lexer} (h : lx.Under c) {rest : List Char}
    (ha : lx.ahead = some rest) :
    (lx.skipGap.2.handleDirective lx.cursor.position rest).state.Under c :=
  (stable_under c).handleDirective ((stable_under c).gap h) _ (Stable.directiveAt?_of_ahead ha)

/-- Included text is left for included text only. -/
theorem Under.lexToken {c : Conditional} {lx : Lexer} (h : lx.Under c) {p : Peeked}
    (hok : lx.lexToken.result = .ok p) (hin : AllIncluded lx.frames) :
    AllIncluded lx.lexToken.state.frames := by
  induction hok using found_induction with
  | lexeme lx _ _ _ _ _ hstate =>
    rw [hstate, frames_lexAt]
    exact hin
  | directive lx rest _ _ _ ha hd hstate ih =>
    rw [hstate]
    exact ih (h.handled ha)
      (Under.handleDirective ((stable_under c).gap h) (Stable.directiveAt?_of_ahead ha) hd)

/-- A token is found under including conditionals when the look ahead began there, or met a
directive on its way. -/
theorem Under.lexToken_iff {c : Conditional} {lx : Lexer} (h : lx.Under c) {p : Peeked}
    (hok : lx.lexToken.result = .ok p) :
    AllIncluded lx.lexToken.state.frames ↔ AllIncluded lx.frames ∨ lx.ahead ≠ none := by
  obtain ⟨-, ⟨ha, -, -, hstate⟩ | ⟨rest, ha, hd, hrec, hstate⟩⟩ := lexToken_ok hok
  · rw [hstate, frames_lexAt, ha]
    exact ⟨.inl, fun h => h.resolve_right fun hne => hne rfl⟩
  · have hframes := Under.handleDirective ((stable_under c).gap h) (Stable.directiveAt?_of_ahead ha) hd
    have hafter := (h.handled ha).lexToken hrec hframes
    rw [hstate, ha]
    exact ⟨fun _ => .inr (Option.some_ne_none rest), fun _ => hafter⟩

theorem Under.peek_iff {c : Conditional} {lx : Lexer} (h : lx.Under c) {t : Token}
    (hok : lx.peek.result = .ok t) : AllIncluded lx.peek.state.frames ↔
      AllIncluded lx.frames ∨ (lx.current = none ∧ lx.ahead ≠ none) := by
  cases hc : lx.current with
  | none =>
    obtain ⟨p, hp, -, hstate⟩ := peek_fresh hc hok
    have hframes : lx.peek.state.frames = lx.lexToken.state.frames := by
      rw [hstate]
      rfl
    rw [hframes, h.lexToken_iff hp]
    exact or_congr_right ⟨fun ha => ⟨rfl, ha⟩, And.right⟩
  | some p =>
    rw [peek_of_current hc]
    exact ⟨.inl, fun h => h.resolve_right fun hx => Option.some_ne_none p hx.1⟩

end Lexer

/-! ## checkpoints -/

/-- All open conditionals include the text, here and at every checkpoint. -/
structure Conditional.Sheltered (c : Conditional) : Prop where
  stack : AllIncluded c.stack
  saved : ∀ stack ∈ c.saved, AllIncluded stack

namespace Conditional.Sheltered

variable {c : Conditional}

theorem save (h : c.Sheltered) : c.save.Sheltered :=
  ⟨h.stack, List.forall_mem_cons.2 ⟨h.stack, h.saved⟩⟩

theorem restore (h : c.Sheltered) : c.restore.Sheltered := by
  unfold Conditional.restore
  cases hsaved : c.saved with
  | nil => exact h
  | cons stack saved =>
    have hall := h.saved
    rw [hsaved] at hall
    exact ⟨hall stack List.mem_cons_self, fun s hs => hall s (List.mem_cons_of_mem _ hs)⟩

theorem abandon (h : c.Sheltered) : c.abandon.Sheltered :=
  ⟨h.stack, fun s hs => h.saved s (List.mem_of_mem_tail hs)⟩

end Conditional.Sheltered

namespace Lexer

/-- An operation fails, and leaves a conditional open that excludes the text. -/
def FailsInside (lx : Lexer) (op : Op) : Prop :=
  (∃ f, (lx.apply op).result = .error f) ∧ ¬ AllIncluded (lx.apply op).state.frames

variable {lx : Lexer} {c : Conditional}

theorem under_peek (hp : lx.preprocessor = some (.conditional c)) :
    lx.peek.state.Under c := by
  have h : lx.Under c := ⟨c.stack, hp⟩
  cases hc : lx.current with
  | some p =>
    rw [peek_of_current hc]
    exact h
  | none =>
    have htoken := (stable_under c).lexToken ((stable_under c).gap h)
    cases hr : lx.lexToken.result with
    | ok p =>
      rw [peek_of_lexToken hc hr]
      exact htoken
    | error f =>
      rw [peek_of_error hc hr]
      exact htoken

theorem under_look (hp : lx.preprocessor = some (.conditional c)) {op : Op}
    (hlook : op.isLook = true) : (lx.apply op).state.Under c := by
  have hpeek := under_peek hp
  obtain ⟨t, answer, -, -, hs | hs⟩ | ⟨f, -, -, hs⟩ := lx.apply_look hlook
  · rw [hs]
    exact hpeek
  · rw [hs]
    exact hpeek
  · rw [hs]
    exact hpeek

/-- When a look answers, which conditionals are open decides what it may have delivered. -/
theorem look_iff (hp : lx.preprocessor = some (.conditional c)) {op : Op}
    (hlook : op.isLook = true) {answer : Answer} (hok : (lx.apply op).result = .ok answer) :
    AllIncluded (lx.apply op).state.frames ↔
      AllIncluded lx.frames ∨ (lx.current = none ∧ lx.ahead ≠ none) := by
  have h : lx.Under c := ⟨c.stack, hp⟩
  obtain ⟨t, answer', ht, -, hs⟩ | ⟨f, -, hf, -⟩ := lx.apply_look hlook
  · have hframes : (lx.apply op).state.frames = lx.peek.state.frames := by
      rcases hs with hs | hs
      · rw [hs]
      · rw [hs]
        rfl
    rw [hframes]
    exact h.peek_iff ht
  · rw [hf] at hok
    cases hok

theorem checkpoint_apply (hp : lx.preprocessor = some (.conditional c)) {op : Op}
    (hlook : op.isLook = false) :
    ∃ c', (lx.apply op).state.preprocessor = some (.conditional c') ∧
      (c' = c ∨ c' = c.save ∨ c' = c.restore ∨ c' = c.abandon) := by
  have h := lx.preprocessor_apply hlook
  rw [hp] at h
  rcases h with h | h | h | h
  · exact ⟨c, h, .inl rfl⟩
  · exact ⟨c.save, h, .inr (.inl rfl)⟩
  · exact ⟨c.restore, h, .inr (.inr (.inl rfl))⟩
  · exact ⟨c.abandon, h, .inr (.inr (.inr rfl))⟩

/-- Every operation keeps the shelter, unless it fails inside an excluded region. -/
theorem sheltered_apply (hp : lx.preprocessor = some (.conditional c)) (hc : c.Sheltered) (op : Op) :
    (∃ c', (lx.apply op).state.preprocessor = some (.conditional c') ∧ c'.Sheltered) ∨
      lx.FailsInside op := by
  cases hlook : op.isLook with
  | true =>
    obtain ⟨stack, hp'⟩ := under_look hp hlook
    have hframes : (lx.apply op).state.frames = stack := frames_eq hp'
    by_cases hin : AllIncluded stack
    · exact .inl ⟨{ c with stack }, hp', hin, hc.saved⟩
    · right
      rw [← hframes] at hin
      refine ⟨?_, hin⟩
      cases hr : (lx.apply op).result with
      | error f => exact ⟨f, rfl⟩
      | ok answer =>
        have hbefore : AllIncluded lx.frames := by
          rw [frames_eq hp]
          exact hc.stack
        exact absurd ((look_iff hp hlook hr).2 (.inl hbefore)) hin
  | false =>
    left
    obtain ⟨c', hp', hcase⟩ := checkpoint_apply hp hlook
    refine ⟨c', hp', ?_⟩
    rcases hcase with rfl | rfl | rfl | rfl
    · exact hc
    · exact hc.save
    · exact hc.restore
    · exact hc.abandon

theorem sheltered_run (hp : lx.preprocessor = some (.conditional c)) (hc : c.Sheltered)
    (ops : List Op) :
    (∃ c', (lx.run ops).preprocessor = some (.conditional c') ∧ c'.Sheltered) ∨
      ∃ before failed after, ops = before ++ failed :: after ∧ (lx.run before).FailsInside failed := by
  induction ops generalizing lx c with
  | nil => exact .inl ⟨c, hp, hc⟩
  | cons op ops ih =>
    obtain ⟨c', hp', hc'⟩ | hfail := sheltered_apply hp hc op
    · obtain hrun | ⟨before, failed, after, rfl, hfail⟩ := ih hp' hc'
      · exact .inl hrun
      · exact .inr ⟨op :: before, failed, after, rfl, hfail⟩
    · exact .inr ⟨[], op, ops, rfl, hfail⟩

theorem conditional_apply (hp : lx.preprocessor = some (.conditional c)) (op : Op) :
    ∃ c', (lx.apply op).state.preprocessor = some (.conditional c') := by
  cases hlook : op.isLook with
  | true =>
    obtain ⟨stack, hp'⟩ := under_look hp hlook
    exact ⟨_, hp'⟩
  | false =>
    obtain ⟨c', hp', -⟩ := checkpoint_apply hp hlook
    exact ⟨c', hp'⟩

end Lexer

/-- When a look for the next token succeeds in a run, it answers under an excluding conditional
exactly when one was open before and no directive stood between; and then an earlier operation of the
run had failed inside an excluded region. -/
theorem look_under_exclusion_iff {c : Conditional} (hstack : c.stack = []) (hsaved : c.saved = [])
    {source : String} {preferences : LexicalPreferences} {ops : List Op} {op : Op} {answer : Answer}
    (hlook : op.isLook = true) :
    let start := (Lexer.ofSource source preferences).withPreprocessor (some (.conditional c))
    ((start.run ops).apply op).result = .ok answer →
    (¬ AllIncluded ((start.run ops).apply op).state.frames ↔
      ¬ AllIncluded (start.run ops).frames ∧
        ((start.run ops).current = none → (start.run ops).ahead = none)) ∧
    (¬ AllIncluded (start.run ops).frames → ∃ before failed after,
      ops = before ++ failed :: after ∧ (start.run before).FailsInside failed) := by
  intro start hok
  have hp : start.preprocessor = some (.conditional c) := rfl
  obtain ⟨c', hp'⟩ := Lexer.run_invariant
    (fun (lx : Lexer) op (h : ∃ c, lx.preprocessor = some (.conditional c)) =>
      Lexer.conditional_apply h.choose_spec op) ⟨c, hp⟩ ops
  refine ⟨?_, ?_⟩
  · rw [Lexer.look_iff hp' hlook hok, not_or, not_and, Classical.not_not]
  · intro hout
    have hsheltered : c.Sheltered := by
      refine ⟨?_, ?_⟩
      · rw [hstack]
        exact fun _ hf => absurd hf List.not_mem_nil
      · rw [hsaved]
        exact fun _ hs => absurd hs List.not_mem_nil
    obtain ⟨c'', hp'', hc''⟩ | hfail := Lexer.sheltered_run hp hsheltered ops
    · rw [Lexer.frames_eq hp''] at hout
      exact absurd hc''.stack hout
    · exact hfail

/-- A macro name stops the search of an undecided region, and the next look finds what follows it. -/
theorem look_under_exclusion_sample :
    let start := (Lexer.ofSource "#if FOO\nUCLASS()\n#endif\n" ⟨true, false, false, true⟩).withPreprocessor
      (some (.conditional Conditional.standard))
    ((start.run [.peek]).apply .peek).result = .ok (.token ⟨.symbol, "(", ⟨14, 2⟩, ⟨14, 2⟩⟩) ∧
      ¬ AllIncluded ((start.run [.peek]).apply .peek).state.frames ∧
      ∃ before failed after, [Op.peek] = before ++ failed :: after ∧
        (start.run before).FailsInside failed := by
  intro start
  have hok : ((start.run [.peek]).apply .peek).result
      = .ok (.token ⟨.symbol, "(", ⟨14, 2⟩, ⟨14, 2⟩⟩) := ok_of_toOption (by decide +kernel)
  have hframes : ¬ AllIncluded (start.run [.peek]).frames := by decide +kernel
  have hahead : (start.run [.peek]).ahead = none := by decide +kernel
  have h := look_under_exclusion_iff rfl rfl rfl hok
  exact ⟨hok, h.1.2 ⟨hframes, fun _ => hahead⟩, h.2 hframes⟩

end HeaderLex
