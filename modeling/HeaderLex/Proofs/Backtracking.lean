import HeaderLex.Proofs.Checkpoints
import HeaderLex.Proofs.Counts
import HeaderLex.Proofs.Exclusion

/-!
# Going back to a checkpoint

A checkpoint of a lexer is kept in two places: the lexer has its own stack, and the preprocessor
another one.  The recorded tokens are in neither; going back cuts them off.  Between a checkpoint and
the way back to it stands a row of operations in which checkpoints are set and ended in pairs.

* `Bracketed`              such rows;
* `Lexer.Carries`          what every row leaves alone below the checkpoint;
* `Bracketed.carries`      a row of operations, by induction over its brackets;
* `restore_brings_back`    after the way back nothing but the counts differs, and no later
                           operation shows a difference.
-/

namespace HeaderLex

/-- Operations that neither set nor end a checkpoint, nor switch comments or recording. -/
def Op.isInner : Op → Bool
  | .peek | .consume | .next | .atEnd | .line | .rawText _ _ => true
  | .clearComments | .commitComments | .record _ => true
  | _ => false

/-- Checkpoints are set and ended in pairs. -/
inductive Bracketed : List Op → Prop
  | nil : Bracketed []
  | op {op : Op} {ops : List Op} : op.isInner = true → Bracketed ops → Bracketed (op :: ops)
  | nested {inner ops : List Op} {close : Op} : Bracketed inner →
      close = .restore ∨ close = .abandon → Bracketed ops →
      Bracketed (.save :: (inner ++ close :: ops))

/-- The preprocessor with other open conditionals. -/
def Preprocessor.withStack (stack : List Frame) : Preprocessor → Preprocessor
  | conditional c => conditional { c with stack }
  | scripted s => scripted s

namespace Lexer

/-! ## rows without misuse -/

/-- The caller did something that ends the computation. -/
def misused (o : Outcome Lexer Answer) : Bool :=
  match o.result with
  | .error (.misuse _) => true
  | _ => false

/-- No operation of the row is misused. -/
def orderly (lx : Lexer) : List Op → Bool
  | [] => true
  | op :: ops => !misused (lx.apply op) && (lx.apply op).state.orderly ops

theorem orderly_append (lx : Lexer) (ops later : List Op) :
    lx.orderly (ops ++ later) = (lx.orderly ops && (lx.run ops).orderly later) := by
  induction ops generalizing lx with
  | nil => rfl
  | cons op ops ih =>
    show (_ && (lx.apply op).state.orderly (ops ++ later)) = _
    rw [ih, ← Bool.and_assoc]
    rfl

theorem run_append (lx : Lexer) (ops later : List Op) :
    lx.run (ops ++ later) = (lx.run ops).run later := List.foldl_append

/-! ## what stays below a checkpoint -/

/-- The preprocessor keeps no transcript of its own. -/
def Unscripted (lx : Lexer) : Prop := ∀ s, lx.preprocessor ≠ some (.scripted s)

/-- The later lexer has all that the earlier one needs to come back but its place: the checkpoints,
the recorded tokens, and a preprocessor that differs only in its open conditionals. -/
structure Carries (lx lx' : Lexer) : Prop where
  source : lx'.source = lx.source
  commentsOff : lx'.commentsOff = lx.commentsOff
  saved : lx'.saved = lx.saved
  recording : lx'.recording = lx.recording
  recorded : lx.recorded <+: lx'.recorded
  preferences : lx'.preferences = lx.preferences
  preprocessor : ∃ stack, lx'.preprocessor = lx.preprocessor.map (·.withStack stack)

variable {lx lx' lx'' : Lexer}

theorem withStack_same (lx : Lexer) : ∃ stack, lx.preprocessor = lx.preprocessor.map (·.withStack stack) := by
  cases lx.preprocessor with
  | none => exact ⟨[], rfl⟩
  | some p =>
    cases p with
    | conditional c => exact ⟨c.stack, rfl⟩
    | scripted s => exact ⟨[], rfl⟩

theorem Carries.refl (lx : Lexer) : lx.Carries lx :=
  ⟨rfl, rfl, rfl, rfl, List.prefix_refl _, rfl, lx.withStack_same⟩

theorem Carries.trans (h : lx.Carries lx') (h' : lx'.Carries lx'') : lx.Carries lx'' where
  source := h'.source.trans h.source
  commentsOff := h'.commentsOff.trans h.commentsOff
  saved := h'.saved.trans h.saved
  recording := h'.recording.trans h.recording
  recorded := h.recorded.trans h'.recorded
  preferences := h'.preferences.trans h.preferences
  preprocessor := by
    obtain ⟨stack, hp⟩ := h.preprocessor
    obtain ⟨stack', hp'⟩ := h'.preprocessor
    refine ⟨stack', ?_⟩
    rw [hp', hp]
    cases lx.preprocessor with
    | none => rfl
    | some p => cases p <;> rfl

/-- What is done to conditional compilation alone makes no script of it. -/
theorem Unscripted.map (hs : lx.Unscripted) {f : Preprocessor → Preprocessor}
    (hf : ∀ c, ∃ c', f (.conditional c) = .conditional c')
    (hp : lx'.preprocessor = lx.preprocessor.map f) : lx'.Unscripted := by
  intro s hs'
  rw [hp] at hs'
  cases hc : lx.preprocessor with
  | none =>
    rw [hc] at hs'
    cases hs'
  | some p =>
    cases p with
    | conditional c =>
      obtain ⟨c', hc'⟩ := hf c
      rw [hc, Option.map_some, hc'] at hs'
      cases hs'
    | scripted s => exact hs s hc

theorem Carries.unscripted (h : lx.Carries lx') (hs : lx.Unscripted) : lx'.Unscripted := by
  obtain ⟨stack, hp⟩ := h.preprocessor
  exact hs.map (fun c => ⟨_, rfl⟩) hp

/-! ## operations between checkpoints -/

theorem stable_withStack {p : Option Preprocessor} (hp : ∀ s, p ≠ some (.scripted s)) :
    Stable (fun lx => ∃ stack, lx.preprocessor = p.map (·.withStack stack)) := by
  cases p with
  | some p =>
    cases p with
    | conditional c => exact stable_under c
    | scripted s => exact absurd rfl (hp s)
  | none =>
    have hbare : (fun lx : Lexer => ∃ stack, lx.preprocessor
        = (none : Option Preprocessor).map (·.withStack stack))
        = fun lx => lx.preprocessor = none := by
      funext lx
      exact propext ⟨fun ⟨_, h⟩ => h, fun h => ⟨[], h⟩⟩
    rw [hbare]
    exact stable_bare

theorem carries_lexToken (hs : lx.Unscripted) : lx.Carries lx.lexToken.state := by
  have hledger := ledger_lexToken lx
  have hrecorded : lx.lexToken.state.recorded = lx.recorded := congrArg Ledger.recorded hledger
  exact {
    source := congrArg Ledger.source hledger
    commentsOff := congrArg Ledger.commentsOff hledger
    saved := congrArg Ledger.saved hledger
    recording := congrArg Ledger.recording hledger
    recorded := hrecorded ▸ List.prefix_refl _
    preferences := congrArg Ledger.preferences hledger
    preprocessor := (stable_withStack hs).lexToken lx.withStack_same }

/-- The place, the current token and the comments are not carried. -/
theorem Carries.elsewhere (h : lx.Carries lx') (cursor : Cursor) (current : Option Peeked)
    (comments : CommentBuffer) (metrics : Metrics) :
    lx.Carries { lx' with cursor, current, comments, metrics } :=
  ⟨h.source, h.commentsOff, h.saved, h.recording, h.recorded, h.preferences, h.preprocessor⟩

theorem carries_peek (hs : lx.Unscripted) : lx.Carries lx.peek.state := by
  cases hc : lx.current with
  | some p =>
    rw [peek_of_current hc]
    exact .refl lx
  | none =>
    have htoken := carries_lexToken hs
    cases hr : lx.lexToken.result with
    | ok p =>
      rw [peek_of_lexToken hc hr]
      exact htoken.elsewhere _ _ _ _
    | error f =>
      rw [peek_of_error hc hr]
      exact htoken

theorem Carries.consumed (h : lx.Carries lx') (t : Token) : lx.Carries (lx'.consumed t) := by
  have hrecorded : lx.recorded <+: (lx'.consumed t).recorded := by
    show lx.recorded <+: if lx'.recording then lx'.recorded ++ [t] else lx'.recorded
    split
    · exact h.recorded.trans (List.prefix_append ..)
    · exact h.recorded
  exact ⟨h.source, h.commentsOff, h.saved, h.recording, hrecorded, h.preferences, h.preprocessor⟩

theorem carries_unget (lx : Lexer) : lx.Carries lx.unget := by
  unfold unget
  split
  · exact (Carries.refl lx).elsewhere _ _ _ _
  · exact .refl lx

theorem carries_look (hs : lx.Unscripted) {op : Op} (hlook : op.isLook = true) :
    lx.Carries (lx.apply op).state := by
  obtain ⟨t, answer, -, -, hstate | hstate⟩ | ⟨f, -, -, hstate⟩ := lx.apply_look hlook
  · rw [hstate]
    exact carries_peek hs
  · rw [hstate]
    exact (carries_peek hs).consumed t
  · rw [hstate]
    exact carries_peek hs

theorem carries_apply (hs : lx.Unscripted) {op : Op} (hop : op.isInner = true) :
    lx.Carries (lx.apply op).state := by
  cases op with
  | peek => exact carries_look hs rfl
  | next => exact carries_look hs rfl
  | atEnd => exact carries_look hs rfl
  | consume =>
    show lx.Carries lx.consume.state
    unfold consume
    split
    · exact (Carries.refl lx).consumed _
    · exact .refl lx
  | line =>
    obtain ⟨cursor, comments, hs⟩ := lx.line_state
    show lx.Carries lx.line.state
    rw [hs]
    exact (carries_unget lx).elsewhere _ _ _ _
  | rawText terminator options =>
    obtain ⟨cursor, hs⟩ := lx.rawText_state terminator options
    show lx.Carries (lx.rawText terminator options).state
    rw [hs]
    exact (carries_unget lx).elsewhere _ _ _ _
  | clearComments => exact (Carries.refl lx).elsewhere _ _ _ _
  | commitComments => exact (Carries.refl lx).elsewhere _ _ _ _
  | record t =>
    show lx.Carries (lx.record t).state
    unfold record
    split
    · exact ⟨rfl, rfl, rfl, rfl, List.prefix_append .., rfl, lx.withStack_same⟩
    · exact .refl lx
  | _ => cases hop

theorem Unscripted.apply (hs : lx.Unscripted) (op : Op) : (lx.apply op).state.Unscripted := by
  cases hlook : op.isLook with
  | true => exact (carries_look hs hlook).unscripted hs
  | false =>
    obtain hp | hp | hp | hp := lx.preprocessor_apply hlook
    · intro s
      rw [hp]
      exact hs s
    · exact hs.map (fun c => ⟨_, rfl⟩) hp
    · exact hs.map (fun c => ⟨_, rfl⟩) hp
    · exact hs.map (fun c => ⟨_, rfl⟩) hp

/-! ## the two ends of a checkpoint -/

theorem save_of_free (h : lx.saved.length < maxCheckpoints) :
    lx.save = .ok () { lx with
      saved := ⟨lx.cursor, lx.current, lx.comments, lx.recorded.length⟩ :: lx.saved
      preprocessor := lx.preprocessor.map (·.save) } := by
  unfold save
  rw [if_neg (Nat.not_le_of_lt h)]

theorem free_of_orderly (h : misused (lx.apply .save) = false) :
    lx.saved.length < maxCheckpoints := by
  apply Nat.lt_of_not_le
  intro hfull
  have hsave : lx.save = .misuse .lexerCheckpointOverflow lx := by
    unfold save
    rw [if_pos hfull]
  have hresult : (lx.apply .save).result = .error (.misuse .lexerCheckpointOverflow) := by
    show Except.map _ lx.save.result = _
    rw [hsave]
    rfl
  unfold misused at h
  rw [hresult] at h
  cases h

variable (hs : lx.Unscripted) (hfree : lx.saved.length < maxCheckpoints)
  (h : lx.save.state.Carries lx')
include hs hfree h

/-- Going back to a checkpoint leaves the lexer as it was, but for the counts. -/
theorem Carries.restored :
    lx'.restore.result = .ok () ∧ lx.Alike lx'.restore.state := by
  rw [save_of_free hfree] at h
  obtain ⟨stack, hp⟩ := h.preprocessor
  have hpre : lx'.preprocessor.map (·.restore) = lx.preprocessor := by
    rw [hp]
    show ((lx.preprocessor.map (·.save)).map (·.withStack stack)).map (·.restore) = _
    cases hc : lx.preprocessor with
    | none => rfl
    | some p =>
      cases p with
      | conditional c => rfl
      | scripted s => exact absurd hc (hs s)
  have htokens : lx'.recorded.take lx.recorded.length = lx.recorded :=
    (List.prefix_iff_eq_take.1 h.recorded).symm
  unfold Lexer.restore
  simp only [h.saved]
  refine ⟨rfl, lx'.metrics, ?_⟩
  show ({ lx' with
    cursor := lx.cursor
    current := lx.current
    comments := lx.comments
    recorded := lx'.recorded.take lx.recorded.length
    saved := lx.saved
    preprocessor := lx'.preprocessor.map (·.restore) } : Lexer) = _
  rw [hpre, htokens, h.source, h.commentsOff, h.recording, h.preferences]
  rfl

/-- Forgetting a checkpoint leaves what was below it. -/
theorem Carries.abandoned : lx.Carries lx'.abandon.state := by
  rw [save_of_free hfree] at h
  obtain ⟨stack, hp⟩ := h.preprocessor
  unfold Lexer.abandon
  simp only [h.saved]
  refine ⟨h.source, h.commentsOff, rfl, h.recording, h.recorded, h.preferences, stack, ?_⟩
  show lx'.preprocessor.map (·.abandon) = _
  rw [hp]
  show ((lx.preprocessor.map (·.save)).map (·.withStack stack)).map (·.abandon) = _
  cases hc : lx.preprocessor with
  | none => rfl
  | some p =>
    cases p with
    | conditional c => rfl
    | scripted s => exact absurd hc (hs s)

theorem Carries.closed {close : Op} (hclose : close = .restore ∨ close = .abandon) :
    lx.Carries (lx'.apply close).state := by
  rcases hclose with rfl | rfl
  · obtain ⟨-, m, hm⟩ := Carries.restored hs hfree h
    show lx.Carries lx'.restore.state
    rw [hm]
    exact (Carries.refl lx).elsewhere _ _ _ _
  · exact Carries.abandoned hs hfree h

end Lexer

/-- A row in which checkpoints are set and ended in pairs leaves all below it alone. -/
theorem Bracketed.carries {ops : List Op} (h : Bracketed ops) {lx : Lexer} (hs : lx.Unscripted)
    (ho : lx.orderly ops = true) : lx.Carries (lx.run ops) := by
  induction h generalizing lx with
  | nil => exact .refl lx
  | @op op ops hop _ ih =>
    have hstep := Lexer.carries_apply hs hop
    have hrest := (Bool.and_eq_true_iff.1 ho).2
    exact hstep.trans (ih (hstep.unscripted hs) hrest)
  | @nested inner ops close _ hclose _ ihinner ihops =>
    -- the inner row carries the lexer with the new checkpoint, and closing takes that off again
    obtain ⟨hsave, hbody⟩ := Bool.and_eq_true_iff.1 ho
    rw [Lexer.orderly_append, Bool.and_eq_true] at hbody
    have hfree : lx.saved.length < maxCheckpoints := Lexer.free_of_orderly (by simpa using hsave)
    have hs' : lx.save.state.Unscripted := hs.apply .save
    have hinner : lx.save.state.Carries (lx.save.state.run inner) := ihinner hs' hbody.1
    have hclosed := Lexer.Carries.closed hs hfree hinner hclose
    have hrest := (Bool.and_eq_true_iff.1 hbody.2).2
    have hrun : lx.run (.save :: (inner ++ close :: ops))
        = ((lx.save.state.run inner).apply close).state.run ops := by
      show lx.save.state.run (inner ++ close :: ops) = _
      rw [Lexer.run_append]
      rfl
    rw [hrun]
    exact hclosed.trans (ihops (hclosed.unscripted hs) hrest)

/-- From any state that a lexer comes to, with or without conditional compilation: a checkpoint, a row
of operations with pairs of checkpoints inside, some of them failing, and the way back leave the
lexer as it was at the checkpoint, but for the counts; and no row of later operations shows a
difference. -/
theorem restore_brings_back {source : String} {preferences : LexicalPreferences}
    {p : Option Preprocessor} (hp : p = none ∨ ∃ c, p = some (.conditional c))
    {before body : List Op} (hbody : Bracketed body) :
    let here := ((Lexer.ofSource source preferences).withPreprocessor p).run before
    here.saved.length < maxCheckpoints → (here.run [.save]).orderly body = true →
    let back := (here.run (.save :: body)).apply .restore
    back.result = .ok .done ∧ (∃ counts, back.state = { here with metrics := counts }) ∧
      ∀ later, back.state.sights later = here.sights later := by
  intro here hfree horderly back
  have hs : here.Unscripted := by
    refine @Lexer.run_invariant Lexer.Unscripted (fun _ op h => h.apply op) _ ?_ before
    intro s hscript
    have hscript' : p = some (.scripted s) := hscript
    rcases hp with rfl | ⟨c, rfl⟩ <;> cases hscript'
  have hcarries : here.save.state.Carries (here.run (.save :: body)) :=
    hbody.carries (hs.apply .save) horderly
  obtain ⟨hresult, halike⟩ := Lexer.Carries.restored hs hfree hcarries
  exact ⟨congrArg (Except.map fun _ => Answer.done) hresult, halike, halike.sights⟩

/-- A token is current and tokens are recorded; the row crosses an excluded region, fails at a literal
and has a pair of checkpoints inside. -/
theorem restore_brings_back_sample :
    let lx := (Lexer.ofSource "/* d */ a\n#if 0\nb\n#endif\n'c d" ⟨true, false, false, true⟩).withPreprocessor
      (some (.conditional Conditional.standard))
    let here := lx.run [.startRecording, .peek]
    let body : List Op := [.consume, .save, .next, .line, .abandon, .atEnd, .clearComments]
    here.saved.length < maxCheckpoints ∧ (here.run [.save]).orderly body = true ∧
      ∃ counts, ((here.run (.save :: body)).apply .restore).state = { here with metrics := counts } := by
  intro lx here body
  have hbody : Bracketed body :=
    .op rfl (@Bracketed.nested [.next, .line] [.atEnd, .clearComments] .abandon
      (.op rfl (.op rfl .nil)) (.inr rfl) (.op rfl (.op rfl .nil)))
  have hfree : here.saved.length < maxCheckpoints := by decide +kernel
  have horderly : (here.run [.save]).orderly body = true := by decide +kernel
  exact ⟨hfree, horderly, (restore_brings_back (.inr ⟨_, rfl⟩) hbody hfree horderly).2.1⟩

end HeaderLex
