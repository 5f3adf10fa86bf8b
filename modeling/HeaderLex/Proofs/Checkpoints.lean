import HeaderLex.Proofs.Run

/-!
# Places and checkpoints

The place of a lexer is its cursor with the current token.  Reading changes it, and going back takes
it from a checkpoint; a checkpoint was set at a place.  So what holds of every place that is read to
holds of all places that a lexer can come back to.

* `Op.isQuiet`              operations that have nothing to do with places;
* `line_state`, `rawText_state`   what reading a raw line or raw text changes;
* `Lexer.saved_apply`       where the checkpoints come from;
* `Throughout.apply`        a property of all places with the comments there, through one operation;
* `Everywhere.apply`        the same for a property of the places alone;
* `Lexer.current_apply`, `Everywhere.found`   where current tokens come from;
* `Everywhere.run`          a property of the places over a run from a lexer without checkpoints;
* `Lexer.Along`             a property of the operations of a row.
-/

namespace HeaderLex

/-- Operations on comments and on the recording. -/
def Op.isQuiet : Op → Bool
  | .clearComments | .disableComments | .enableComments | .commitComments => true
  | .startRecording | .record _ | .stopRecording => true
  | _ => false

namespace Lexer

variable {lx : Lexer}

/-! ## what an operation changes -/

theorem saved_unget (lx : Lexer) : lx.unget.saved = lx.saved := by
  unfold unget
  split <;> rfl

theorem line_state (lx : Lexer) :
    ∃ cursor comments, lx.line.state = { lx.unget with cursor, comments } := by
  unfold line
  dsimp only
  split <;> exact ⟨_, _, rfl⟩

theorem rawText_state (lx : Lexer) (terminator : Char) (options : RawTextOptions) :
    ∃ cursor, (lx.rawText terminator options).state = { lx.unget.skipGap.2 with cursor } := by
  unfold rawText
  dsimp only
  split
  · exact ⟨_, rfl⟩
  · split
    · exact ⟨_, rfl⟩
    · split <;> exact ⟨_, rfl⟩

/-- Comments and the recording have no place. -/
theorem quiet_apply (lx : Lexer) {op : Op} (hop : op.isQuiet = true) :
    (lx.apply op).state.cursor = lx.cursor ∧ (lx.apply op).state.current = lx.current ∧
      (lx.apply op).state.saved = lx.saved := by
  cases op with
  | clearComments => exact ⟨rfl, rfl, rfl⟩
  | disableComments => exact ⟨rfl, rfl, rfl⟩
  | commitComments => exact ⟨rfl, rfl, rfl⟩
  | stopRecording => exact ⟨rfl, rfl, rfl⟩
  | enableComments =>
    unfold apply answered enableComments
    dsimp only
    split <;> exact ⟨rfl, rfl, rfl⟩
  | startRecording =>
    unfold apply answered startRecording
    dsimp only
    split <;> exact ⟨rfl, rfl, rfl⟩
  | record t =>
    unfold apply answered record
    dsimp only
    split <;> exact ⟨rfl, rfl, rfl⟩
  | _ => cases hop

/-- The checkpoint that a lexer sets at its place. -/
def snapshot (lx : Lexer) : Snapshot := ⟨lx.cursor, lx.current, lx.comments, lx.recorded.length⟩

theorem save_place (lx : Lexer) : lx.save.state.cursor = lx.cursor ∧
    lx.save.state.current = lx.current ∧ ∀ s ∈ lx.save.state.saved,
      s ∈ lx.saved ∨ s = lx.snapshot := by
  unfold save
  split
  · exact ⟨rfl, rfl, fun s hs => .inl hs⟩
  · refine ⟨rfl, rfl, ?_⟩
    intro s hs
    rcases List.mem_cons.1 hs with rfl | hs
    · exact .inr rfl
    · exact .inl hs

theorem abandon_place (lx : Lexer) : lx.abandon.state.cursor = lx.cursor ∧
    lx.abandon.state.current = lx.current ∧ ∀ s ∈ lx.abandon.state.saved, s ∈ lx.saved := by
  unfold abandon
  split
  · exact ⟨rfl, rfl, fun s hs => hs⟩
  · next saved hsaved =>
    refine ⟨rfl, rfl, ?_⟩
    intro s hs
    rw [hsaved]
    exact List.mem_cons_of_mem _ hs

/-- Going back leads to a checkpoint, if there is one. -/
theorem restore_place (lx : Lexer) :
    (lx.restore.state = lx ∨ ∃ s ∈ lx.saved, lx.restore.state.cursor = s.cursor ∧
      lx.restore.state.current = s.current ∧ lx.restore.state.comments = s.comments) ∧
    ∀ s ∈ lx.restore.state.saved, s ∈ lx.saved := by
  unfold restore
  split
  · exact ⟨.inl rfl, fun s hs => hs⟩
  · next s saved hsaved =>
    rw [hsaved]
    exact ⟨.inr ⟨s, List.mem_cons_self, rfl, rfl, rfl⟩, fun s hs => List.mem_cons_of_mem _ hs⟩

/-! ## all places -/

/-- The property holds of the lexer's place with its comments, and of the places that it can go back
to with the comments there. -/
structure Throughout (Q : Cursor → Option Peeked → CommentBuffer → Prop) (lx : Lexer) : Prop where
  place : Q lx.cursor lx.current lx.comments
  saved : ∀ s ∈ lx.saved, Q s.cursor s.current s.comments

/-- The property holds of the lexer's place and of the places that it can go back to. -/
structure Everywhere (Q : Cursor → Option Peeked → Prop) (lx : Lexer) : Prop where
  place : Q lx.cursor lx.current
  saved : ∀ s ∈ lx.saved, Q s.cursor s.current

/-- A checkpoint after an operation was there before, or is set at the lexer's place. -/
theorem saved_apply (lx : Lexer) (op : Op) : ∀ s ∈ (lx.apply op).state.saved,
    s ∈ lx.saved ∨ s = lx.snapshot := by
  have hsame : (lx.apply op).state.saved = lx.saved → ∀ s ∈ (lx.apply op).state.saved,
      s ∈ lx.saved ∨ s = lx.snapshot := by
    intro hsaved s hs
    rw [hsaved] at hs
    exact .inl hs
  have hpeek : lx.peek.state.saved = lx.saved := by
    cases hc : lx.current with
    | some p =>
      rw [peek_of_current hc]
      rfl
    | none => exact saved_peek hc
  cases op with
  | peek => exact hsame hpeek
  | atEnd => exact hsame hpeek
  | next =>
    apply hsame
    obtain ⟨t, -, -, -, hs | hs⟩ | ⟨f, -, -, hs⟩ := @apply_look lx .next rfl <;>
    · rw [hs]
      exact hpeek
  | save => exact lx.save_place.2.2
  | restore => exact fun s hs => .inl (lx.restore_place.2 s hs)
  | abandon => exact fun s hs => .inl (lx.abandon_place.2.2 s hs)
  | consume =>
    apply hsame
    show lx.consume.state.saved = _
    unfold consume
    split <;> rfl
  | line =>
    obtain ⟨cursor, comments, hs⟩ := lx.line_state
    apply hsame
    show lx.line.state.saved = lx.saved
    rw [hs]
    exact lx.saved_unget
  | rawText terminator options =>
    obtain ⟨cursor, hs⟩ := lx.rawText_state terminator options
    apply hsame
    show (lx.rawText terminator options).state.saved = lx.saved
    rw [hs]
    exact lx.saved_unget
  | _ => exact hsame (lx.quiet_apply rfl).2.2

theorem Throughout.apply {Q : Cursor → Option Peeked → CommentBuffer → Prop} (h : lx.Throughout Q)
    {op : Op} (hplace : op ≠ .restore →
      Q (lx.apply op).state.cursor (lx.apply op).state.current (lx.apply op).state.comments) :
    (lx.apply op).state.Throughout Q := by
  constructor
  · by_cases hop : op = .restore
    · subst hop
      show Q lx.restore.state.cursor lx.restore.state.current lx.restore.state.comments
      obtain hsame | ⟨s, hs, hcursor, hcurrent, hcomments⟩ := lx.restore_place.1
      · rw [hsame]
        exact h.place
      · rw [hcursor, hcurrent, hcomments]
        exact h.saved s hs
    · exact hplace hop
  · intro s hs
    obtain hs | rfl := lx.saved_apply op s hs
    · exact h.saved s hs
    · exact h.place

theorem Everywhere.apply {Q : Cursor → Option Peeked → Prop} (h : lx.Everywhere Q) {op : Op}
    (hplace : op ≠ .restore → Q (lx.apply op).state.cursor (lx.apply op).state.current) :
    (lx.apply op).state.Everywhere Q := by
  have hall : lx.Throughout fun c p _ => Q c p := ⟨h.place, h.saved⟩
  obtain ⟨hplace', hsaved⟩ := hall.apply hplace
  exact ⟨hplace', hsaved⟩

/-- Where the current token after an operation comes from, unless the lexer goes back: there is none,
it was there before, or it was found by a look ahead. -/
theorem current_apply (lx : Lexer) {op : Op} (hop : op ≠ .restore) :
    (lx.apply op).state.current = none ∨
    ((lx.apply op).state.cursor = lx.cursor ∧ (lx.apply op).state.current = lx.current) ∨
    ∃ p, lx.lexToken.result = .ok p ∧ (lx.apply op).state.current = some p ∧
      (lx.apply op).state.cursor = lx.lexToken.state.cursor := by
  have hpeek : lx.peek.state.current = none ∨
      (lx.peek.state.cursor = lx.cursor ∧ lx.peek.state.current = lx.current) ∨
      ∃ p, lx.lexToken.result = .ok p ∧ lx.peek.state.current = some p ∧
        lx.peek.state.cursor = lx.lexToken.state.cursor := by
    cases hc : lx.current with
    | some p =>
      rw [peek_of_current hc]
      exact .inr (.inl ⟨rfl, hc⟩)
    | none =>
      cases hr : lx.lexToken.result with
      | ok p =>
        rw [peek_of_lexToken hc hr]
        exact .inr (.inr ⟨p, rfl, rfl, rfl⟩)
      | error f =>
        rw [peek_of_error hc hr]
        exact .inl ((current_lexToken lx).trans hc)
  cases op with
  | peek => exact hpeek
  | atEnd => exact hpeek
  | next =>
    obtain ⟨t, -, -, -, hs | hs⟩ | ⟨f, -, -, hs⟩ := @apply_look lx .next rfl
    · rw [hs]
      exact hpeek
    · rw [hs]
      exact .inl rfl
    · rw [hs]
      exact hpeek
  | consume =>
    show lx.consume.state.current = none ∨ _
    unfold consume
    split
    · exact .inl rfl
    · next hc => exact .inl hc
  | line =>
    obtain ⟨cursor, comments, hs⟩ := lx.line_state
    left
    show lx.line.state.current = none
    rw [hs]
    exact lx.current_unget
  | rawText terminator options =>
    obtain ⟨cursor, hs⟩ := lx.rawText_state terminator options
    left
    show (lx.rawText terminator options).state.current = none
    rw [hs]
    exact lx.current_unget
  | restore => exact absurd rfl hop
  | save => exact .inr (.inl ⟨lx.save_place.1, lx.save_place.2.1⟩)
  | abandon => exact .inr (.inl ⟨lx.abandon_place.1, lx.abandon_place.2.1⟩)
  | _ => exact .inr (.inl ⟨(lx.quiet_apply rfl).1, (lx.quiet_apply rfl).2.1⟩)

/-- What holds of every token that a look ahead finds holds of every current token. -/
theorem Everywhere.found {Q : Cursor → Option Peeked → Prop} (hnone : ∀ c, Q c none)
    (hfound : ∀ {lx : Lexer} {p}, lx.lexToken.result = .ok p → Q lx.lexToken.state.cursor (some p))
    (h : lx.Everywhere Q) (op : Op) : (lx.apply op).state.Everywhere Q := by
  apply h.apply
  intro hop
  obtain hc | ⟨hcursor, hc⟩ | ⟨p, hp, hc, hcursor⟩ := lx.current_apply hop
  · rw [hc]
    exact hnone _
  · rw [hcursor, hc]
    exact h.place
  · rw [hcursor, hc]
    exact hfound hp

/-- From a lexer without checkpoints, what operations keep of all places holds of those of every run. -/
theorem Everywhere.run {Q : Cursor → Option Peeked → Prop}
    (h : ∀ (lx : Lexer) op, lx.Everywhere Q → (lx.apply op).state.Everywhere Q)
    (hplace : Q lx.cursor lx.current) (hsaved : lx.saved = []) (ops : List Op) :
    (lx.run ops).Everywhere Q := by
  apply run_invariant h
  refine ⟨hplace, fun s hs => ?_⟩
  rw [hsaved] at hs
  exact absurd hs List.not_mem_nil

/-- The property holds of every operation of a row, in the state in which it is applied. -/
def Along (P : Lexer → Op → Prop) (lx : Lexer) : List Op → Prop
  | [] => True
  | op :: ops => P lx op ∧ (lx.apply op).state.Along P ops

end Lexer

end HeaderLex
