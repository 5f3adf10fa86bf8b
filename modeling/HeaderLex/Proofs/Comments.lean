import HeaderLex.Proofs.Checkpoints
import HeaderLex.Proofs.Marks

/-!
# What operations do to the comments

Everything that happens to the comments of a lexer is done by a few operations on comment buffers.

* `CommentBuffer.Sound`        no more comments are shown than were collected;
* `comments_handleDirective`   a directive with its region keeps or drops pending comments;
* `Lexer.sound_lexToken`, `Lexer.sound_apply`   buffers stay sound, with any preprocessor.
-/

set_option linter.unusedVariables false

namespace HeaderLex

/-! ## buffers -/

namespace CommentBuffer

/-- No more comments are shown than were collected. -/
def Sound (b : CommentBuffer) : Prop := b.committedCount ≤ b.comments.length

variable {b : CommentBuffer}

theorem sound_empty : empty.Sound := Nat.le_refl 0

theorem sound_clear (b : CommentBuffer) : b.clear.Sound := Nat.le_refl 0

theorem sound_commit (b : CommentBuffer) : b.commit.Sound := Nat.le_refl _

theorem Sound.clearPending (h : b.Sound) : b.clearPending.Sound := by
  have hlength : (b.comments.take b.committedCount).length = b.committedCount :=
    List.length_take.trans (Nat.min_eq_left h)
  exact Nat.le_of_eq hlength.symm

theorem Sound.newline (h : b.Sound) : b.newline.Sound := by
  unfold CommentBuffer.newline
  dsimp only
  split
  · exact Nat.le_refl 0
  · exact h

theorem Sound.add (h : b.Sound) (c : Comment) (inline : Bool) : (b.add c inline).Sound := by
  have hadded : ∀ {d : CommentBuffer}, d.Sound → d.committedCount ≤ (d.comments ++ [c]).length := by
    intro d hd
    rw [List.length_append]
    exact Nat.le_add_right_of_le hd
  unfold CommentBuffer.add
  dsimp only
  split
  · exact hadded b.sound_clear
  · exact hadded h

theorem Sound.noteAll (h : b.Sound) (ms : List Mark) : (b.noteAll ms).Sound := by
  induction ms generalizing b with
  | nil => exact h
  | cons mark ms ih =>
    apply @ih (b.note mark)
    cases mark with
    | newline => exact h.newline
    | comment c inline => exact h.add c inline

theorem Sound.arrive (h : b.Sound) (atToken : Bool) : (b.arrive atToken).Sound := by
  unfold CommentBuffer.arrive reachToken
  split
  · split
    · exact h.clearPending
    · exact h
  · exact h

end CommentBuffer

namespace Lexer

variable {lx : Lexer}

/-! ## gaps and directives -/

/-- The lexer's gap is followed by a token. -/
def gapAtToken (lx : Lexer) : Bool := Margin.atToken ⟨lx.cursor, lx.comments, lx.metrics.comments⟩

theorem comments_skipGap (lx : Lexer) :
    lx.skipGap.2.comments = (lx.comments.noteAll lx.cursor.marks).arrive lx.gapAtToken :=
  Margin.comments_skip ⟨lx.cursor, lx.comments, lx.metrics.comments⟩

theorem comments_lexAt (lx : Lexer) (unget : Position) : (lx.lexAt unget).2.comments = lx.comments := by
  unfold lexAt
  split
  · rfl
  · split <;> rfl

theorem comments_verdictAt (lx : Lexer) (unget : Position) (rest : List Char) (isIncluded : Bool) :
    (lx.verdictAt unget rest isIncluded).2.comments = lx.comments := by
  unfold verdictAt askPreprocessor
  split <;> rfl

/-- The comments inside an excluded region are forgotten. -/
theorem comments_handleDirective (lx : Lexer) (unget : Position) (rest : List Char) :
    (lx.handleDirective unget rest).state.comments = lx.comments ∨
      (lx.handleDirective unget rest).state.comments = lx.comments.clearPending := by
  rw [handleDirective_eq]
  split
  · exact .inl (lx.comments_verdictAt unget rest true)
  · next verdict _ =>
    have hsettled : ((lx.verdictAt unget rest true).2.settle verdict).comments = lx.comments ∨
        ((lx.verdictAt unget rest true).2.settle verdict).comments = lx.comments.clearPending := by
      unfold settle
      split
      · exact .inr (congrArg CommentBuffer.clearPending (lx.comments_verdictAt unget rest true))
      · exact .inl (lx.comments_verdictAt unget rest true)
    dsimp only
    split <;> exact hsettled

/-! ## sound buffers -/

theorem sound_skipGap (h : lx.comments.Sound) : lx.skipGap.2.comments.Sound := by
  rw [comments_skipGap]
  exact (h.noteAll _).arrive _

theorem sound_handled (h : lx.comments.Sound) (rest : List Char) :
    (lx.skipGap.2.handleDirective lx.cursor.position rest).state.comments.Sound := by
  have hgap := sound_skipGap h
  obtain h | h := lx.skipGap.2.comments_handleDirective lx.cursor.position rest
  · rw [h]
    exact hgap
  · rw [h]
    exact hgap.clearPending

theorem sound_lexToken (h : lx.comments.Sound) : lx.lexToken.state.comments.Sound := by
  induction lx using lexToken_induction with
  | broken lx e hg => exact sound_skipGap h
  | unlexed lx e hg ha ht => exact sound_skipGap h
  | lexeme lx t hg ha ht =>
    show (lx.skipGap.2.lexAt lx.cursor.position).2.comments.Sound
    rw [comments_lexAt]
    exact sound_skipGap h
  | refused lx rest f hg ha ho => exact sound_handled h rest
  | directive lx rest hg ha ho ih => exact ih (sound_handled h rest)

theorem sound_peek (h : lx.comments.Sound) : lx.peek.state.comments.Sound := by
  cases hc : lx.current with
  | some p =>
    rw [peek_of_current hc]
    exact h
  | none =>
    have htoken := sound_lexToken h
    cases hr : lx.lexToken.result with
    | ok p =>
      rw [peek_of_lexToken hc hr]
      exact htoken
    | error f =>
      rw [peek_of_error hc hr]
      exact htoken

theorem sound_consumed (h : lx.comments.Sound) (t : Token) : (lx.consumed t).comments.Sound := by
  show CommentBuffer.Sound (if _ then _ else _)
  split
  · exact h.clearPending
  · exact lx.comments.sound_commit

theorem comments_unget (lx : Lexer) : lx.unget.comments = lx.comments := by
  unfold unget
  split <;> rfl

/-- Leaving out blanks keeps the line feeds. -/
theorem newline_mem_dropWhile (cs : List Char) :
    '\n' ∈ cs.dropWhile DirectiveLine.isInnerBlank ↔ '\n' ∈ cs := by
  induction cs with
  | nil => exact Iff.rfl
  | cons c cs ih =>
    rw [List.dropWhile_cons]
    split
    · next hc =>
      have hne : '\n' ≠ c := by
        rintro rfl
        exact absurd hc (by decide)
      rw [ih, List.mem_cons, or_iff_right hne]
    · exact Iff.rfl

theorem newline_mem_iff (cs : List Char) : '\n' ∈ cs ↔ cs.dropWhile (· != '\n') ≠ [] := by
  induction cs with
  | nil => exact iff_of_false List.not_mem_nil (fun h => h rfl)
  | cons c cs ih =>
    rw [List.dropWhile_cons]
    split
    · next hc =>
      have hne : '\n' ≠ c := by
        rintro rfl
        exact absurd hc (by decide)
      rw [← ih, List.mem_cons, or_iff_right hne]
    · next hc =>
      obtain rfl : c = '\n' := by simpa using hc
      exact iff_of_true List.mem_cons_self (List.cons_ne_nil _ _)

/-- A raw line counts its line end, and collects nothing. -/
theorem comments_line (lx : Lexer) : lx.line.state.comments =
    if '\n' ∈ lx.unget.cursor.rest then lx.comments.newline else lx.comments := by
  have hsplit := (newline_mem_dropWhile lx.unget.cursor.rest).symm.trans (newline_mem_iff _)
  unfold line
  dsimp only
  split
  · next hnil =>
    rw [if_neg (fun h => hsplit.1 h hnil)]
    exact lx.comments_unget
  · next c rest hcons =>
    have hmem : '\n' ∈ lx.unget.cursor.rest := hsplit.2 (by rw [hcons]; exact List.cons_ne_nil _ _)
    rw [if_pos hmem]
    exact congrArg CommentBuffer.newline lx.comments_unget

theorem comments_rawText (lx : Lexer) (terminator : Char) (options : RawTextOptions) :
    (lx.rawText terminator options).state.comments = lx.unget.skipGap.2.comments := by
  obtain ⟨cursor, hstate⟩ := lx.rawText_state terminator options
  rw [hstate]

/-- Every operation keeps the lexer's buffer sound, and those of its checkpoints. -/
theorem sound_apply (h : lx.Throughout fun _ _ b => b.Sound) (op : Op) :
    (lx.apply op).state.Throughout fun _ _ b => b.Sound := by
  have hplace : lx.comments.Sound := h.place
  apply h.apply
  intro hop
  have hpeek := sound_peek hplace
  have hlook : op.isLook = true → (lx.apply op).state.comments.Sound := by
    intro hlook
    obtain ⟨t, -, -, -, hs | hs⟩ | ⟨f, -, -, hs⟩ := lx.apply_look hlook
    · rw [hs]
      exact hpeek
    · rw [hs]
      exact sound_consumed hpeek t
    · rw [hs]
      exact hpeek
  cases op with
  | peek => exact hlook rfl
  | next => exact hlook rfl
  | atEnd => exact hlook rfl
  | consume =>
    show lx.consume.state.comments.Sound
    unfold consume
    split
    · exact sound_consumed hplace _
    · exact hplace
  | line =>
    show lx.line.state.comments.Sound
    rw [comments_line]
    split
    · exact hplace.newline
    · exact hplace
  | rawText terminator options =>
    show (lx.rawText terminator options).state.comments.Sound
    rw [comments_rawText]
    apply sound_skipGap
    rw [comments_unget]
    exact hplace
  | clearComments => exact lx.comments.sound_clear
  | commitComments => exact lx.comments.sound_commit
  | disableComments => exact hplace
  | stopRecording => exact hplace
  | restore => exact absurd rfl hop
  | enableComments =>
    show lx.enableComments.state.comments.Sound
    unfold enableComments
    split <;> exact hplace
  | save =>
    show lx.save.state.comments.Sound
    unfold save
    split <;> exact hplace
  | abandon =>
    show lx.abandon.state.comments.Sound
    unfold abandon
    split <;> exact hplace
  | startRecording =>
    show lx.startRecording.state.comments.Sound
    unfold startRecording
    split <;> exact hplace
  | record t =>
    show (lx.record t).state.comments.Sound
    unfold record
    split <;> exact hplace

theorem sound_ofSource (source : String) (preferences : LexicalPreferences) :
    (ofSource source preferences).Throughout fun _ _ b => b.Sound :=
  ⟨CommentBuffer.sound_empty, fun _ hs => absurd hs List.not_mem_nil⟩

end Lexer

end HeaderLex
