import HeaderLex.Proofs.Comments
import HeaderLex.Proofs.LineNumbers

/-!
# Putting a token back

A raw line and raw text begin where the stream stood before the token that was looked at: the cursor
goes back there.  The comments that the look collected stay, so they are collected twice.

* `Outcome.SameReading`   the same but for the comments and the counts;
* `Lexer.Calm`            when the next line end drops the comments, the source is used up;
* `unget_peek`            what a look leaves behind once its token is put back;
* `put_back_iff`          reading after a look and without it, and when the comments agree too.
-/

set_option linter.unusedVariables false

namespace HeaderLex

/-- The outcomes have the same result and the same events, and leave the same state behind, but for
the comments and the counts. -/
structure Outcome.SameReading {α : Type} (o p : Outcome Lexer α) : Prop where
  result : o.result = p.result
  state : ∃ b m, o.state = { p.state with comments := b, metrics := m }
  events : o.events = p.events

/-- Where the gap at a cursor ends. -/
def Cursor.afterGap (c : Cursor) : Cursor := (Margin.skip ⟨c, .empty, 0⟩).2.cursor

namespace Mark

/-- The next line end drops the comments only directly after a comment. -/
theorem trailing_of_flag {ms : List Mark} {n : Nat} {flag : Bool} (h : flagAfter flag ms = true)
    (hn : flag = true → n = 0) : trailing n ms = 0 := by
  induction ms generalizing n flag with
  | nil => exact hn h
  | cons mark ms ih =>
    cases mark with
    | newline => exact ih h (fun hf => Bool.noConfusion hf)
    | comment c inline => exact ih h (fun _ => rfl)

end Mark

namespace Margin

/-- If the next line end would drop the comments after a gap, the gap runs up to the end of the
source. -/
theorem skip_calm {m : Margin}
    (h : m.comments.clearAtNewline = true → ∀ a ∈ m.cursor.rest.head?, a = '\n')
    (hafter : m.skip.2.comments.clearAtNewline = true) : m.skip.2.cursor.rest = [] := by
  have hstop : ∀ {cs : List Char}, (∀ a ∈ cs.head?, a = '\n') →
      cs = [] ∨ ∃ rest, GapPiece.next? cs = .ok (some (.newline, rest)) := by
    intro cs hcs
    cases cs with
    | nil => exact .inl rfl
    | cons a cs =>
      obtain rfl : a = '\n' := hcs a rfl
      exact .inr ⟨cs, rfl⟩
  fun_induction skip m with
  | case1 m cause hn =>
    obtain hnil | ⟨rest, hpiece⟩ := hstop (h hafter)
    · exact hnil
    · rw [hn] at hpiece
      cases hpiece
  | case2 m hn =>
    have hflag : m.comments.clearAtNewline = true := by
      rw [← hafter]
      dsimp only
      split
      · rfl
      · exact (m.comments.arrive_flag true).symm
    obtain hnil | ⟨rest, hpiece⟩ := hstop (h hflag)
    · dsimp only
      split <;> exact hnil
    · rw [hn] at hpiece
      cases hpiece
  | case3 m p rest hn ih =>
    refine ih ?_ hafter
    intro hflag
    have hstands := GapPiece.next?_stands hn
    -- a flag that was set before stands in front of a line feed, which is the piece
    have hbefore : m.comments.clearAtNewline = true → p = .newline := by
      intro hm
      obtain hnil | ⟨rest', hpiece⟩ := hstop (h hm)
      · rw [hnil] at hn
        cases hn
      · rw [hn] at hpiece
        cases hpiece
        rfl
    rw [comments_pass, CommentBuffer.noteAll_flag] at hflag
    cases p with
    | newline => cases hflag
    | blank c => cases hbefore hflag
    | continuation carriageReturn => cases hbefore hflag
    | lineComment body => exact hstands.2
    | blockComment body =>
      have hm : (m.comments.clearAtNewline || false) = true := hflag
      rw [Bool.or_false] at hm
      cases hbefore hm

end Margin

namespace Lexer

variable {lx : Lexer}

theorem cursor_skipGap (lx : Lexer) : lx.skipGap.2.cursor = lx.cursor.afterGap :=
  (@Margin.skip_place ⟨lx.cursor, lx.comments, lx.metrics.comments⟩ ⟨lx.cursor, .empty, 0⟩ rfl).2

/-! ## calm places -/

/-- When the next line end drops the comments, the source is used up, by the gap of the current token
if there is one. -/
def Calm (c : Cursor) (p : Option Peeked) (b : CommentBuffer) : Prop :=
  b.clearAtNewline = true → c.rest = [] ∧ ∀ q ∈ p, q.origin.afterGap.rest = []

theorem afterGap_of_nil {c : Cursor} (h : c.rest = []) : c.afterGap.rest = [] := by
  have hle := Margin.length_rest_skip_le ⟨c, .empty, 0⟩
  apply List.eq_nil_of_length_eq_zero
  rw [h] at hle
  exact Nat.le_zero.1 hle

/-- Also where the current token was put back, the gap ahead uses up the source. -/
theorem Calm.unget (h : Calm lx.cursor lx.current lx.comments)
    (hflag : lx.unget.comments.clearAtNewline = true) : lx.unget.cursor.afterGap.rest = [] := by
  rw [comments_unget] at hflag
  obtain ⟨hrest, horigin⟩ := h hflag
  unfold Lexer.unget
  split
  · next p hp => exact horigin p hp
  · exact afterGap_of_nil hrest

theorem calm_skipGap (h : lx.comments.clearAtNewline = true → lx.cursor.afterGap.rest = [])
    (hflag : lx.skipGap.2.comments.clearAtNewline = true) : lx.skipGap.2.cursor.rest = [] := by
  cases hbefore : lx.comments.clearAtNewline with
  | true =>
    rw [cursor_skipGap]
    exact h hbefore
  | false =>
    refine @Margin.skip_calm ⟨lx.cursor, lx.comments, lx.metrics.comments⟩ ?_ hflag
    intro htrue
    rw [hbefore] at htrue
    cases htrue

theorem Calm.peek (hp : lx.preprocessor = none) (h : Calm lx.cursor lx.current lx.comments) :
    Calm lx.peek.state.cursor lx.peek.state.current lx.peek.state.comments := by
  cases hc : lx.current with
  | some p =>
    rw [peek_of_current hc]
    exact h
  | none =>
    have hgap : lx.skipGap.2.comments.clearAtNewline = true → lx.skipGap.2.cursor.rest = [] :=
      calm_skipGap fun hflag => afterGap_of_nil (h hflag).1
    cases hr : lx.lexToken.result with
    | error f =>
      have hcurrent := (current_lexToken lx).trans hc
      rw [peek_of_error hc hr]
      dsimp only
      rw [hcurrent, lexToken_failed hp hr]
      exact fun hflag => ⟨hgap hflag, fun q hq => by cases hq⟩
    | ok p =>
      rw [peek_of_lexToken hc hr]
      obtain ⟨-, ⟨-, horigin, hat, hstate⟩ | ⟨rest, hsome, -⟩⟩ := lexToken_ok hr
      · rw [hstate]
        intro hflag
        have hflag' : lx.skipGap.2.comments.clearAtNewline = true := by
          rw [← comments_lexAt lx.skipGap.2 lx.cursor.position]
          exact hflag
        have hnil := hgap hflag'
        obtain ⟨-, -, hend⟩ | ⟨c, cs, l, hr, -⟩ := lexAt_ok hat
        · rw [hend]
          refine ⟨hnil, ?_⟩
          intro q hq
          obtain rfl : p = q := Option.some.inj hq
          rw [horigin, ← cursor_skipGap]
          exact hnil
        · rw [hnil] at hr
          cases hr
      · rw [ahead, hp] at hsome
        cases hsome

theorem Calm.consumed (h : Calm lx.cursor lx.current lx.comments) (t : Token) :
    Calm (lx.consumed t).cursor (lx.consumed t).current (lx.consumed t).comments := by
  intro hflag
  have hbefore : lx.comments.clearAtNewline = true := by
    rw [← hflag]
    unfold Lexer.consumed
    dsimp only
    split <;> rfl
  exact ⟨(h hbefore).1, fun q hq => by cases hq⟩

theorem rest_line (h : '\n' ∉ lx.unget.cursor.rest) : lx.line.state.cursor.rest = [] := by
  have hnil : (lx.unget.cursor.rest.dropWhile DirectiveLine.isInnerBlank).dropWhile (· != '\n') = [] :=
    Decidable.of_not_not fun hne => h ((newline_mem_dropWhile _).1 ((newline_mem_iff _).2 hne))
  unfold line
  dsimp only
  split
  · rfl
  · next hcons =>
    rw [hnil] at hcons
    cases hcons

theorem Calm.line (h : Calm lx.cursor lx.current lx.comments) :
    Calm lx.line.state.cursor lx.line.state.current lx.line.state.comments := by
  obtain ⟨cursor, comments, hstate⟩ := lx.line_state
  have hcurrent : lx.line.state.current = none := by
    rw [hstate]
    exact lx.current_unget
  rw [hcurrent, comments_line]
  intro hflag
  refine ⟨?_, fun q hq => by cases hq⟩
  split at hflag
  · exfalso
    unfold CommentBuffer.newline at hflag
    dsimp only at hflag
    split at hflag
    · cases hflag
    · next hno => exact hno hflag
  · next hno => exact rest_line hno

theorem rest_rawText (terminator : Char) (options : RawTextOptions)
    (h : lx.unget.skipGap.2.cursor.rest = []) :
    (lx.rawText terminator options).state.cursor.rest = [] := by
  unfold Lexer.rawText
  dsimp only
  split
  · exact h
  · rw [h]
    exact List.drop_nil

theorem Calm.rawText (h : Calm lx.cursor lx.current lx.comments) (terminator : Char)
    (options : RawTextOptions) :
    Calm (lx.rawText terminator options).state.cursor (lx.rawText terminator options).state.current
      (lx.rawText terminator options).state.comments := by
  obtain ⟨cursor, hstate⟩ := lx.rawText_state terminator options
  have hcurrent : (lx.rawText terminator options).state.current = none := by
    rw [hstate]
    exact lx.current_unget
  rw [hcurrent, comments_rawText]
  exact fun hflag => ⟨rest_rawText terminator options (calm_skipGap h.unget hflag), fun q hq => by cases hq⟩

/-- Comments and the recording do not change what the next line end does. -/
theorem quiet_flag (lx : Lexer) {op : Op} (hop : op.isQuiet = true) :
    (lx.apply op).state.comments.clearAtNewline = lx.comments.clearAtNewline := by
  cases op with
  | clearComments | disableComments | commitComments | stopRecording => rfl
  | enableComments =>
    unfold apply answered enableComments
    dsimp only
    split <;> rfl
  | startRecording =>
    unfold apply answered startRecording
    dsimp only
    split <;> rfl
  | record t =>
    unfold apply answered record
    dsimp only
    split <;> rfl
  | _ => cases hop

theorem comments_save (lx : Lexer) : lx.save.state.comments = lx.comments := by
  unfold save
  split <;> rfl

theorem comments_abandon (lx : Lexer) : lx.abandon.state.comments = lx.comments := by
  unfold abandon
  split <;> rfl

/-- Without a preprocessor, every operation keeps all places calm. -/
theorem calm_apply (hp : lx.preprocessor = none) (h : lx.Throughout Calm) (op : Op) :
    (lx.apply op).state.Throughout Calm := by
  have hplace : Calm lx.cursor lx.current lx.comments := h.place
  apply h.apply
  intro hop
  have hpeek := hplace.peek hp
  have hlook : op.isLook = true →
      Calm (lx.apply op).state.cursor (lx.apply op).state.current (lx.apply op).state.comments := by
    intro hlook
    obtain ⟨t, -, -, -, hs | hs⟩ | ⟨f, -, -, hs⟩ := lx.apply_look hlook
    · rw [hs]
      exact hpeek
    · rw [hs]
      exact hpeek.consumed t
    · rw [hs]
      exact hpeek
  have hquiet : op.isQuiet = true →
      Calm (lx.apply op).state.cursor (lx.apply op).state.current (lx.apply op).state.comments := by
    intro hquiet
    obtain ⟨hcursor, hcurrent, -⟩ := lx.quiet_apply hquiet
    rw [hcursor, hcurrent]
    exact fun hflag => hplace ((lx.quiet_flag hquiet).symm.trans hflag)
  cases op with
  | peek => exact hlook rfl
  | next => exact hlook rfl
  | atEnd => exact hlook rfl
  | consume =>
    show Calm lx.consume.state.cursor lx.consume.state.current lx.consume.state.comments
    unfold consume
    split
    · exact hplace.consumed _
    · exact hplace
  | line => exact hplace.line
  | rawText terminator options => exact hplace.rawText terminator options
  | restore => exact absurd rfl hop
  | save =>
    show Calm lx.save.state.cursor lx.save.state.current lx.save.state.comments
    rw [lx.save_place.1, lx.save_place.2.1, comments_save]
    exact hplace
  | abandon =>
    show Calm lx.abandon.state.cursor lx.abandon.state.current lx.abandon.state.comments
    rw [lx.abandon_place.1, lx.abandon_place.2.1, comments_abandon]
    exact hplace
  | _ => exact hquiet rfl

/-! ## reading after a look -/

/-- A look without a preprocessor whose token is put back has only collected comments. -/
theorem unget_peek (hp : lx.preprocessor = none) (hc : lx.current = none) {t : Token}
    (h : lx.peek.result = .ok t) : lx.skipGap.1 = none ∧ lx.gapAtToken = !t.isEnd ∧
      lx.peek.state.comments = lx.skipGap.2.comments ∧
      lx.peek.state.unget
        = { lx with comments := lx.skipGap.2.comments, metrics := lx.skipGap.2.metrics } := by
  obtain ⟨⟨_, origin⟩, hok, rfl, hstate⟩ := peek_fresh hc h
  obtain ⟨hg, ⟨-, rfl, hat, hlex⟩ | ⟨rest, hsome, -⟩⟩ := lexToken_ok hok
  · have hatToken : lx.gapAtToken = !lx.skipGap.2.cursor.rest.isEmpty := by
      have hnone : (Margin.skip ⟨lx.cursor, lx.comments, lx.metrics.comments⟩).1 = none :=
        Option.map_eq_none_iff.1 hg
      unfold gapAtToken Margin.atToken
      rw [hnone]
      rfl
    have hback : ({ lx with
        current := none
        comments := lx.skipGap.2.comments
        metrics := lx.skipGap.2.metrics } : Lexer)
        = { lx with comments := lx.skipGap.2.comments, metrics := lx.skipGap.2.metrics } := by
      rw [← hc]
    rw [hstate, hlex, hatToken]
    obtain ⟨hrest, htoken, hend⟩ | ⟨c, cs, l, hrest, hl, htoken, hlexed⟩ := lexAt_ok hat
    · rw [hend, hrest, htoken]
      exact ⟨hg, rfl, rfl, hback⟩
    · have hkind := Lexeme.scan_kind hl
      rw [hlexed, hrest, htoken]
      refine ⟨hg, ?_, rfl, hback⟩
      show true = !l.kind.isEnd
      rw [hkind]
      rfl
  · rw [ahead, hp] at hsome
    cases hsome

theorem unget_of_none (hc : lx.current = none) : lx.unget = lx := by
  unfold unget
  rw [hc]

theorem line_unget (lx : Lexer) : lx.unget.line = lx.line := by
  unfold line
  rw [unget_of_none lx.current_unget]

theorem rawText_unget (lx : Lexer) (terminator : Char) (options : RawTextOptions) :
    lx.unget.rawText terminator options = lx.rawText terminator options := by
  unfold rawText
  rw [unget_of_none lx.current_unget]

/-- A raw line does not depend on the comments. -/
theorem line_sameReading (hc : lx.current = none) (b : CommentBuffer) (m : Metrics) :
    ({ lx with comments := b, metrics := m } : Lexer).line.SameReading lx.line := by
  have hc' : ({ lx with comments := b, metrics := m } : Lexer).current = none := hc
  unfold line
  rw [unget_of_none hc, unget_of_none hc']
  dsimp only
  split <;> exact ⟨rfl, ⟨_, _, rfl⟩, rfl⟩

/-- Raw text does not depend on the comments. -/
theorem rawText_sameReading (hc : lx.current = none) (b : CommentBuffer) (m : Metrics)
    (terminator : Char) (options : RawTextOptions) :
    (({ lx with comments := b, metrics := m } : Lexer).rawText terminator options).SameReading
      (lx.rawText terminator options) := by
  have hc' : ({ lx with comments := b, metrics := m } : Lexer).current = none := hc
  have hcursor : ({ lx with comments := b, metrics := m } : Lexer).skipGap.2.cursor
      = lx.skipGap.2.cursor := (cursor_skipGap _).trans (cursor_skipGap lx).symm
  have hcause : ({ lx with comments := b, metrics := m } : Lexer).skipGap.1 = lx.skipGap.1 := by
    show Option.map _ _ = Option.map _ _
    obtain ⟨hfst, hsnd⟩ := @Margin.skip_place ⟨lx.cursor, b, m.comments⟩
      ⟨lx.cursor, lx.comments, lx.metrics.comments⟩ rfl
    rw [hfst, hsnd]
  have hstate : ∀ cursor, ∃ b' m', ({ ({ lx with comments := b, metrics := m } : Lexer).skipGap.2 with
      cursor := cursor } : Lexer) = { lx.skipGap.2 with cursor, comments := b', metrics := m' } :=
    fun cursor => ⟨_, _, rfl⟩
  have hkept : ∃ b' m', ({ lx with comments := b, metrics := m } : Lexer).skipGap.2
      = { lx.skipGap.2 with comments := b', metrics := m' } := by
    obtain ⟨b', m', h⟩ := hstate lx.skipGap.2.cursor
    refine ⟨b', m', ?_⟩
    rw [← h, ← hcursor]
  unfold rawText
  rw [unget_of_none hc, unget_of_none hc']
  dsimp only
  rw [hcause]
  cases lx.skipGap.1 with
  | some e => exact ⟨rfl, hkept, rfl⟩
  | none =>
    dsimp only
    rw [hcursor]
    split
    · exact ⟨rfl, hkept, rfl⟩
    · split
      · exact ⟨rfl, hkept, rfl⟩
      · exact ⟨rfl, hstate _, rfl⟩

end Lexer

namespace CommentBuffer

open Mark

variable {b seen : CommentBuffer} {ms : List Mark} {atToken : Bool}

/-- The next line end hides what a gap collected only where it drops that, and nothing was there
before. -/
theorem newline_arrive_iff (hflag : b.clearAtNewline = false)
    (hseen : (b.noteAll ms).arrive atToken = seen) :
    seen.newline = b.newline ↔ seen = b ∨ seen.clearAtNewline = true ∧ b = .empty := by
  have hcounted : ∀ {d : CommentBuffer}, d.clearAtNewline = false →
      d.newline = ⟨d.comments, d.committedCount, d.newlines + 1, false⟩ := by
    intro d hd
    unfold newline
    dsimp only
    rw [hd]
    rfl
  have hb : b = ⟨b.comments, b.committedCount, b.newlines, false⟩ := by rw [← hflag]
  cases hset : seen.clearAtNewline with
  | false =>
    have hs : seen = ⟨seen.comments, seen.committedCount, seen.newlines, false⟩ := by rw [← hset]
    rw [hcounted hset, hcounted hflag]
    constructor
    · intro heq
      obtain ⟨hcomments, hcount, hlines, -⟩ := CommentBuffer.mk.inj heq
      left
      rw [hs, hb, hcomments, hcount, Nat.succ.inj hlines]
    · rintro (rfl | ⟨h, -⟩)
      · rfl
      · cases h
  | true =>
    have hlines : seen.newlines = 0 := by
      rw [← hseen, arrive_flag, noteAll_flag] at hset
      rw [← hseen, arrive_newlines, noteAll_newlines]
      exact trailing_of_flag hset fun htrue => absurd (hflag.symm.trans htrue) Bool.false_ne_true
    have hdropped : seen.newline = ⟨[], 0, 1, false⟩ := by
      unfold newline clear
      dsimp only
      rw [hset, hlines]
      rfl
    rw [hdropped, hcounted hflag]
    constructor
    · intro heq
      obtain ⟨hcomments, hcount, hlines', -⟩ := CommentBuffer.mk.inj heq
      refine .inr ⟨rfl, ?_⟩
      rw [hb, ← hcomments, ← hcount, ← Nat.succ.inj hlines']
      rfl
    · rintro (rfl | ⟨-, rfl⟩)
      · rw [hflag] at hset
        cases hset
      · rfl

end CommentBuffer

/-- Reading a raw line, or raw text, after a look and without it, in every state that a lexer without a
preprocessor comes to.  The result, the place and all else agree, but for the comments and the
counts.  The comments agree after a raw line exactly when the gap ahead leaves the buffer as it is, or
the line end drops what it collected; and after raw text exactly when the gap can be noted twice. -/
theorem put_back_iff (source : String) (preferences : LexicalPreferences) (ops : List Op) {t : Token}
    (hcurrent : ((Lexer.ofSource source preferences).run ops).current = none)
    (hpeek : ((Lexer.ofSource source preferences).run ops).peek.result = .ok t) :
    let here := (Lexer.ofSource source preferences).run ops
    let looked := here.peek.state
    looked.line.SameReading here.line ∧
    (looked.line.state.comments = here.line.state.comments ↔ looked.comments = here.comments ∨
      looked.comments.clearAtNewline = true ∧ '\n' ∈ here.cursor.rest ∧ here.comments = .empty) ∧
    ∀ terminator options,
      (looked.rawText terminator options).SameReading (here.rawText terminator options) ∧
      ((looked.rawText terminator options).state.comments
          = (here.rawText terminator options).state.comments ↔
        here.comments.Repeatable here.cursor.marks !t.isEnd) := by
  intro here looked
  have hbare : here.preprocessor = none :=
    @Lexer.run_invariant (fun lx => lx.preprocessor = none) (fun _ op h => Lexer.bare_apply h op) _ rfl ops
  have hcalm : Lexer.Calm here.cursor here.current here.comments := by
    have hall := @Lexer.run_invariant (fun lx => lx.preprocessor = none ∧ lx.Throughout Lexer.Calm)
      (fun _ op h => ⟨Lexer.bare_apply h.1 op, Lexer.calm_apply h.1 h.2 op⟩)
      (Lexer.ofSource source preferences)
      ⟨rfl, fun h => Bool.noConfusion h, fun _ hs => absurd hs List.not_mem_nil⟩ ops
    exact hall.2.place
  have hsound : here.comments.Sound :=
    (@Lexer.run_invariant (Lexer.Throughout fun _ _ b => b.Sound)
      (fun _ op h => Lexer.sound_apply h op) _ (Lexer.sound_ofSource source preferences) ops).place
  obtain ⟨hgap, hatToken, hcollected, hunget⟩ := Lexer.unget_peek hbare hcurrent hpeek
  have hmarks := here.comments_skipGap
  rw [hatToken] at hmarks
  have hflag : here.cursor.rest ≠ [] → here.comments.clearAtNewline = false := by
    intro hne
    cases hset : here.comments.clearAtNewline with
    | false => rfl
    | true => exact absurd (hcalm hset).1 hne
  refine ⟨?_, ?_, ?_⟩
  · rw [← Lexer.line_unget looked, hunget]
    exact Lexer.line_sameReading hcurrent _ _
  · have hrest : looked.unget.cursor.rest = here.cursor.rest := by rw [hunget]
    rw [Lexer.comments_line, Lexer.comments_line, hrest, Lexer.unget_of_none hcurrent]
    by_cases hline : '\n' ∈ here.cursor.rest
    · rw [if_pos hline, if_pos hline]
      refine (CommentBuffer.newline_arrive_iff (hflag (List.ne_nil_of_mem hline))
        (hmarks.symm.trans hcollected.symm)).trans ?_
      exact or_congr Iff.rfl (and_congr_right fun _ => (and_iff_right hline).symm)
    · rw [if_neg hline, if_neg hline]
      simp only [hline, false_and, and_false, or_false]
  · intro terminator options
    refine ⟨?_, ?_⟩
    · rw [← Lexer.rawText_unget looked, hunget]
      exact Lexer.rawText_sameReading hcurrent _ _ terminator options
    · have hnil : here.comments.clearAtNewline = true → here.cursor.marks = [] := by
        intro hset
        apply Cursor.marks_none
        intro p rest hpiece
        rw [(hcalm hset).1] at hpiece
        cases hpiece
      have hagain : looked.unget.gapAtToken = here.gapAtToken := by
        unfold Lexer.gapAtToken Margin.atToken
        rw [hunget]
        obtain ⟨hfst, hsnd⟩ := @Margin.skip_place
          ⟨here.cursor, here.skipGap.2.comments, here.skipGap.2.metrics.comments⟩
          ⟨here.cursor, here.comments, here.metrics.comments⟩ rfl
        rw [hfst, hsnd]
      rw [Lexer.comments_rawText, Lexer.comments_rawText, Lexer.unget_of_none hcurrent,
        Lexer.comments_skipGap, Lexer.comments_skipGap, hagain, hatToken]
      have hcursor : looked.unget.cursor = here.cursor := by rw [hunget]
      have hcomments : looked.unget.comments
          = (here.comments.noteAll here.cursor.marks).arrive !t.isEnd := by
        rw [hunget]
        exact hmarks
      rw [hcursor, hcomments]
      exact CommentBuffer.noteAll_twice_iff hsound hnil (Cursor.marks_laid (.inl rfl))

/-- A line comment ahead: the raw line is the comment itself, and after a look it is collected all the
same; raw text collects it a second time. -/
theorem put_back_sample :
    let here := (Lexer.ofSource "// a\nfoo" ⟨true, false, false, true⟩).run []
    let foo : Token := ⟨.identifier, "foo", ⟨5, 2⟩, ⟨0, 1⟩⟩
    here.current = none ∧ here.peek.result = .ok foo ∧
    here.peek.state.line.result = here.line.result ∧
    here.peek.state.line.state.comments ≠ here.line.state.comments ∧
    (here.peek.state.rawText ';' ⟨true, true⟩).state.comments
      ≠ (here.rawText ';' ⟨true, true⟩).state.comments := by
  intro here foo
  have hpeek : here.peek.result = .ok foo := ok_of_toOption (by decide +kernel)
  obtain ⟨hline, hcomments, hraw⟩ :=
    put_back_iff "// a\nfoo" ⟨true, false, false, true⟩ [] (t := foo) rfl hpeek
  refine ⟨rfl, hpeek, hline.result, ?_, ?_⟩
  · rw [Ne, hcomments]
    decide +kernel
  · rw [Ne, (hraw ';' ⟨true, true⟩).2]
    decide +kernel

end HeaderLex
