import HeaderLex.Proofs.Gap

/-!
# What a gap does to the comments

A comment buffer sees of a gap its line feeds and its comments, in turn.  Whether it keeps what it had
before depends on a few numbers only.

* `Cursor.marks`            the line feeds and comments of the gap at a cursor;
* `Margin.comments_skip`    skipping a gap notes its marks, and drops pending comments at a token;
* `Mark.clears`             noting the marks drops what was collected before;
* `Mark.Laid`               a comment after code stands behind a token or a block comment on its line;
* `noteAll_twice_iff`       when the marks of a gap can be noted twice without a difference.
-/

set_option linter.unusedVariables false

namespace HeaderLex

/-- What a comment buffer sees of a gap. -/
inductive Mark where
  | newline
  | comment (c : Comment) (inline : Bool)
deriving DecidableEq, Repr

namespace CommentBuffer

def note (b : CommentBuffer) : Mark → CommentBuffer
  | .newline => b.newline
  | .comment c inline => b.add c inline

def noteAll (b : CommentBuffer) (ms : List Mark) : CommentBuffer := ms.foldl note b

/-- The gap is over, at a token or at the end of the source. -/
def arrive (b : CommentBuffer) (atToken : Bool) : CommentBuffer :=
  if atToken then b.reachToken else b

end CommentBuffer

/-! ## the marks of a gap -/

/-- The mark of a piece that stands at a cursor. -/
def Cursor.mark? (c : Cursor) : GapPiece → Option Mark
  | .newline => some .newline
  | .lineComment body => some (.comment
      ⟨.line, String.ofList (Text.dropEndWhile (· == '\r') ('/' :: '/' :: body)), c.position⟩
      !c.atLineStart)
  | .blockComment body => some (.comment
      ⟨.block, String.ofList (GapPiece.blockComment body).text, c.position⟩ false)
  | .blank _ | .continuation _ => none

/-- The marks of the gap at a cursor. -/
def Cursor.marks (c : Cursor) : List Mark :=
  match h : GapPiece.next? c.rest with
  | .ok (some (p, rest)) => (c.mark? p).toList ++ (c.advance p.text rest p.lines).marks
  | _ => []
termination_by c.rest.length
decreasing_by exact GapPiece.length_of_next? h

theorem Cursor.marks_piece {c : Cursor} {p : GapPiece} {rest : List Char}
    (h : GapPiece.next? c.rest = .ok (some (p, rest))) :
    c.marks = (c.mark? p).toList ++ (c.advance p.text rest p.lines).marks := by
  rw [marks]
  split
  · next hq =>
    rw [h] at hq
    cases hq
    rfl
  · next hq => exact absurd h (hq p rest)

theorem Cursor.marks_none {c : Cursor}
    (h : ∀ p rest, GapPiece.next? c.rest ≠ .ok (some (p, rest))) : c.marks = [] := by
  rw [marks]
  split
  · next hq => exact absurd hq (h _ _)
  · rfl

namespace Margin

/-- The gap is followed by a token. -/
def atToken (m : Margin) : Bool := m.skip.1.isNone && !m.skip.2.cursor.rest.isEmpty

theorem cursor_pass (m : Margin) (p : GapPiece) (rest : List Char) :
    (m.pass p rest).cursor = m.cursor.advance p.text rest p.lines := by
  cases p <;> rfl

theorem comments_pass (m : Margin) (p : GapPiece) (rest : List Char) :
    (m.pass p rest).comments = m.comments.noteAll (m.cursor.mark? p).toList := by
  cases p <;> rfl

/-- Where a gap ends does not depend on the comments collected before. -/
theorem skip_place {m n : Margin} (h : m.cursor = n.cursor) :
    m.skip.1 = n.skip.1 ∧ m.skip.2.cursor = n.skip.2.cursor := by
  fun_induction skip m generalizing n with
  | case1 m cause hn =>
    have hskip : n.skip = (some cause, n) := by
      rw [skip]
      split <;> simp_all
    rw [hskip]
    exact ⟨rfl, h⟩
  | case2 m hn =>
    rw [skip_none (h ▸ hn)]
    refine ⟨rfl, ?_⟩
    show Cursor.mk .. = Cursor.mk ..
    dsimp only
    split <;> split <;> exact h
  | case3 m p rest hn ih =>
    rw [@skip_piece n p rest (h ▸ hn)]
    apply ih
    rw [cursor_pass, cursor_pass, h]

/-- Skipping a gap notes its marks. -/
theorem comments_skip (m : Margin) :
    m.skip.2.comments = (m.comments.noteAll m.cursor.marks).arrive m.atToken := by
  unfold atToken
  fun_induction skip m with
  | case1 m cause h =>
    have hmarks : m.cursor.marks = [] := by
      apply Cursor.marks_none
      intro p rest hp
      rw [h] at hp
      cases hp
    rw [hmarks]
    rfl
  | case2 m h =>
    have hmarks : m.cursor.marks = [] := by
      apply Cursor.marks_none
      intro p rest hp
      rw [h] at hp
      cases hp
    rw [hmarks]
    cases hrest : m.cursor.rest with
    | nil => simp [hrest, CommentBuffer.arrive, CommentBuffer.noteAll]
    | cons c cs => simp [hrest, CommentBuffer.arrive, CommentBuffer.noteAll]
  | case3 m p rest h ih =>
    rw [ih, comments_pass, cursor_pass, Cursor.marks_piece h]
    unfold CommentBuffer.noteAll
    rw [List.foldl_append]

end Margin

/-! ## what noting does -/

namespace Mark

def isComment : Mark → Bool
  | newline => false
  | comment _ _ => true

/-- The comments among the marks. -/
def comments : List Mark → List Comment
  | [] => []
  | newline :: ms => comments ms
  | comment c _ :: ms => c :: comments ms

/-- Lines that ended since the last comment, `n` of them before the marks. -/
def trailing : Nat → List Mark → Nat
  | n, [] => n
  | n, newline :: ms => trailing (n + 1) ms
  | _, comment _ _ :: ms => trailing 0 ms

/-- After the marks the next line end drops everything; `flag` says so of the time before. -/
def flagAfter : Bool → List Mark → Bool
  | flag, [] => flag
  | _, newline :: ms => flagAfter false ms
  | flag, comment _ inline :: ms => flagAfter (flag || inline) ms

/-- What was collected before is dropped while the marks are noted, when `n` lines ended since the
last comment. -/
def clears : Nat → Bool → List Mark → Bool
  | _, _, [] => false
  | n, flag, newline :: ms => flag || clears (n + 1) false ms
  | n, flag, comment c inline :: ms =>
    c.kind == .block || decide (2 ≤ n) || clears 0 (flag || inline) ms

variable {ms : List Mark} {n m : Nat} {flag : Bool}

theorem trailing_comment (h : ms.any isComment = true) : trailing n ms = trailing m ms := by
  induction ms generalizing n m with
  | nil => cases h
  | cons mark ms ih =>
    cases mark with
    | newline => exact ih h
    | comment c inline => rfl

theorem trailing_plain (h : ms.any isComment = false) : trailing n ms = n + ms.length := by
  induction ms generalizing n with
  | nil => rfl
  | cons mark ms ih =>
    cases mark with
    | newline =>
      show trailing (n + 1) ms = _
      rw [ih h, List.length_cons]
      omega
    | comment c inline => cases h

/-- After a blank line any comment separates itself. -/
theorem clears_of_two_le (hn : 2 ≤ n) (h : ms.any isComment = true) : clears n flag ms = true := by
  induction ms generalizing n flag with
  | nil => cases h
  | cons mark ms ih =>
    cases mark with
    | newline =>
      show (flag || clears (n + 1) false ms) = true
      rw [ih (Nat.le_succ_of_le hn) h, Bool.or_true]
    | comment c inline =>
      unfold clears
      rw [decide_eq_true hn, Bool.or_true, Bool.true_or]

theorem comments_ne_nil (h : ms.any isComment = true) : comments ms ≠ [] := by
  induction ms with
  | nil => cases h
  | cons mark ms ih =>
    cases mark with
    | newline => exact ih h
    | comment c inline => exact List.cons_ne_nil _ _

end Mark

namespace CommentBuffer

open Mark

variable {b : CommentBuffer} {ms : List Mark}

theorem separates_eq (b : CommentBuffer) (kind : CommentKind) :
    b.separates kind = (kind == .block || (decide (2 ≤ b.newlines))) := by
  cases kind <;> rfl

theorem noteAll_newlines (b : CommentBuffer) (ms : List Mark) :
    (b.noteAll ms).newlines = trailing b.newlines ms := by
  induction ms generalizing b with
  | nil => rfl
  | cons mark ms ih =>
    show ((b.note mark).noteAll ms).newlines = _
    rw [ih]
    cases mark with
    | newline =>
      have hline : b.newline.newlines = b.newlines + 1 := by
        unfold newline
        dsimp only
        split <;> rfl
      show trailing b.newline.newlines ms = trailing (b.newlines + 1) ms
      rw [hline]
    | comment c inline => rfl

theorem noteAll_flag (b : CommentBuffer) (ms : List Mark) :
    (b.noteAll ms).clearAtNewline = flagAfter b.clearAtNewline ms := by
  induction ms generalizing b with
  | nil => rfl
  | cons mark ms ih =>
    show ((b.note mark).noteAll ms).clearAtNewline = _
    rw [ih]
    cases mark with
    | newline =>
      have hline : b.newline.clearAtNewline = false := by
        unfold newline
        dsimp only
        split
        · rfl
        · next h => simpa using h
      show flagAfter b.newline.clearAtNewline ms = flagAfter false ms
      rw [hline]
    | comment c inline =>
      have hadd : (b.add c inline).clearAtNewline = (b.clearAtNewline || inline) := by
        unfold add
        dsimp only
        split <;> rfl
      show flagAfter (b.add c inline).clearAtNewline ms = flagAfter (b.clearAtNewline || inline) ms
      rw [hadd]

/-- Where nothing is dropped, the comments are added to what was there. -/
theorem noteAll_kept (h : clears b.newlines b.clearAtNewline ms = false) :
    b.noteAll ms = ⟨b.comments ++ Mark.comments ms, b.committedCount, trailing b.newlines ms,
      flagAfter b.clearAtNewline ms⟩ := by
  induction ms generalizing b with
  | nil =>
    show b = _
    rw [Mark.comments, List.append_nil]
    rfl
  | cons mark ms ih =>
    cases mark with
    | newline =>
      obtain ⟨hflag, hrest⟩ := Bool.or_eq_false_iff.1 h
      have hline : b.newline = { b with newlines := b.newlines + 1 } := by
        unfold newline
        rw [hflag]
        rfl
      have hrest' : clears b.newline.newlines b.newline.clearAtNewline ms = false := by
        rw [hline]
        show clears (b.newlines + 1) b.clearAtNewline ms = false
        rw [hflag]
        exact hrest
      show b.newline.noteAll ms = _
      rw [ih hrest', hline]
      show CommentBuffer.mk _ _ (trailing (b.newlines + 1) ms) (flagAfter b.clearAtNewline ms) = _
      rw [hflag]
      rfl
    | comment c inline =>
      obtain ⟨hsep, hrest⟩ := Bool.or_eq_false_iff.1 h
      have hadd : b.add c inline = ⟨b.comments ++ [c], b.committedCount, 0, b.clearAtNewline || inline⟩ := by
        unfold add
        rw [separates_eq, hsep]
        rfl
      have hrest' : clears (b.add c inline).newlines (b.add c inline).clearAtNewline ms = false := by
        rw [hadd]
        exact hrest
      show (b.add c inline).noteAll ms = _
      rw [ih hrest', hadd]
      show CommentBuffer.mk (b.comments ++ [c] ++ Mark.comments ms) _ _ _ = _
      rw [List.append_assoc]
      rfl

/-- Where something is dropped, nothing is left of what was there. -/
theorem noteAll_dropped (h : clears b.newlines b.clearAtNewline ms = true) :
    b.noteAll ms = b.clear.noteAll ms := by
  induction ms generalizing b with
  | nil => cases h
  | cons mark ms ih =>
    cases mark with
    | newline =>
      show b.newline.noteAll ms = b.clear.newline.noteAll ms
      cases hflag : b.clearAtNewline with
      | true =>
        have hsame : b.newline = b.clear.newline := by
          unfold newline clear
          dsimp only
          rw [hflag]
          rfl
        rw [hsame]
      | false =>
        have hline : b.newline = { b with newlines := b.newlines + 1 } := by
          unfold newline
          rw [hflag]
          rfl
        have hcleared : b.clear.newline = b.newline.clear := by
          rw [hline]
          unfold newline clear
          dsimp only
          rw [hflag]
          rfl
        rw [hcleared]
        apply ih
        rw [hline]
        show clears (b.newlines + 1) b.clearAtNewline ms = true
        rw [hflag]
        have hor : (b.clearAtNewline || clears (b.newlines + 1) false ms) = true := h
        rwa [hflag] at hor
    | comment c inline =>
      show (b.add c inline).noteAll ms = (b.clear.add c inline).noteAll ms
      cases hsep : b.separates c.kind with
      | true =>
        have hsame : b.add c inline = b.clear.add c inline := by
          unfold add
          have hsep' : b.clear.separates c.kind = true := hsep
          rw [hsep, hsep']
          rfl
        rw [hsame]
      | false =>
        have hadd : b.add c inline = { b with comments := b.comments ++ [c], newlines := 0, clearAtNewline := b.clearAtNewline || inline } := by
          unfold add
          rw [hsep]
          rfl
        have hadd' : b.clear.add c inline = { b with comments := [c], committedCount := 0, newlines := 0, clearAtNewline := b.clearAtNewline || inline } := by
          unfold add
          have hsep' : b.clear.separates c.kind = false := hsep
          rw [hsep']
          rfl
        have hrest : clears 0 (b.clearAtNewline || inline) ms = true := by
          have hor : (c.kind == .block || decide (2 ≤ b.newlines) || clears 0 (b.clearAtNewline || inline) ms) = true := h
          rw [← separates_eq, hsep] at hor
          exact hor
        have hleft : (b.add c inline).noteAll ms = (b.add c inline).clear.noteAll ms := ih (by rw [hadd]; exact hrest)
        have hright : (b.clear.add c inline).noteAll ms = (b.clear.add c inline).clear.noteAll ms := ih (by rw [hadd']; exact hrest)
        rw [hleft, hright, hadd, hadd']
        rfl

/-- Before the first comment only the line ends were counted, and it starts the count anew. -/
theorem noteAll_empty (h : ms.any isComment = true) (n m : Nat) (flag : Bool) :
    noteAll ⟨[], 0, n, flag⟩ ms = noteAll ⟨[], 0, m, flag⟩ ms := by
  induction ms generalizing n m flag with
  | nil => cases h
  | cons mark ms ih =>
    cases mark with
    | newline =>
      show noteAll (newline _) ms = noteAll (newline _) ms
      unfold newline clear
      cases flag with
      | true => exact ih h (n + 1) (m + 1) false
      | false => exact ih h (n + 1) (m + 1) false
    | comment c inline =>
      have hadd : ∀ k, add ⟨[], 0, k, flag⟩ c inline = ⟨[c], 0, 0, flag || inline⟩ := by
        intro k
        unfold add clear
        split <;> rfl
      show noteAll (add _ c inline) ms = noteAll (add _ c inline) ms
      rw [hadd, hadd]

end CommentBuffer

/-! ## comments after code -/

namespace Mark

/-- A comment counts as after code only if code stands before it on its line: a token before the
gap, which `code` says, or a block comment. -/
def Laid : Bool → List Mark → Prop
  | _, [] => True
  | _, newline :: ms => Laid false ms
  | code, comment c inline :: ms => (inline = true → code = true) ∧ Laid (c.kind == .block) ms

end Mark

/-- The comments of a gap are laid out so; no code stands before them on a line of blanks, nor where
the line ends. -/
theorem Cursor.marks_laid {c : Cursor} {code : Bool}
    (h : code = true ∨ c.atLineStart = true ∨ ∀ a ∈ c.rest.head?, a = '\n') :
    Mark.Laid code c.marks := by
  fun_induction Cursor.marks c generalizing code with
  | case2 c hnone => trivial
  | case1 c p rest hnext ih =>
    have htext := GapPiece.next?_eq hnext
    have hstands := GapPiece.next?_stands hnext
    cases p with
    | newline => exact ih (.inr (.inl rfl))
    | continuation carriageReturn =>
      refine ih (.inr (.inl ?_))
      cases carriageReturn <;> rfl
    | blank a =>
      have hblank : isLineBlank a = true := hstands
      have hne : a ≠ '\n' := by
        rintro rfl
        exact absurd hblank (by decide)
      refine ih ?_
      rcases h with h | h | h
      · exact .inl h
      · refine .inr (.inl ?_)
        show ((a :: c.before).takeWhile (· != '\n')).all isLineBlank = true
        rw [List.takeWhile_cons_of_pos (by simpa using hne), List.all_cons, hblank]
        exact h
      · exact absurd (h a (by rw [htext]; rfl)) hne
    | lineComment body =>
      refine ⟨fun hinline => ?_, ih (.inr (.inr hstands.2))⟩
      rcases h with h | h | h
      · exact h
      · rw [h] at hinline
        cases hinline
      · exact absurd (h '/' (by rw [htext]; rfl)) (by decide)
    | blockComment body => exact ⟨fun hinline => (Bool.noConfusion hinline), ih (.inl rfl)⟩

namespace CommentBuffer

open Mark

variable {b : CommentBuffer} {ms : List Mark}

/-- A gap that ends behind a comment after code, and went over a line end before, forgets all that
was collected before that line end. -/
theorem noteAll_behind_line (hlaid : Laid false ms) (hflag : flagAfter false ms = true) (n : Nat)
    (cs ds : List Comment) (k l : Nat) :
    noteAll ⟨cs, k, n, false⟩ ms = noteAll ⟨ds, l, n, false⟩ ms := by
  induction ms generalizing n cs ds with
  | nil => cases hflag
  | cons mark ms ih =>
    cases mark with
    | newline => exact ih hlaid hflag (n + 1) cs ds
    | comment c inline =>
      obtain ⟨hinline, hrest⟩ := hlaid
      obtain rfl : inline = false := by
        cases inline with
        | false => rfl
        | true => cases hinline rfl
      show noteAll (add _ c false) ms = noteAll (add _ c false) ms
      unfold add
      rw [separates_eq, separates_eq]
      dsimp only
      split
      · rfl
      · next hsep =>
        have hkind : (c.kind == .block) = false := by
          cases hk : c.kind == .block with
          | false => rfl
          | true =>
            rw [hk] at hsep
            exact absurd rfl hsep
        rw [hkind] at hrest
        exact ih hrest hflag 0 _ _

/-- So the gap does not see whether such a comment stood before it. -/
theorem noteAll_flagged {code : Bool} (hlaid : Laid code ms) (hflag : flagAfter false ms = true)
    (b : CommentBuffer) : noteAll { b with clearAtNewline := true } ms
      = noteAll { b with clearAtNewline := false } ms := by
  induction ms generalizing code b with
  | nil => cases hflag
  | cons mark ms ih =>
    cases mark with
    | newline => exact noteAll_behind_line hlaid hflag (b.newlines + 1) [] b.comments 0 b.committedCount
    | comment c inline =>
      show noteAll (add _ c inline) ms = noteAll (add _ c inline) ms
      cases inline with
      | true =>
        unfold add
        rw [separates_eq, separates_eq]
        dsimp only
        split <;> rfl
      | false =>
        have hsame : ∀ flag, add { b with clearAtNewline := flag } c false
            = { add b c false with clearAtNewline := flag } := by
          intro flag
          unfold add
          rw [separates_eq, separates_eq]
          dsimp only
          split <;> (cases flag <;> rfl)
        rw [hsame true, hsame false]
        exact ih hlaid.2 hflag (b.add c false)

/-! ## noting the marks twice -/

/-- The gap's own comments separate themselves from what was collected before, also when the gap is
seen a second time, or there is nothing that would stay. -/
def Repeatable (b : CommentBuffer) (ms : List Mark) (atToken : Bool) : Prop :=
  ms = [] ∨ ms.any Mark.isComment = true ∧
    clears (trailing b.newlines ms) false ms = true ∧
    (clears b.newlines false ms = true ∨
      (if atToken = true ∧ 2 ≤ trailing b.newlines ms then b.committed else b.comments) = [])

instance (b : CommentBuffer) (ms : List Mark) (atToken : Bool) : Decidable (b.Repeatable ms atToken) :=
  inferInstanceAs (Decidable (_ ∨ _))

theorem arrive_newlines (b : CommentBuffer) (atToken : Bool) :
    (b.arrive atToken).newlines = b.newlines := by
  unfold arrive reachToken
  split
  · split <;> rfl
  · rfl

theorem arrive_flag (b : CommentBuffer) (atToken : Bool) :
    (b.arrive atToken).clearAtNewline = b.clearAtNewline := by
  unfold arrive reachToken
  split
  · split <;> rfl
  · rfl

theorem arrive_arrive (b : CommentBuffer) (atToken : Bool) :
    (b.arrive atToken).arrive atToken = b.arrive atToken := by
  unfold arrive reachToken
  cases atToken with
  | false => rfl
  | true =>
    rw [if_pos rfl, if_pos rfl]
    split
    · next h =>
      have h' : 2 ≤ b.clearPending.newlines := h
      rw [if_pos h']
      unfold clearPending
      dsimp only
      rw [List.take_take, Nat.min_self]
    · rfl

theorem arrive_of_lt (h : b.newlines < 2) (atToken : Bool) : b.arrive atToken = b := by
  unfold arrive reachToken
  rw [if_neg (Nat.not_le_of_lt h), ite_self]

/-- Comments in front of others leave no trace exactly when none of them is kept. -/
theorem arrive_behind_iff {cs ds : List Comment} {k n : Nat} {flag atToken : Bool}
    (hk : k ≤ cs.length) :
    arrive ⟨ds, 0, n, flag⟩ atToken = arrive ⟨cs ++ ds, k, n, flag⟩ atToken ↔
      (if atToken = true ∧ 2 ≤ n then cs.take k else cs) = [] := by
  have hcount : ∀ {xs ys : List Comment} {l : Nat},
      CommentBuffer.mk xs 0 n flag = CommentBuffer.mk ys l n flag ↔ xs = ys ∧ 0 = l := by
    intro xs ys l
    rw [mk.injEq]
    simp only [and_true]
  by_cases hdrop : atToken = true ∧ 2 ≤ n
  · obtain ⟨rfl, htwo⟩ := hdrop
    have harrive : ∀ (xs : List Comment) (l : Nat),
        arrive ⟨xs, l, n, flag⟩ true = ⟨xs.take l, l, n, flag⟩ := fun xs l => if_pos htwo
    rw [harrive, harrive, hcount, if_pos ⟨rfl, htwo⟩, List.take_zero]
    cases k with
    | zero => exact iff_of_true ⟨rfl, rfl⟩ rfl
    | succ k =>
      refine iff_of_false (fun h => absurd h.2 (Nat.succ_ne_zero k).symm) ?_
      intro hnil
      have hlen := congrArg List.length hnil
      rw [List.length_take, Nat.min_eq_left hk] at hlen
      exact absurd hlen (Nat.succ_ne_zero k)
  · have harrive : ∀ (xs : List Comment) (l : Nat),
        arrive ⟨xs, l, n, flag⟩ atToken = ⟨xs, l, n, flag⟩ := by
      intro xs l
      unfold arrive reachToken
      by_cases htoken : atToken = true
      · rw [if_pos htoken, if_neg (fun h => hdrop ⟨htoken, h⟩)]
      · exact if_neg htoken
    rw [harrive, harrive, hcount, if_neg hdrop]
    constructor
    · rintro ⟨hcs, -⟩
      exact List.append_left_eq_self.1 hcs.symm
    · rintro rfl
      exact ⟨rfl, (Nat.le_zero.1 hk).symm⟩

/-- The marks of a gap can be noted twice without a difference exactly when they are repeatable. -/
theorem noteAll_twice_iff {atToken : Bool} (hcount : b.committedCount ≤ b.comments.length)
    (hcalm : b.clearAtNewline = true → ms = []) (hlaid : Laid true ms) :
    (((b.noteAll ms).arrive atToken).noteAll ms).arrive atToken = (b.noteAll ms).arrive atToken ↔
      b.Repeatable ms atToken := by
  by_cases hms : ms = []
  · subst hms
    exact iff_of_true (b.arrive_arrive atToken) (.inl rfl)
  have hflag : b.clearAtNewline = false := by
    cases h : b.clearAtNewline with
    | false => rfl
    | true => exact absurd (hcalm h) hms
  generalize hseen : (b.noteAll ms).arrive atToken = seen
  have hlines : seen.newlines = trailing b.newlines ms := by
    rw [← hseen, arrive_newlines, noteAll_newlines]
  cases hany : ms.any Mark.isComment with
  | false =>
    -- only line ends: they are counted twice
    refine iff_of_false ?_ ?_
    · intro heq
      have hcounts := congrArg CommentBuffer.newlines heq
      rw [arrive_newlines, noteAll_newlines, hlines, trailing_plain hany, trailing_plain hany] at hcounts
      have hpos := List.length_pos_iff.2 hms
      omega
    · rintro (h | ⟨h, -⟩)
      · exact hms h
      · rw [hany] at h
        cases h
  | true =>
    -- the second time the flag may be set, which the gap does not see
    have hagain : seen.noteAll ms = noteAll { seen with clearAtNewline := false } ms := by
      cases hset : seen.clearAtNewline with
      | false => rw [← hset]
      | true =>
        have hafter : flagAfter false ms = true := by
          rw [← hflag, ← noteAll_flag, ← arrive_flag _ atToken, hseen, hset]
        rw [← noteAll_flagged hlaid hafter, ← hset]
    cases hclears : clears (trailing b.newlines ms) false ms with
    | false =>
      have hfew : trailing b.newlines ms < 2 := by
        apply Nat.lt_of_not_le
        intro htwo
        rw [clears_of_two_le htwo hany] at hclears
        cases hclears
      have hkept : seen.noteAll ms = _ :=
        hagain.trans (@noteAll_kept { seen with clearAtNewline := false } ms (hlines ▸ hclears))
      refine iff_of_false ?_ ?_
      · intro heq
        have hstill : (seen.noteAll ms).newlines < 2 := by
          rw [noteAll_newlines, trailing_comment hany]
          exact hfew
        rw [arrive_of_lt hstill, hkept] at heq
        have hsame : seen.comments ++ Mark.comments ms = seen.comments :=
          congrArg CommentBuffer.comments heq
        exact comments_ne_nil hany (List.append_right_eq_self.1 hsame)
      · rintro (h | ⟨-, h, -⟩)
        · exact hms h
        · rw [hclears] at h
          cases h
    | true =>
      have hfresh : seen.noteAll ms = noteAll ⟨[], 0, b.newlines, false⟩ ms := by
        rw [hagain, @noteAll_dropped { seen with clearAtNewline := false } ms (hlines ▸ hclears)]
        exact noteAll_empty hany _ _ false
      have hiff : b.Repeatable ms atToken ↔ (clears b.newlines false ms = true ∨
          (if atToken = true ∧ 2 ≤ trailing b.newlines ms then b.committed else b.comments) = []) :=
        ⟨fun h => (h.resolve_left hms).2.2, fun h => .inr ⟨hany, hclears, h⟩⟩
      rw [hiff, hfresh, ← hseen]
      cases hfirst : clears b.newlines false ms with
      | true =>
        have hdropped : b.noteAll ms = noteAll ⟨[], 0, b.newlines, false⟩ ms := by
          rw [noteAll_dropped (by rw [hflag]; exact hfirst)]
          show noteAll ⟨[], 0, b.newlines, b.clearAtNewline⟩ ms = _
          rw [hflag]
        exact iff_of_true (by rw [hdropped]) (.inl rfl)
      | false =>
        have hkept : b.noteAll ms = _ := noteAll_kept (hflag ▸ hfirst)
        rw [hkept, noteAll_kept hfirst, hflag]
        simp only [Bool.false_eq_true, false_or]
        exact arrive_behind_iff hcount

end CommentBuffer

end HeaderLex
