import Mathlib.Order.Bounds.Basic
import HeaderLex.Proofs.Marks
import HeaderLex.Proofs.Run
import HeaderLex.Proofs.Yield

/-!
# Which comments belong to a token

The reader of a token sees the comments in front of it, up to a cut: a block comment, a blank line or
a comment after code drops what stands before.  A buffer finds out the last cut while the gap is
skipped, from the line ends since the last comment and a flag for the next line end.

* `rowComments`         the comments of a row of gap pieces, where they start;
* `Cut`                 where the comments of a row are cut by one of them;
* `TokenCut`            the same for a row in front of a token;
* `CommentBuffer.Gathers`   what a buffer holds behind a row, kept by each piece;
* `Margin.Behind`       a gap that was skipped up to the end of a row;
* `comments_of_first_token`   the reader of the first token sees what the last cut leaves.
-/

namespace HeaderLex

/-! ## the comments of a row -/

/-- The position behind a text at the beginning of a source. -/
def Position.behind (text : List Char) : Position :=
  ⟨Text.byteLength text, Text.newlines text + 1⟩

namespace GapPiece

def isComment : GapPiece → Bool
  | lineComment _ | blockComment _ => true
  | newline | blank _ | continuation _ => false

/-- The comment that a piece is, behind a text.  A line comment ends before carriage returns at the
end of its line. -/
def comment? (before : List Char) : GapPiece → Option Comment
  | lineComment body => some
      ⟨.line, String.ofList (Text.dropEndWhile (· == '\r') ('/' :: '/' :: body)), .behind before⟩
  | blockComment body => some ⟨.block, String.ofList (blockComment body).text, .behind before⟩
  | newline | blank _ | continuation _ => none

theorem comment?_eq_none {p : GapPiece} (h : p.isComment = false) (before : List Char) :
    p.comment? before = none := by
  cases p with
  | lineComment body => cases h
  | blockComment body => cases h
  | _ => rfl

end GapPiece

/-- The comments of a row behind a text, oldest first. -/
def commentsBehind : List Char → List GapPiece → List Comment
  | _, [] => []
  | before, p :: row => (p.comment? before).toList ++ commentsBehind (before ++ p.text) row

/-- The comments of a row at the beginning of a source. -/
def rowComments (row : List GapPiece) : List Comment := commentsBehind [] row

/-- The lines that ended since the last comment of a row, outside comments and continuations. -/
def linesSinceComment (row : List GapPiece) : Nat :=
  (row.reverse.takeWhile fun p => !p.isComment).count .newline

variable {front row : List GapPiece} {p : GapPiece} {k : Nat}

theorem rowText_concat (front : List GapPiece) (p : GapPiece) :
    rowText (front ++ [p]) = rowText front ++ p.text := by
  rw [rowText_append]
  show rowText front ++ (p.text ++ []) = _
  rw [List.append_nil]

theorem commentsBehind_concat (before : List Char) (front : List GapPiece) (p : GapPiece) :
    commentsBehind before (front ++ [p])
      = commentsBehind before front ++ (p.comment? (before ++ rowText front)).toList := by
  induction front generalizing before with
  | nil =>
    show (p.comment? before).toList ++ [] = [] ++ (p.comment? (before ++ [])).toList
    rw [List.append_nil, List.append_nil, List.nil_append]
  | cons q front ih =>
    show (q.comment? before).toList ++ commentsBehind (before ++ q.text) (front ++ [p])
      = ((q.comment? before).toList ++ commentsBehind (before ++ q.text) front)
        ++ (p.comment? (before ++ (q.text ++ rowText front))).toList
    rw [ih, List.append_assoc, List.append_assoc]

theorem rowComments_concat (front : List GapPiece) (p : GapPiece) :
    rowComments (front ++ [p]) = rowComments front ++ (p.comment? (rowText front)).toList :=
  commentsBehind_concat [] front p

theorem rowComments_quiet (h : p.isComment = false) :
    rowComments (front ++ [p]) = rowComments front := by
  rw [rowComments_concat, GapPiece.comment?_eq_none h]
  exact List.append_nil _

theorem linesSinceComment_quiet (h : p.isComment = false) :
    linesSinceComment (front ++ [p]) = linesSinceComment front + [p].count .newline := by
  unfold linesSinceComment
  rw [List.reverse_append, List.reverse_singleton, List.singleton_append,
    List.takeWhile_cons_of_pos (by rw [h]; rfl), List.count_cons, List.count_cons, List.count_nil,
    Nat.zero_add]

theorem linesSinceComment_comment (h : p.isComment = true) : linesSinceComment (front ++ [p]) = 0 := by
  unfold linesSinceComment
  rw [List.reverse_append, List.reverse_singleton, List.singleton_append,
    List.takeWhile_cons_of_neg (by rw [h]; exact Bool.false_ne_true)]
  rfl

/-! ## cuts -/

/-- How many comments, of those in front of it and its own, a piece drops. -/
inductive GapPiece.Cuts (front : List GapPiece) : GapPiece → Nat → Prop
  /-- A block comment drops the comments before it. -/
  | block (body : List Char) : Cuts front (.blockComment body) (rowComments front).length
  /-- So does a line comment behind a blank line. -/
  | apart (body : List Char) : 2 ≤ linesSinceComment front →
      Cuts front (.lineComment body) (rowComments front).length
  /-- A line comment after something other than blanks on its line drops itself, too. -/
  | inline (body : List Char) : lastLineBlank (rowText front).reverse = false →
      Cuts front (.lineComment body) ((rowComments front).length + 1)

/-- So many comments of a row are dropped for the sake of one of them, or none. -/
inductive Cut (row : List GapPiece) : Nat → Prop
  | none : Cut row 0
  | comment {front back : List GapPiece} {p : GapPiece} {k : Nat} :
      row = front ++ p :: back → p.Cuts front k → Cut row k

/-- In front of a token a blank line drops all comments of the row. -/
inductive TokenCut (row : List GapPiece) : Nat → Prop
  | inside {k : Nat} : Cut row k → TokenCut row k
  | blankLine : 2 ≤ linesSinceComment row → TokenCut row (rowComments row).length

theorem cut_concat_iff : Cut (front ++ [p]) k ↔ Cut front k ∨ p.Cuts front k := by
  constructor
  · intro h
    cases h with
    | none => exact .inl .none
    | @comment before back q _ hsplit hcuts =>
      rcases List.eq_nil_or_concat back with rfl | ⟨back, last, rfl⟩
      · obtain ⟨rfl, hlast⟩ := List.append_inj' hsplit rfl
        obtain rfl := List.singleton_inj.1 hlast
        exact .inr hcuts
      · have hsplit' : front ++ [p] = (before ++ q :: back) ++ [last] := by
          rw [hsplit, List.concat_eq_append, List.append_assoc, List.cons_append]
        exact .inl (.comment (List.append_inj' hsplit' rfl).1 hcuts)
  · rintro (h | h)
    · cases h with
      | none => exact .none
      | @comment before back q _ hsplit hcuts =>
        have hsplit' : front ++ [p] = before ++ q :: (back ++ [p]) := by
          rw [hsplit, List.append_assoc, List.cons_append]
        exact .comment hsplit' hcuts
    · exact .comment rfl h

theorem cut_quiet_iff (h : p.isComment = false) : Cut (front ++ [p]) k ↔ Cut front k := by
  rw [cut_concat_iff]
  refine or_iff_left ?_
  rintro (_ | _ | _) <;> cases h

/-- The last cut of a row. -/
structure LastCut (row : List GapPiece) (k : Nat) : Prop where
  greatest : IsGreatest {j | Cut row j} k
  le_length : k ≤ (rowComments row).length

theorem lastCut_nil : LastCut [] 0 := by
  refine ⟨⟨.none, ?_⟩, Nat.le_refl 0⟩
  rintro j (_ | ⟨hsplit, _⟩)
  · exact Nat.le_refl 0
  · exact absurd hsplit (List.append_ne_nil_of_right_ne_nil _ (List.cons_ne_nil _ _)).symm

theorem LastCut.quiet (h : LastCut front k) (hp : p.isComment = false) :
    LastCut (front ++ [p]) k where
  greatest := by
    have hcuts : {j | Cut (front ++ [p]) j} = {j | Cut front j} :=
      Set.ext fun _ => cut_quiet_iff hp
    rw [hcuts]
    exact h.greatest
  le_length := by
    rw [rowComments_quiet hp]
    exact h.le_length

variable {c : Comment}

theorem rowComments_comment (hc : p.comment? (rowText front) = some c) :
    rowComments (front ++ [p]) = rowComments front ++ [c] := by
  rw [rowComments_concat, hc]
  rfl

/-- A comment that drops something drops at least what stands before it. -/
theorem GapPiece.Cuts.bounds {j : Nat} (h : p.Cuts front j) :
    (rowComments front).length ≤ j ∧ j ≤ (rowComments front).length + 1 := by
  cases h with
  | inline => exact ⟨Nat.le_succ _, Nat.le_refl _⟩
  | _ => exact ⟨Nat.le_refl _, Nat.le_succ _⟩

theorem LastCut.comment {j : Nat} (h : LastCut front k)
    (hc : p.comment? (rowText front) = some c) (hcuts : p.Cuts front j)
    (hmost : ∀ i, p.Cuts front i → i ≤ j) : LastCut (front ++ [p]) j where
  greatest := by
    refine ⟨cut_concat_iff.2 (.inr hcuts), ?_⟩
    intro i hi
    rcases cut_concat_iff.1 hi with hi | hi
    · exact ((h.greatest.2 hi).trans h.le_length).trans hcuts.bounds.1
    · exact hmost i hi
  le_length := by
    rw [rowComments_comment hc, List.length_append]
    exact hcuts.bounds.2

/-- A comment that drops nothing leaves the last cut where it was. -/
theorem LastCut.kept (h : LastCut front k) (hc : p.comment? (rowText front) = some c)
    (hnone : ∀ i, ¬ p.Cuts front i) : LastCut (front ++ [p]) k where
  greatest := by
    refine ⟨cut_concat_iff.2 (.inl h.greatest.1), ?_⟩
    intro i hi
    exact h.greatest.2 ((cut_concat_iff.1 hi).resolve_right (hnone i))
  le_length := by
    rw [rowComments_comment hc, List.length_append]
    exact h.le_length.trans (Nat.le_add_right _ _)

/-! ## what a buffer holds -/

namespace CommentBuffer

variable {b : CommentBuffer}

/-- Behind a row a buffer holds what the last cut leaves.  A comment after code has not dropped
anything before the line ends. -/
structure Gathers (b : CommentBuffer) (front : List GapPiece) : Prop where
  hidden : b.committedCount = 0
  lines : b.newlines = linesSinceComment front
  kept : ∃ k, LastCut front k ∧
    (if b.clearAtNewline then [] else b.comments) = (rowComments front).drop k

theorem add_eq (b : CommentBuffer) (c : Comment) (inline : Bool) :
    b.add c inline = ⟨(if b.separates c.kind then [] else b.comments) ++ [c],
      if b.separates c.kind then 0 else b.committedCount, 0, b.clearAtNewline || inline⟩ := by
  unfold add
  dsimp only
  split <;> rfl

theorem gathers_empty : empty.Gathers [] := ⟨rfl, rfl, 0, lastCut_nil, rfl⟩

namespace Gathers

theorem newline (h : b.Gathers front) : b.newline.Gathers (front ++ [.newline]) := by
  obtain ⟨k, hlast, hkept⟩ := h.kept
  have hlines : b.newlines + 1 = linesSinceComment (front ++ [.newline]) := by
    rw [linesSinceComment_quiet rfl, h.lines]
    rfl
  rw [← @rowComments_quiet front .newline rfl] at hkept
  unfold CommentBuffer.newline
  dsimp only
  split
  · next hflag =>
    rw [if_pos hflag] at hkept
    exact ⟨rfl, hlines, k, hlast.quiet rfl, hkept⟩
  · exact ⟨h.hidden, hlines, k, hlast.quiet rfl, hkept⟩

theorem quiet (h : b.Gathers front) (hp : p.isComment = false) (hline : p ≠ .newline) :
    b.Gathers (front ++ [p]) := by
  obtain ⟨k, hlast, hkept⟩ := h.kept
  refine ⟨h.hidden, ?_, k, hlast.quiet hp, ?_⟩
  · rw [linesSinceComment_quiet hp, h.lines, List.count_singleton, if_neg (by simpa using hline)]
    rfl
  · rw [rowComments_quiet hp]
    exact hkept

theorem blockComment {body : List Char} (h : b.Gathers front) (hcalm : b.clearAtNewline = false)
    (hc : (GapPiece.blockComment body).comment? (rowText front) = some c) :
    (b.add c false).Gathers (front ++ [.blockComment body]) := by
  obtain ⟨k, hlast, -⟩ := h.kept
  have hkind : b.separates c.kind = true := by
    obtain rfl := Option.some.inj hc
    rfl
  rw [add_eq, hkind, hcalm]
  refine ⟨rfl, (linesSinceComment_comment rfl).symm, (rowComments front).length, ?_, ?_⟩
  · refine hlast.comment hc (.block body) ?_
    rintro i (_ | _ | _)
    exact Nat.le_refl _
  · rw [rowComments_comment hc, List.drop_left]
    rfl

theorem lineComment {body : List Char} (h : b.Gathers front) (hcalm : b.clearAtNewline = false)
    (hc : (GapPiece.lineComment body).comment? (rowText front) = some c) :
    (b.add c (!lastLineBlank (rowText front).reverse)).Gathers (front ++ [.lineComment body]) := by
  obtain ⟨k, hlast, hkept⟩ := h.kept
  rw [if_neg (by rw [hcalm]; exact Bool.false_ne_true)] at hkept
  have hkind : b.separates c.kind = decide (2 ≤ linesSinceComment front) := by
    obtain rfl := Option.some.inj hc
    rw [← h.lines]
    rfl
  have hlines := (@linesSinceComment_comment front (.lineComment body) rfl).symm
  rw [add_eq, hkind, hcalm, h.hidden, ite_self, Bool.false_or]
  cases hblank : lastLineBlank (rowText front).reverse with
  | false =>
    refine ⟨rfl, hlines, (rowComments front).length + 1, ?_, ?_⟩
    · exact hlast.comment hc (.inline body hblank) fun i hi => hi.bounds.2
    · have hall : (rowComments front ++ [c]).length ≤ (rowComments front).length + 1 := by
        rw [List.length_append, List.length_singleton]
      rw [rowComments_comment hc, List.drop_eq_nil_of_le hall]
      rfl
  | true =>
    by_cases htwo : 2 ≤ linesSinceComment front
    · refine ⟨rfl, hlines, (rowComments front).length, ?_, ?_⟩
      · refine hlast.comment hc (.apart body htwo) ?_
        rintro i (_ | _ | ⟨_, hcode⟩)
        · exact Nat.le_refl _
        · rw [hblank] at hcode
          cases hcode
      · rw [rowComments_comment hc, List.drop_left, decide_eq_true htwo]
        rfl
    · refine ⟨rfl, hlines, k, ?_, ?_⟩
      · refine hlast.kept hc ?_
        rintro i (_ | ⟨_, hapart⟩ | ⟨_, hcode⟩)
        · exact htwo hapart
        · rw [hblank] at hcode
          cases hcode
      · rw [rowComments_comment hc, List.drop_append_of_le_length hlast.le_length, ← hkept,
          decide_eq_false htwo]
        rfl

/-- In front of a token the buffer holds what the last cut leaves there. -/
theorem reachToken (h : b.Gathers row) (hcalm : b.clearAtNewline = false) :
    ∃ k, IsGreatest {j | TokenCut row j} k ∧ b.reachToken.comments = (rowComments row).drop k := by
  obtain ⟨k, hlast, hkept⟩ := h.kept
  rw [if_neg (by rw [hcalm]; exact Bool.false_ne_true)] at hkept
  unfold CommentBuffer.reachToken
  rw [h.lines]
  split
  · next htwo =>
    refine ⟨(rowComments row).length, ⟨.blankLine htwo, ?_⟩, ?_⟩
    · rintro j (hj | _)
      · exact (hlast.greatest.2 hj).trans hlast.le_length
      · exact Nat.le_refl _
    · show b.comments.take b.committedCount = _
      rw [h.hidden, List.take_zero, List.drop_length]
  · next hfew =>
    refine ⟨k, ⟨.inside hlast.greatest.1, ?_⟩, hkept⟩
    rintro j (hj | htwo)
    · exact hlast.greatest.2 hj
    · exact absurd htwo hfew

end Gathers

end CommentBuffer

/-! ## the run over a gap -/

namespace Margin

variable {m : Margin} {rest : List Char}

/-- The gap was skipped from the beginning of the source up to the end of a row. -/
structure Behind (m : Margin) (front : List GapPiece) : Prop where
  before : m.cursor.before = (rowText front).reverse
  position : m.cursor.position = .behind (rowText front)
  /-- Only a line end follows a comment that is to be dropped there. -/
  pending : m.comments.clearAtNewline = true → ∀ c ∈ m.cursor.rest.head?, c = '\n'
  gathers : m.comments.Gathers front

namespace Behind

theorem ofText (text : List Char) (count : Nat) :
    Behind ⟨Cursor.ofText text, .empty, count⟩ [] :=
  ⟨rfl, rfl, fun h => (Bool.false_ne_true h).elim, CommentBuffer.gathers_empty⟩

/-- Nothing is to be dropped unless a line feed follows. -/
theorem calm (h : m.Behind front) {a : Char} {cs : List Char} (hrest : m.cursor.rest = a :: cs)
    (ha : a ≠ '\n') : m.comments.clearAtNewline = false := by
  cases hflag : m.comments.clearAtNewline with
  | false => rfl
  | true => exact absurd (h.pending hflag a (by rw [hrest]; rfl)) ha

theorem calm_piece (h : m.Behind front) (hstands : p.Stands rest)
    (hrest : m.cursor.rest = p.text ++ rest) (hp : p ≠ .newline) :
    m.comments.clearAtNewline = false := by
  cases p with
  | newline => exact absurd rfl hp
  | blank a =>
    refine h.calm hrest ?_
    rintro rfl
    have hblank : isLineBlank '\n' = true := hstands
    exact absurd hblank (by decide)
  | continuation carriageReturn => cases carriageReturn <;> exact h.calm hrest (by decide)
  | lineComment body => exact h.calm hrest (by decide)
  | blockComment body => exact h.calm hrest (by decide)

/-- One more piece. -/
theorem pass (h : m.Behind front) (hstands : p.Stands rest)
    (hrest : m.cursor.rest = p.text ++ rest) : (m.pass p rest).Behind (front ++ [p]) := by
  have hbefore : (m.pass p rest).cursor.before = (rowText (front ++ [p])).reverse := by
    rw [cursor_pass, rowText_concat, List.reverse_append, ← h.before]
    rfl
  have hposition : (m.pass p rest).cursor.position = .behind (rowText (front ++ [p])) := by
    rw [cursor_pass, rowText_concat]
    show Position.mk (m.cursor.position.offset + _) (m.cursor.position.line + p.lines) = _
    rw [h.position, GapPiece.lines_eq hstands]
    unfold Position.behind
    rw [Text.byteLength_append, Text.newlines_append, Nat.add_right_comm]
  have hcalm := h.calm_piece hstands hrest
  cases p with
  | newline =>
    have hflag : m.comments.newline.clearAtNewline = false := m.comments.noteAll_flag [.newline]
    exact ⟨hbefore, hposition, fun hset => absurd (hset.symm.trans hflag) (by decide),
      h.gathers.newline⟩
  | blank a =>
    have hflag := hcalm (by rintro ⟨⟩)
    exact ⟨hbefore, hposition, fun hset => absurd (hset.symm.trans hflag) (by decide),
      h.gathers.quiet rfl (by rintro ⟨⟩)⟩
  | continuation carriageReturn =>
    have hflag := hcalm (by rintro ⟨⟩)
    exact ⟨hbefore, hposition, fun hset => absurd (hset.symm.trans hflag) (by decide),
      h.gathers.quiet rfl (by rintro ⟨⟩)⟩
  | lineComment body =>
    refine ⟨hbefore, hposition, fun _ => hstands.2, ?_⟩
    rw [comments_pass]
    show (m.comments.add ⟨_, _, m.cursor.position⟩ !lastLineBlank m.cursor.before).Gathers _
    rw [h.position, h.before]
    exact h.gathers.lineComment (hcalm (by rintro ⟨⟩)) rfl
  | blockComment body =>
    have hflag := hcalm (by rintro ⟨⟩)
    refine ⟨hbefore, hposition, ?_, ?_⟩
    · rw [comments_pass]
      show (m.comments.add _ false).clearAtNewline = true → _
      rw [CommentBuffer.add_eq, hflag]
      exact fun hset => (Bool.false_ne_true hset).elim
    · rw [comments_pass]
      show (m.comments.add ⟨_, _, m.cursor.position⟩ false).Gathers _
      rw [h.position]
      exact h.gathers.blockComment hflag rfl

/-- A whole row more. -/
theorem skip {after : List Char} (h : m.Behind front) (hrow : IsRow row after)
    (hrest : m.cursor.rest = rowText row ++ after) :
    ∃ n : Margin, n.Behind (front ++ row) ∧ n.cursor.rest = after ∧ m.skip = n.skip := by
  induction row generalizing m front with
  | nil =>
    rw [List.append_nil]
    exact ⟨m, h, hrest, rfl⟩
  | cons p ps ih =>
    have hsplit : m.cursor.rest = p.text ++ (rowText ps ++ after) := by
      rw [hrest, ← List.append_assoc]
      rfl
    have hnext : GapPiece.next? m.cursor.rest = .ok (some (p, rowText ps ++ after)) := by
      rw [hsplit]
      exact GapPiece.next?_text hrow.1
    obtain ⟨n, hn, hafter, hskip⟩ := ih (h.pass hrow.1 hsplit) hrow.2 rfl
    rw [List.append_assoc] at hn
    exact ⟨n, hn, hafter, (skip_piece hnext).trans hskip⟩

end Behind

/-- What is left of the comments of a row in front of a token. -/
theorem comments_skip_row {text cs : List Char} {a : Char} (count : Nat)
    (htext : text = rowText row ++ a :: cs) (hrow : IsRow row (a :: cs))
    (hnone : GapPiece.next? (a :: cs) = .ok none) :
    ∃ k, IsGreatest {j | TokenCut row j} k ∧
      (skip ⟨Cursor.ofText text, .empty, count⟩).2.comments.comments = (rowComments row).drop k := by
  obtain ⟨n, hn, hafter, hskip⟩ := (Behind.ofText text count).skip hrow htext
  have hcalm := hn.calm hafter (GapPiece.next?_none_iff.1 hnone).2.1
  obtain ⟨k, hgreatest, hkept⟩ := hn.gathers.reachToken hcalm
  refine ⟨k, hgreatest, ?_⟩
  rw [hskip, skip_none (by rw [hafter]; exact hnone), hafter]
  exact hkept

end Margin

/-! ## the first token of a source -/

/-- After the first token of a source its reader sees the comments in front of it behind the last
cut: a block comment and a line comment behind a blank line drop those before them, a line comment
after something other than blanks drops itself too, and a blank line in front of the token drops
all. -/
theorem comments_of_first_token (source : String) (preferences : LexicalPreferences)
    {row : List GapPiece} {a : Char} {cs : List Char} {l : Lexeme}
    (htext : source.toList = rowText row ++ a :: cs) (hrow : IsRow row (a :: cs))
    (hnone : GapPiece.next? (a :: cs) = .ok none) (hscan : Lexeme.scan a cs = .ok l) :
    (Lexer.ofSource source preferences).next.result
      = .ok ⟨l.kind, String.ofList l.text, .behind (rowText row), .start⟩ ∧
    ∃ k, IsGreatest {j | TokenCut row j} k ∧
      (Lexer.ofSource source preferences).next.state.comments.committed
        = (rowComments row).drop k := by
  obtain ⟨hpeek, hstate⟩ := @Lexer.peek_of_row (Lexer.ofSource source preferences) row a cs l
    (Lexer.ahead_of_bare rfl) rfl hrow htext hnone hscan
  obtain ⟨k, hgreatest, hkept⟩ := Margin.comments_skip_row 0 htext hrow hnone
  rw [Lexer.next_of_ok hpeek, hstate]
  refine ⟨?_, k, hgreatest, ?_⟩
  · show Except.ok (Token.mk _ _ ⟨0 + _, 1 + rowLines row⟩ _) = _
    rw [rowLines_eq hrow, Nat.zero_add, Nat.add_comm 1]
    rfl
  · rw [← hkept]
    exact List.take_length

/-- Of five comments the last two are left: the second one stands after the first on its line, and a
blank line separates the third one from the fourth. -/
theorem comments_of_first_token_sample :
    let source := "/* a */ // b\n// c\n\n// d\r\n\\\n// e\nx"
    let row : List GapPiece := [.blockComment " a ".toList, .blank ' ', .lineComment " b".toList,
      .newline, .lineComment " c".toList, .newline, .newline, .lineComment " d\r".toList, .newline,
      .continuation false, .lineComment " e".toList, .newline]
    let lx := Lexer.ofSource source ⟨true, false, false, true⟩
    source.toList = rowText row ++ ['x'] ∧ IsRow row ['x'] ∧
      lx.next.result = .ok ⟨.identifier, "x", .behind (rowText row), .start⟩ ∧
      lx.next.state.comments.committed.map (·.text) = ["// d", "// e"] ∧
      IsGreatest {j | TokenCut row j} 3 := by
  intro source row lx
  have htext : source.toList = rowText row ++ ['x'] := by decide +kernel
  have hrow : IsRow row ['x'] := by decide +kernel
  obtain ⟨htoken, k, hgreatest, hkept⟩ := comments_of_first_token source ⟨true, false, false, true⟩
    htext hrow rfl (show Lexeme.scan 'x' [] = .ok ⟨.identifier, ['x'], [], 0⟩ by decide)
  have hleft : lx.next.state.comments.committed.map (·.text) = ["// d", "// e"] := by decide +kernel
  have hk : k = 3 := by
    have hlength := congrArg List.length hleft
    rw [List.length_map, hkept, List.length_drop] at hlength
    have hfive : (rowComments row).length = 5 := by decide +kernel
    rw [hfive] at hlength
    have htwo : 5 - k = 2 := hlength
    omega
  rw [hk] at hgreatest
  exact ⟨htext, hrow, htoken, hleft, hgreatest⟩

end HeaderLex
