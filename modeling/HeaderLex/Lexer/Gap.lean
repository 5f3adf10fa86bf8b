import HeaderLex.Comment.Buffer
import HeaderLex.Diagnostic.SourceError
import HeaderLex.Lexer.Cursor

/-!
# Gaps between tokens

A gap is a row of pieces: line feeds, blanks, line continuations and comments.

* `GapPiece.next?`    the piece at the beginning of a text;
* `next?_eq`          it is a nonempty prefix of the text, given by `GapPiece.text`;
* `Margin.skip`       steps over a whole gap, collecting its comments.
-/

set_option linter.unusedVariables false

namespace HeaderLex

inductive GapPiece where
  | newline
  | blank (c : Char)
  /-- A backslash before a line end, which may have a carriage return. -/
  | continuation (carriageReturn : Bool)
  /-- A line comment, without the slashes and the line end. -/
  | lineComment (body : List Char)
  /-- A block comment, without its delimiters. -/
  | blockComment (body : List Char)
deriving DecidableEq, Repr

namespace GapPiece

/-- The source text of a piece. -/
def text : GapPiece → List Char
  | newline => ['\n']
  | blank c => [c]
  | continuation false => ['\\', '\n']
  | continuation true => ['\\', '\r', '\n']
  | lineComment body => '/' :: '/' :: body
  | blockComment body => '/' :: '*' :: (body ++ ['*', '/'])

/-- Lines that end inside a piece. -/
def lines : GapPiece → Nat
  | newline => 1
  | blank _ => 0
  | continuation _ => 1
  | lineComment _ => 0
  | blockComment body => Text.newlines body

/-- The text before the first `*/` and the text after it. -/
def closeComment? : List Char → Option (List Char × List Char)
  | [] => none
  | '*' :: '/' :: cs => some ([], cs)
  | c :: cs => (closeComment? cs).map fun p => (c :: p.1, p.2)

theorem closeComment?_eq {cs body rest : List Char} (h : closeComment? cs = some (body, rest)) :
    cs = body ++ ('*' :: '/' :: rest) := by
  fun_induction closeComment? cs generalizing body with
  | case1 => simp at h
  | case2 cs => simp_all
  | case3 c cs _ ih =>
    obtain ⟨⟨b, r⟩, hp, he⟩ := Option.map_eq_some_iff.1 h
    obtain ⟨rfl, rfl⟩ := Prod.mk.inj he
    simp [← ih hp]

/-- The piece at the beginning of a text and the text after it; none where the gap ends. -/
def next? : List Char → Except Cause (Option (GapPiece × List Char))
  | [] => .ok none
  | '\n' :: cs => .ok (some (newline, cs))
  | '\\' :: '\n' :: cs => .ok (some (continuation false, cs))
  | '\\' :: '\r' :: '\n' :: cs => .ok (some (continuation true, cs))
  | '/' :: '/' :: cs =>
    .ok (some (lineComment (cs.takeWhile (· != '\n')), cs.dropWhile (· != '\n')))
  | '/' :: '*' :: cs =>
    match closeComment? cs with
    | some (body, rest) => .ok (some (blockComment body, rest))
    | none => .error .unterminatedComment
  | '*' :: '/' :: _ => .error .unexpectedCommentClose
  | c :: cs => if isLineBlank c then .ok (some (blank c, cs)) else .ok none

theorem next?_eq {cs rest : List Char} {p : GapPiece} (h : next? cs = .ok (some (p, rest))) :
    cs = p.text ++ rest := by
  revert h
  fun_cases next? cs with
  | case1 => rintro ⟨⟩
  | case2 cs | case3 cs | case4 cs =>
    rintro ⟨⟩
    rfl
  | case5 cs =>
    rintro ⟨⟩
    exact congrArg _ (congrArg _ List.takeWhile_append_dropWhile.symm)
  | case6 cs body rest hclose =>
    rintro ⟨⟩
    simp [text, closeComment?_eq hclose]
  | case7 cs hclose => rintro ⟨⟩
  | case8 cs => rintro ⟨⟩
  | case9 c cs =>
    rintro ⟨⟩
    rfl
  | case10 c cs => rintro ⟨⟩

theorem length_text_pos (p : GapPiece) : 0 < p.text.length := by
  cases p with
  | continuation b => cases b <;> exact Nat.zero_lt_succ _
  | _ => exact Nat.zero_lt_succ _

/-- The text shrinks with every piece. -/
theorem length_of_next? {cs rest : List Char} {p : GapPiece}
    (h : next? cs = .ok (some (p, rest))) : rest.length < cs.length := by
  rw [next?_eq h, List.length_append]
  have := p.length_text_pos
  omega

end GapPiece

/-- What a gap changes: the cursor, the comment buffer and the number of comments met. -/
structure Margin where
  cursor : Cursor
  comments : CommentBuffer
  commentCount : Nat
deriving DecidableEq, Repr

namespace Margin

/-- Keeps a comment that starts at the cursor. -/
def collect (m : Margin) (kind : CommentKind) (text : List Char) (inline : Bool) : Margin :=
  { m with
    comments := m.comments.add ⟨kind, String.ofList text, m.cursor.position⟩ inline
    commentCount := m.commentCount + 1 }

/-- Steps over one piece.  A line comment is kept without carriage returns at its end. -/
def pass (m : Margin) (p : GapPiece) (rest : List Char) : Margin :=
  let noted := match p with
    | .newline => { m with comments := m.comments.newline }
    | .lineComment body =>
      m.collect .line (Text.dropEndWhile (· == '\r') ('/' :: '/' :: body)) !m.cursor.atLineStart
    | .blockComment _ => m.collect .block p.text false
    | _ => m
  { noted with cursor := m.cursor.advance p.text rest p.lines }

@[simp] theorem rest_pass (m : Margin) (p : GapPiece) (rest : List Char) :
    (m.pass p rest).cursor.rest = rest := rfl

/-- Steps over the gap at the cursor.  A cause means that the gap is broken at the cursor. -/
def skip (m : Margin) : Option Cause × Margin :=
  match h : GapPiece.next? m.cursor.rest with
  | .error cause => (some cause, m)
  | .ok none =>
    (none, if m.cursor.rest.isEmpty then m else { m with comments := m.comments.reachToken })
  | .ok (some (p, rest)) => (m.pass p rest).skip
termination_by m.cursor.rest.length
decreasing_by exact GapPiece.length_of_next? h

/-- A gap only moves forward. -/
theorem length_rest_skip_le (m : Margin) :
    m.skip.2.cursor.rest.length ≤ m.cursor.rest.length := by
  fun_induction skip m with
  | case1 => exact Nat.le_refl _
  | case2 m => split <;> exact Nat.le_refl _
  | case3 m p rest h ih => exact Nat.le_trans ih (Nat.le_of_lt (GapPiece.length_of_next? h))

end Margin

end HeaderLex
