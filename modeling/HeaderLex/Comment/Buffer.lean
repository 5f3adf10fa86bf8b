import HeaderLex.Comment.Basic

/-!
# Comment buffers

Comments collected in front of a token wait until the token is consumed; only then does the reader
see them.  A blank line, a block comment or a comment after code on the same line separates them
from what was collected before.

* `CommentBuffer.add`         a comment is met;
* `CommentBuffer.newline`     a line ends outside comments and continuations;
* `CommentBuffer.commit`      a token is consumed;
* `CommentBuffer.committed`   what the reader sees.
-/

namespace HeaderLex

structure CommentBuffer where
  /-- All collected comments, oldest first. -/
  comments : List Comment
  /-- How many of them the reader sees. -/
  committedCount : Nat
  /-- Lines ended since the last comment.  The counter of the program has 32 bits; only a gap with 2³²
  line ends, in a source of 4 GiB, tells it from this unbounded one. -/
  newlines : Nat
  /-- The next line end drops everything. -/
  clearAtNewline : Bool
deriving DecidableEq, Repr

namespace CommentBuffer

def empty : CommentBuffer := ⟨[], 0, 0, false⟩

/-- Drops every comment. -/
def clear (b : CommentBuffer) : CommentBuffer := { b with comments := [], committedCount := 0 }

/-- Drops the comments that the reader does not see yet. -/
def clearPending (b : CommentBuffer) : CommentBuffer :=
  { b with comments := b.comments.take b.committedCount }

/-- Shows every comment to the reader. -/
def commit (b : CommentBuffer) : CommentBuffer := { b with committedCount := b.comments.length }

/-- The comments that the reader sees. -/
def committed (b : CommentBuffer) : List Comment := b.comments.take b.committedCount

/-- A line ends outside comments and continuations. -/
def newline (b : CommentBuffer) : CommentBuffer :=
  let b := { b with newlines := b.newlines + 1 }
  if b.clearAtNewline then { b.clear with clearAtNewline := false } else b

/-- A comment separates itself from the ones before it: a block comment always, a line comment
after a blank line. -/
def separates (b : CommentBuffer) (kind : CommentKind) : Bool :=
  match kind with
  | .block => true
  | .line => decide (2 ≤ b.newlines)

/-- A comment is met; `inline` says that code stands before it on its line. -/
def add (b : CommentBuffer) (comment : Comment) (inline : Bool) : CommentBuffer :=
  let b := if b.separates comment.kind then b.clear else b
  { b with
    comments := b.comments ++ [comment]
    newlines := 0
    clearAtNewline := b.clearAtNewline || inline }

/-- A token begins: a blank line before it drops the comments that the reader does not see. -/
def reachToken (b : CommentBuffer) : CommentBuffer :=
  if 2 ≤ b.newlines then b.clearPending else b

end CommentBuffer

end HeaderLex
