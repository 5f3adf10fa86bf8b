import HeaderLex.Position

/-!
# Cursors

A cursor stands between two characters of a source: the text before it, newest character first,
the text after it, and the position that was counted on the way.

* `Cursor.advance`       steps over a text;
* `Cursor.atLineStart`   only blanks stand before the cursor on its line.
-/

namespace HeaderLex

structure Cursor where
  /-- Characters before the cursor, the nearest first. -/
  before : List Char
  /-- Characters after the cursor. -/
  rest : List Char
  position : Position
deriving DecidableEq, Repr

/-- Blanks inside a line: space, tab, carriage return, vertical tab, form feed. -/
def isLineBlank (c : Char) : Bool :=
  c == ' ' || c == '\t' || c == '\r' || c == '\x0b' || c == '\x0c'

/-- Only blanks stand on the last line of a text given backwards. -/
def lastLineBlank (backwards : List Char) : Bool :=
  (backwards.takeWhile (· != '\n')).all isLineBlank

namespace Cursor

def ofText (text : List Char) : Cursor := ⟨[], text, Position.start⟩

/-- The cursor after `text`, with `rest` after it, having counted some lines. -/
def advance (c : Cursor) (text rest : List Char) (lines : Nat) : Cursor where
  before := text.reverse ++ c.before
  rest := rest
  position := ⟨c.position.offset + Text.byteLength text, c.position.line + lines⟩

@[simp] theorem rest_advance (c : Cursor) (text rest : List Char) (lines : Nat) :
    (c.advance text rest lines).rest = rest := rfl

def atLineStart (c : Cursor) : Bool := lastLineBlank c.before

end Cursor

end HeaderLex
