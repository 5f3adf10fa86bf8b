/-!
# The text of a TOML document

* `Problem`    why a settings file is refused;
* `Reader`     takes the beginning of a text and gives the text after it;
* `newline?`   a line feed, or a carriage return with one;
* `skipBlanks`, `skipGap`   what may stand between the parts of a line, and between lines.
-/

namespace HeaderLex.Toml

inductive Problem where
  /-- The text is not TOML. -/
  | malformed
  /-- A key or a table is defined twice. -/
  | redefined
  /-- A setting has a value of another type. -/
  | wrongType
deriving DecidableEq, Repr

/-- A reader takes the beginning of a text and gives the text after it. -/
abbrev Reader (α : Type) := List Char → Except Problem (α × List Char)

def isInnerBlank (c : Char) : Bool := c == ' ' || c == '\t'

/-- Characters that may not stand in comments and strings. -/
def isControl (c : Char) : Bool := (c.toNat < 0x20 && c != '\t') || c.toNat == 0x7F

def skipBlanks (cs : List Char) : List Char := cs.dropWhile isInnerBlank

/-- The text after a new line. -/
def newline? : List Char → Option (List Char)
  | '\n' :: cs => some cs
  | '\r' :: '\n' :: cs => some cs
  | _ => none

/-- The text after blanks and new lines. -/
def skipBlankLines : List Char → List Char
  | '\r' :: '\n' :: cs => skipBlankLines cs
  | c :: cs => if isInnerBlank c || c == '\n' then skipBlankLines cs else c :: cs
  | [] => []

/-- The text after blanks, new lines and comments; `comment` says whether a comment has begun.  A
comment stops at a character that may not stand in it. -/
def skipGap (comment : Bool) : List Char → List Char
  | '\n' :: cs => skipGap false cs
  | '\r' :: '\n' :: cs => skipGap false cs
  | c :: cs =>
    if comment then
      if isControl c then c :: cs else skipGap true cs
    else if c == '#' then skipGap true cs
    else if isInnerBlank c then skipGap false cs
    else c :: cs
  | [] => []

/-- Nothing but a comment stands on the rest of the line. -/
def atLineEnd (cs : List Char) : Bool :=
  match skipBlanks cs with
  | [] => true
  | '#' :: _ => true
  | cs => (newline? cs).isSome

end HeaderLex.Toml
