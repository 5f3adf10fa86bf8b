import HeaderLex.Diagnostic.SourceError
import HeaderLex.Limits

/-!
# Raw text up to a terminator

Text that is not split into tokens runs up to a terminator or the end of the line.  A backslash
takes the next character along; quotes can hide the terminator.
-/

namespace HeaderLex

structure RawTextOptions where
  /-- A terminator inside double quotes does not end the text. -/
  respectQuotes : Bool
  /-- The terminator stays in the source. -/
  keepTerminator : Bool
deriving DecidableEq, Repr

/-- Raw text and how it ended. -/
structure RawText where
  text : List Char
  rest : List Char
  /-- The terminator was met. -/
  atTerminator : Bool
  /-- Quotes were still open. -/
  inQuotes : Bool
deriving DecidableEq, Repr

namespace RawText

/-- More text in front. -/
def prepend (front : List Char) (r : RawText) : RawText := { r with text := front ++ r.text }

/-- The raw text at the beginning of a source of which `used` bytes were read.  The limit is tested
after every step. -/
def scan (terminator : Char) (respectQuotes : Bool) (used : Nat) (inQuotes : Bool) :
    List Char → Except Cause RawText
  | [] => .ok ⟨[], [], false, inQuotes⟩
  | '\n' :: cs => .ok ⟨[], '\n' :: cs, false, inQuotes⟩
  | ['\\'] => if maxText < used + 1 then .error (.stringTooLong maxText)
    else .ok ⟨['\\'], [], false, inQuotes⟩
  | '\\' :: c :: cs =>
    let used := used + 1 + c.utf8Size
    if maxText < used then .error (.stringTooLong maxText)
    else (scan terminator respectQuotes used inQuotes cs).map (prepend ['\\', c])
  | c :: cs =>
    let quote := c == '"' && respectQuotes
    if !quote && c == terminator && !inQuotes then .ok ⟨[], c :: cs, true, false⟩
    else
      let used := used + c.utf8Size
      if maxText < used then .error (.stringTooLong maxText)
      else (scan terminator respectQuotes used (inQuotes != quote) cs).map (prepend [c])

end RawText

end HeaderLex
