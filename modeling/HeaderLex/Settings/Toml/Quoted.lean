import HeaderLex.Number.Word
import HeaderLex.Settings.Toml.Basic

/-!
# Strings

A string stands between double quotes, with escapes, or between single quotes, as it is; three
quotes make it run over lines.

* `escape`                        the character that an escape stands for;
* `basicString`, `literalString`  on one line;
* `multiline`                     over several lines; a run of quotes that is too short to close the
                                  string belongs to it, and so do up to two quotes before the
                                  closing three;
* `quoted`                        any of them.
-/

namespace HeaderLex.Toml

/-- The character with a code point in `width` hexadecimal digits. -/
def codePoint (width : Nat) : Reader Char := fun cs =>
  let digits := cs.take width
  match if digits.length = width then Number.readDigits? 16 digits else none with
  | some n => if n.isValidChar then .ok (Char.ofNat n, cs.drop width) else .error .malformed
  | none => .error .malformed

/-- The character that stands behind a backslash. -/
def escape : Reader Char
  | 'b' :: cs => .ok ('\x08', cs)
  | 't' :: cs => .ok ('\t', cs)
  | 'n' :: cs => .ok ('\n', cs)
  | 'f' :: cs => .ok ('\x0c', cs)
  | 'r' :: cs => .ok ('\r', cs)
  | '"' :: cs => .ok ('"', cs)
  | '\\' :: cs => .ok ('\\', cs)
  | 'u' :: cs => codePoint 4 cs
  | 'U' :: cs => codePoint 8 cs
  | _ => .error .malformed

/-- The rest of a basic string after its opening quote, in at most `fuel` steps. -/
def basicString : Nat → Reader (List Char)
  | 0, _ => .error .malformed
  | _ + 1, [] => .error .malformed
  | fuel + 1, c :: cs =>
    if c = '"' then .ok ([], cs)
    else if c = '\\' then do
      let (c, cs) ← escape cs
      let (text, cs) ← basicString fuel cs
      return (c :: text, cs)
    else if isControl c then .error .malformed
    else do
      let (text, cs) ← basicString fuel cs
      return (c :: text, cs)

/-- The rest of a literal string after its opening quote. -/
def literalString : Reader (List Char) := fun cs =>
  let inside := fun (c : Char) => c != '\x27' && !isControl c
  match cs.dropWhile inside with
  | '\x27' :: rest => .ok (cs.takeWhile inside, rest)
  | _ => .error .malformed

/-- The rest of a string over several lines, in at most `fuel` steps.  With `escapes`, a backslash
begins an escape, and at the end of a line it hides all blanks and new lines after it. -/
def multiline (quote : Char) (escapes : Bool) : Nat → Reader (List Char)
  | 0, _ => .error .malformed
  | _ + 1, [] => .error .malformed
  | fuel + 1, c :: cs =>
    if c = quote then
      let run := (cs.takeWhile (· == quote)).length + 1
      if run < 3 then do
        let (text, cs) ← multiline quote escapes fuel cs
        return (c :: text, cs)
      else
        let kept := min (run - 3) 2
        .ok (List.replicate kept quote, cs.drop (kept + 2))
    else if escapes && c == '\\' then
      match newline? (skipBlanks cs) with
      | some rest => multiline quote escapes fuel (skipBlankLines rest)
      | none => do
        let (c, cs) ← escape cs
        let (text, cs) ← multiline quote escapes fuel cs
        return (c :: text, cs)
    else
      match newline? (c :: cs) with
      | some rest => do
        let (text, cs) ← multiline quote escapes fuel rest
        return ('\n' :: text, cs)
      | none =>
        if isControl c then .error .malformed
        else do
          let (text, cs) ← multiline quote escapes fuel cs
          return (c :: text, cs)

/-- A new line right behind the opening quotes does not count. -/
def skipFirstNewline (cs : List Char) : List Char := (newline? cs).getD cs

/-- A string of any kind. -/
def quoted : Reader (List Char)
  | '"' :: '"' :: '"' :: cs => multiline '"' true cs.length (skipFirstNewline cs)
  | '"' :: cs => basicString cs.length cs
  | '\x27' :: '\x27' :: '\x27' :: cs => multiline '\x27' false cs.length (skipFirstNewline cs)
  | '\x27' :: cs => literalString cs
  | _ => .error .malformed

end HeaderLex.Toml
