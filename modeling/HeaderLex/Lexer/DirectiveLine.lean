import HeaderLex.Lexer.Cursor
import HeaderLex.Preprocessor.Directive
import HeaderLex.Text.Blank

/-!
# Directive lines

After a `#` at the beginning of a line stand the name of a directive and its arguments, up to a
comment or the end of the line.

* `DirectiveLine.arguments`   the arguments and the text after them;
* `DirectiveLine.read`        the directive and the cursor after its line.
-/

namespace HeaderLex.DirectiveLine

def isInnerBlank (c : Char) : Bool := c == ' ' || c == '\t'

/-- The arguments at the beginning of a text, the text after them, and the lines that end in them.
A comment ends the arguments unless it stands in quotes; a backslash outside quotes continues the
line.  Inside quotes a backslash keeps the next character from ending them, except a line end. -/
def arguments (quoted : Bool) (cs : List Char) : List Char × List Char × Nat :=
  match quoted, cs with
  | _, [] => ([], [], 0)
  | _, '\n' :: cs => ([], '\n' :: cs, 0)
  | false, '/' :: '/' :: cs => ([], '/' :: '/' :: cs, 0)
  | false, '/' :: '*' :: cs => ([], '/' :: '*' :: cs, 0)
  | false, '\\' :: '\n' :: cs =>
    let (text, rest, lines) := arguments false cs
    ('\\' :: '\n' :: text, rest, lines + 1)
  | true, '\\' :: '\n' :: cs => (['\\'], '\n' :: cs, 0)
  | true, '\\' :: c :: cs =>
    let (text, rest, lines) := arguments true cs
    ('\\' :: c :: text, rest, lines)
  | quoted, c :: cs =>
    let (text, rest, lines) := arguments (quoted != (c == '"')) cs
    (c :: text, rest, lines)

theorem arguments_append (quoted : Bool) (cs : List Char) :
    (arguments quoted cs).1 ++ (arguments quoted cs).2.1 = cs := by
  fun_induction arguments quoted cs <;> simp_all

/-- The end of the line at the beginning of a text, and the text after it. -/
def splitNewline : List Char → List Char × List Char
  | '\n' :: cs => (['\n'], cs)
  | cs => ([], cs)

/-- Reads the line after its `#` token.  The line end belongs to it. -/
def read (hash : Token) (c : Cursor) : Directive × Cursor :=
  let blanks := c.rest.takeWhile isInnerBlank
  let cs := c.rest.dropWhile isInnerBlank
  let name := cs.takeWhile isNameChar
  let (text, cs, lines) := arguments false (cs.dropWhile isNameChar)
  let (newline, cs) := splitNewline cs
  (⟨hash, String.ofList name, String.ofList (Text.trim text)⟩,
    c.advance (blanks ++ name ++ text ++ newline) cs (lines + newline.length))

private theorem length_splitNewline_le (cs : List Char) :
    (splitNewline cs).2.length ≤ cs.length := by
  unfold splitNewline
  split
  · exact Nat.le_succ _
  · exact Nat.le_refl _

/-- A directive line only moves forward. -/
theorem length_rest_read_le (hash : Token) (c : Cursor) :
    (read hash c).2.rest.length ≤ c.rest.length := by
  have h := congrArg List.length
    (arguments_append false ((c.rest.dropWhile isInnerBlank).dropWhile isNameChar))
  rw [List.length_append] at h
  have h₁ := (@List.dropWhile_sublist _ (c.rest.dropWhile isInnerBlank) isNameChar).length_le
  have h₂ := (@List.dropWhile_sublist _ c.rest isInnerBlank).length_le
  exact Nat.le_trans (length_splitNewline_le _) (Nat.le_trans (Nat.le_add_left _ _)
    (h ▸ Nat.le_trans h₁ h₂))

end HeaderLex.DirectiveLine
