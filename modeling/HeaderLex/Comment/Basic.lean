import HeaderLex.Position
import HeaderLex.Text.Blank

/-!
# Comments

A comment keeps its text with the delimiters and where it starts.
-/

namespace HeaderLex

inductive CommentKind where
  /-- Between `/*` and `*/`. -/
  | block
  /-- From `//` to the end of the line. -/
  | line
deriving DecidableEq, Repr

structure Comment where
  kind : CommentKind
  /-- The text with its delimiters. -/
  text : String
  start : Position
deriving DecidableEq, Repr

namespace Comment

def isBlock (c : Comment) : Bool := c.kind == .block

def isLine (c : Comment) : Bool := c.kind == .line

/-- The text without its delimiters. -/
def body (c : Comment) : String :=
  let text := c.text.toList
  match c.kind with
  | .line => String.ofList ((Text.strip? "//".toList text).getD text)
  | .block =>
    let inner := (Text.strip? "/*".toList text).getD text
    String.ofList ((Text.stripEnd? "*/".toList inner).getD inner)

def span (c : Comment) : Except Fault Span := Span.covering c.start c.text.toList

end Comment

end HeaderLex
