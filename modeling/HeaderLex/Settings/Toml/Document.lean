import HeaderLex.Settings.Toml.Numeral
import HeaderLex.Settings.Toml.Quoted

/-!
# TOML documents

* `key`       the parts of a dotted key;
* `value`     a value of any type;
* `Draft`     the tables so far, and the one whose keys are being defined;
* `document`  the root table of a text.
-/

namespace HeaderLex.Toml

/-- The most parts of a key, and the deepest nesting of arrays and inline tables. -/
def depthLimit : Nat := 79

def isBareKeyChar (c : Char) : Bool := c.isAlphanum || c == '_' || c == '-'

/-- One part of a key: bare, or quoted on one line. -/
def keyPart : Reader String
  | '"' :: cs => do
    let (text, rest) ← basicString cs.length cs
    return (String.ofList text, rest)
  | '\x27' :: cs => do
    let (text, rest) ← literalString cs
    return (String.ofList text, rest)
  | cs =>
    let text := cs.takeWhile isBareKeyChar
    if text.isEmpty then .error .malformed
    else .ok (String.ofList text, cs.dropWhile isBareKeyChar)

/-- A key of at most `parts` parts with dots between them, and blanks around each. -/
def key : Nat → Reader (List String)
  | 0, _ => .error .malformed
  | parts + 1, cs => do
    let (part, cs) ← keyPart (skipBlanks cs)
    match skipBlanks cs with
    | '.' :: cs => do
      let (path, cs) ← key parts cs
      return (part :: path, cs)
    | cs => return ([part], cs)

/-- The values of an array up to its closing bracket, in at most `fuel` of them.  A comma may follow
the last. -/
def arrayItems (element : Reader Item) : Nat → Reader (List Item)
  | 0, _ => .error .malformed
  | fuel + 1, cs =>
    match skipGap false cs with
    | ']' :: rest => .ok ([], rest)
    | cs => do
      let (item, rest) ← element cs
      match skipGap false rest with
      | ']' :: rest => return ([item], rest)
      | ',' :: rest => do
        let (items, rest) ← arrayItems element fuel rest
        return (item :: items, rest)
      | _ => .error .malformed

/-- A key with its value, as the path of the key and the value. -/
def keyValue (element : Reader Item) : Reader (List String × Item) := fun cs => do
  let (path, cs) ← key depthLimit cs
  match cs with
  | '=' :: cs => do
    let (item, cs) ← element (skipBlanks cs)
    return ((path, item), cs)
  | _ => .error .malformed

/-- The pairs of an inline table up to its closing brace, added to `entries`, in at most `fuel` of
them. -/
def pairs (element : Reader Item) : Nat → Entries → Reader Entries
  | 0, _, _ => .error .malformed
  | fuel + 1, entries, cs => do
    let ((path, item), cs) ← keyValue element cs
    let entries ← Entries.set item path entries
    match skipBlanks cs with
    | ',' :: cs => pairs element fuel entries cs
    | '\x7d' :: cs => return (entries, cs)
    | _ => .error .malformed

/-- The inside of an inline table and its closing brace. -/
def inlineTable (element : Reader Item) : Reader Item := fun cs =>
  match skipBlanks cs with
  | '\x7d' :: rest => .ok (.table .inlined [], rest)
  | cs => do
    let (entries, rest) ← pairs element cs.length [] cs
    return (.table .inlined entries, rest)

/-- A value without values inside it. -/
def scalar : Reader Item := fun cs =>
  match cs with
  | 't' :: 'r' :: 'u' :: 'e' :: rest => .ok (.bool true, rest)
  | 'f' :: 'a' :: 'l' :: 's' :: 'e' :: rest => .ok (.bool false, rest)
  | c :: _ =>
    if c = '"' ∨ c = '\x27' then do
      let (text, rest) ← quoted cs
      return (.text (String.ofList text), rest)
    else
      match moment? cs with
      | some (m, rest) => .ok (.moment m, rest)
      | none => numeral cs
  | [] => .error .malformed

/-- A value with arrays and inline tables nested at most `depth` deep. -/
def value : Nat → Reader Item
  | 0, cs => scalar cs
  | depth + 1, '[' :: cs => do
    let (items, rest) ← arrayItems (value depth) cs.length cs
    return (.array items, rest)
  | depth + 1, '\x7b' :: cs => inlineTable (value depth) cs
  | _ + 1, cs => scalar cs

/-- The root table and the path of the table whose keys are being defined. -/
structure Draft where
  root : Entries
  path : List String

/-- One header or key with its value. -/
def Draft.statement (d : Draft) : Reader Draft
  | '[' :: '[' :: cs => do
    let (path, cs) ← key depthLimit cs
    match cs with
    | ']' :: ']' :: rest => return (⟨← Entries.openMember path d.root, path⟩, rest)
    | _ => .error .malformed
  | '[' :: cs => do
    let (path, cs) ← key depthLimit cs
    match cs with
    | ']' :: rest => return (⟨← Entries.openTable path d.root, path⟩, rest)
    | _ => .error .malformed
  | cs => do
    let ((path, item), rest) ← keyValue (value depthLimit) cs
    return ({ d with root := ← Entries.within (Entries.set item path) d.path d.root }, rest)

/-- The statements of a text, each on lines of its own, in at most `fuel` steps. -/
def statements : Nat → Draft → List Char → Except Problem Entries
  | 0, _, _ => .error .malformed
  | fuel + 1, d, cs =>
    match skipGap false cs with
    | [] => .ok d.root
    | cs => do
      let (d, rest) ← d.statement cs
      if atLineEnd rest then statements fuel d rest else .error .malformed

/-- The text after a byte order mark. -/
def skipMark : List Char → List Char
  | '\ufeff' :: cs => cs
  | cs => cs

/-- The root table of a document. -/
def document (text : String) : Except Problem Entries :=
  let cs := skipMark text.toList
  statements (cs.length + 1) ⟨[], []⟩ cs

end HeaderLex.Toml
