import HeaderLex.Grammar.Single

/-!
# Lists and balanced groups

* `requireList`         an opening mark, elements with separators between them, a closing mark;
* `requireListTokens`   the same, with each element given as its tokens;
* `skipBalanced`        a balanced group, given as the tokens inside.
-/

namespace HeaderLex.Grammar

open HeaderLex.Operation HeaderLex.Parser

variable {υ : Type}

/-- How a list is written. -/
structure ListForm where
  opening : Char
  closing : Char
  separator : Char
  /-- A separator may stand before the closing mark. -/
  allowTrailing : Bool
  /-- What the list is, for messages. -/
  context : String
deriving DecidableEq, Repr

/-- One element with what follows it: true at the end of the list. -/
def listTurn (form : ListForm) (action : Parser υ Unit) : Parser υ Bool := do
  action
  if ← tryMark form.closing then return true
  let t ← peek
  if !t.isMark form.separator then
    unexpected s!"{form.separator}' or '{form.closing}" t form.context
  else
    consume
    let t ← peek
    if t.isMark form.closing then
      if form.allowTrailing then
        consume
        return true
      else unexpected "list element" t form.context
    else return false

/-- A list; `action` parses one element. -/
def requireList (form : ListForm) (action : Parser υ Unit) : Parser υ Unit := do
  let _ ← requireMark form.opening form.context
  if ← tryMark form.closing then return
  loop (fun _ => do
    if ← listTurn form action then return .inr () else return .inl ()) ()

/-- A list if its opening mark comes next; says whether there was one. -/
def tryList (form : ListForm) (action : Parser υ Unit) : Parser υ Bool := do
  if (← peek).isMark form.opening then
    requireList form action
    return true
  else return false

/-! ### Elements as tokens -/

/-- The marks that close what a bracket opens, the next to come first. -/
def closersOf (t : Token) : List Char :=
  if t.isMark '(' then [')']
  else if t.isMark '[' then [']']
  else if t.isOperator "[[" then [']', ']']
  else if t.isMark '{' then ['}']
  else []

def isCloser (t : Token) : Bool := t.isMark ')' || t.isMark ']' || t.isMark '}'

/-- The closers still to come after `t`, when `closers` were to come before it. -/
def nextClosers (form : ListForm) (closers : List Char) (t : Token) : Parser υ (List Char) :=
  if isCloser t then
    match closers with
    | c :: rest => if t.isMark c then return rest else unexpected c.toString t form.context
    | [] => unexpected form.closing.toString t form.context
  else return closersOf t ++ closers

/-- The tokens of one element: up to a separator or the closing mark outside brackets. -/
def listElement (form : ListForm) : Parser υ (List Token) := do
  let tokens ← loop (fun (tokens, closers) => do
    let t ← peek
    if t.isEnd then unexpected form.closing.toString t form.context
    else if closers.isEmpty && (t.isMark form.closing || t.isMark form.separator) then
      return .inr tokens
    else
      let closers ← nextClosers form closers t
      consume
      return .inl (tokens ++ [t], closers)) (([], []) : List Token × List Char)
  if tokens.isEmpty then
    unexpected "list element" (← peek) form.context
  else return tokens

/-- A list; `action` receives the tokens of each element. -/
def requireListTokens (form : ListForm) (action : List Token → Parser υ Unit) : Parser υ Unit :=
  requireList form do
    action (← listElement form)

/-- The elements of a list as tokens. -/
def listElements (form : ListForm) : Parser υ (List (List Token)) := do
  let (_, elements) ← withState [] (requireListTokens form fun element =>
    modifyUser fun (u, elements) => (u, elements ++ [element]))
  return elements

/-! ### Balanced groups -/

/-- The tokens of a balanced group, without the marks around it. -/
def skipBalanced (opening closing : Char) (context : String) : Parser υ (List Token) := do
  let start ← requireMark opening context
  loop (fun (inner, depth) => do
    let t ← next
    if t.isEnd then
      refuse ⟨.mismatchedDelimiters opening.toString closing.toString context, start.start⟩
    else if t.isMark opening then return .inl (inner ++ [t], depth + 1)
    else if t.isMark closing then
      if depth = 0 then return .inr inner else return .inl (inner ++ [t], depth - 1)
    else return .inl (inner ++ [t], depth)) (([], 0) : List Token × Nat)

end HeaderLex.Grammar
