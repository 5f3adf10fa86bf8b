import HeaderLex.Grammar.Single

/-!
# Qualified names

Names such as `::Outer::Inner<TArray<int32>>`: segments with scope operators between them, each
with an optional template argument list.  Their tokens are kept in the arena of the session.
-/

namespace HeaderLex.Grammar

open HeaderLex.Operation HeaderLex.Parser

variable {υ : Type}

/-- Appends a token to the name under construction. -/
def pushToken (t : Token) : Parser (υ × TokenList) Unit := do
  let (_, list) ← user
  let list ← onArena (·.push list t)
  modifyUser fun (u, _) => (u, list)

/-- A token cannot stand in a template argument list. -/
def endsTemplate (t : Token) : Bool := t.isEnd || t.isMark ';' || t.isMark '{'

/-- A template argument list, up to the bracket that closes its first one. -/
def templateArguments : Parser (υ × TokenList) Unit := do
  let start ← next
  pushToken start
  loop (fun depth => do
    let t ← peek
    if endsTemplate t then
      refuse ⟨.mismatchedDelimiters "<" ">" (some "template argument list"), start.start⟩
    else
      consume
      pushToken t
      if t.isMark '<' then return .inl (depth + 1)
      else if t.isMark '>' then
        if depth = 0 then return .inr () else return .inl (depth - 1)
      else return .inl depth) 0

/-- One segment and what follows it: true at the end of the name. -/
def nameSegment (templates : Bool) : Parser (υ × TokenList) Bool := do
  pushToken (← requireIdentifier (some "qualified identifier"))
  if templates then
    if (← peek).isMark '<' then templateArguments
  let t ← peek
  if t.isOperator "::" then
    consume
    pushToken t
    return false
  else return true

/-- The tokens of a name, appended to the one under construction. -/
def nameTokens (templates : Bool) : Parser (υ × TokenList) Unit := do
  let t ← peek
  if t.isOperator "::" then
    consume
    pushToken t
  loop (fun _ => do
    if ← nameSegment templates then return .inr () else return .inl ()) ()

/-- A qualified name if one begins here.  After an error its tokens are given back. -/
def tryQualifiedName (templates : Bool) : Parser υ (Option TokenList) := do
  let t ← peek
  if t.isIdentifier || t.isOperator "::" then
    match ← collecting TokenList.empty (nameTokens templates) with
    | (.ok (), list) => return some list
    | (.error e, list) =>
      onArena (·.release list)
      rethrow e
  else return none

def requireQualifiedName (templates : Bool) (context : Option String) : Parser υ TokenList := do
  match ← tryQualifiedName templates with
  | some list => return list
  | none => unexpected "identifier" (← peek) context

end HeaderLex.Grammar
