import HeaderLex.Parser

/-!
# Single tokens

Parsers that take one token if it is the wanted one: optionally, or else with an error that names
what is missing.
-/

namespace HeaderLex.Grammar

open HeaderLex.Operation HeaderLex.Parser

variable {υ α : Type}

/-- Refuses `found` where `expected` should stand. -/
def unexpected (expected : String) (found : Token) (context : Option String) : Parser υ α :=
  refuse ⟨.unexpectedToken expected found.render context, found.start⟩

/-- Takes the next token if it satisfies `p`. -/
def tryIf (p : Token → Bool) : Parser υ (Option Token) := do
  let t ← peek
  if p t then
    consume
    return some t
  else return none

/-- Takes the next token if it satisfies `p`; `expected` says what is missing otherwise. -/
def requireIf (p : Token → Bool) (expected : String) (context : Option String) :
    Parser υ Token := do
  let t ← peek
  if p t then
    consume
    return t
  else unexpected expected t context

/-- Takes the identifier or symbol `text` if it comes next. -/
def tryText (text : String) : Parser υ Bool := do
  return (← tryIf (·.spells text)).isSome

/-- Takes the symbol `c` if it comes next. -/
def tryMark (c : Char) : Parser υ Bool := do
  return (← tryIf (·.isMark c)).isSome

/-- Takes the next token if it is one of `texts`. -/
def tryAny (texts : List String) : Parser υ (Option Token) :=
  tryIf fun t => texts.any t.spells

/-- Skips `text` if it comes next. -/
def optional (text : String) : Parser υ Unit := do
  let _ ← tryText text

/-- Runs `action` after `text` if `text` comes next. -/
def optionalWith (text : String) (action : Parser υ Unit) : Parser υ Bool := do
  if ← tryText text then
    action
    return true
  else return false

def requireText (text : String) (context : Option String) : Parser υ Token :=
  requireIf (·.spells text) text context

def requireMark (c : Char) (context : Option String) : Parser υ Token :=
  requireIf (·.isMark c) c.toString context

def tryIdentifier : Parser υ (Option Token) := tryIf Token.isIdentifier

def requireIdentifier (context : Option String) : Parser υ Token :=
  requireIf Token.isIdentifier "identifier" context

end HeaderLex.Grammar
