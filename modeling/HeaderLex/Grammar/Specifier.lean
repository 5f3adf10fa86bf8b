import HeaderLex.Grammar.Constant
import HeaderLex.Grammar.Group

/-!
# Declaration specifiers

Deprecation macros, markers, attribute lists in double brackets and alignments, in any order in front
of a declaration.
-/

namespace HeaderLex.Grammar

open HeaderLex.Operation HeaderLex.Parser

variable {υ : Type}

structure Deprecation where
  kind : DeprecationMacro
  version : Option String
  message : Option String
deriving DecidableEq, Repr

structure Attribute where
  scope : Option String
  name : String
  /-- The tokens between the parentheses, with single spaces between them. -/
  arguments : Option String
deriving DecidableEq, Repr

structure Specifiers where
  deprecation : Option Deprecation
  markers : List Marker
  attributes : List Attribute
  alignment : Option Int32
deriving DecidableEq, Repr

namespace Specifiers

def none : Specifiers := ⟨.none, [], [], .none⟩

def isEmpty (s : Specifiers) : Bool :=
  s.deprecation.isNone && s.markers.isEmpty && s.attributes.isEmpty && s.alignment.isNone

def hasMarker (s : Specifiers) (m : Marker) : Bool := s.markers.contains m

end Specifiers

/-- The texts of tokens with single spaces between them. -/
def joinValues (tokens : List Token) : String := " ".intercalate (tokens.map Token.value)

/-! ### Deprecations -/

/-- Takes note of the element number `index`: a string literal alone is the message, the first
element otherwise the version. -/
def Deprecation.note (d : Deprecation) (index : Nat) (element : List Token) : Deprecation :=
  match element with
  | [t] =>
    if t.isString then { d with message := some t.text }
    else if index = 0 then { d with version := some (joinValues element) }
    else d
  | _ => if index = 0 then { d with version := some (joinValues element) } else d

/-- The deprecation that a list of arguments describes. -/
def Deprecation.ofElements (kind : DeprecationMacro) (elements : List (List Token)) : Deprecation :=
  elements.zipIdx.foldl (fun d (element, index) => d.note index element) ⟨kind, none, none⟩

/-- The deprecation macro that a token spells. -/
def deprecationOf? (t : Token) : Option DeprecationMacro :=
  if t.isIdentifier then DeprecationMacro.ofSpelling? t.value else none

def tryDeprecation : Parser υ (Option Deprecation) := do
  match deprecationOf? (← peek) with
  | none => return none
  | some kind =>
    consume
    if (← peek).isMark '(' then
      let elements ← listElements ⟨'(', ')', ',', false, kind.spelling⟩
      return some (.ofElements kind elements)
    else return some ⟨kind, none, none⟩

/-! ### Markers -/

/-- The marker that a token spells. -/
def markerOf? (t : Token) : Option Marker :=
  if t.isIdentifier then Marker.ofSpelling? t.value else none

def tryMarker : Parser υ (Option Marker) := tryDecoded markerOf?

/-! ### Attributes -/

/-- One attribute; a scope of its own wins over the one of the list. -/
def oneAttribute (scope : Option String) : Parser υ Attribute := do
  let first ← requireIdentifier (some "attribute")
  let (scope, name) ←
    if (← peek).isOperator "::" then do
      consume
      let second ← requireIdentifier (some "attribute")
      pure (some first.value, second.value)
    else pure (scope, first.value)
  let arguments ←
    if (← peek).isMark '(' then do
      pure (some (joinValues (← skipBalanced '(' ')' "attribute arguments")))
    else pure none
  return ⟨scope, name, arguments⟩

/-- The scope that holds for a whole list. -/
def attributeScope : Parser υ (Option String) := do
  if (← peek).isWord "using" then
    consume
    let scope ← requireIdentifier (some "attribute namespace")
    let _ ← requireMark ':' (some "attribute namespace")
    return some scope.value
  else return none

def tryAttributes : Parser υ (Option (List Attribute)) := do
  if (← peek).isOperator "[[" then
    consume
    let scope ← attributeScope
    let attributes ←
      if (← peek).isMark ']' then pure []
      else
        loop (fun attributes => do
          let attributes := attributes ++ [← oneAttribute scope]
          if ← tryMark ',' then return .inl attributes else return .inr attributes) []
    let _ ← requireMark ']' (some "attribute list")
    let _ ← requireMark ']' (some "attribute list")
    return some attributes
  else return none

/-! ### Alignments -/

def tryAlignment : Parser υ (Option Int32) := do
  if (← peek).isWord "alignas" then
    consume
    let _ ← requireMark '(' (some "alignas")
    let alignment ← requireIntExpression (some "alignas")
    let _ ← requireMark ')' (some "alignas")
    return some alignment
  else return none

/-! ### All specifiers -/

/-- One more specifier, if one comes next. -/
def trySpecifier (s : Specifiers) : Parser υ (Option Specifiers) := do
  if let some d ← tryDeprecation then return some { s with deprecation := some d }
  if let some m ← tryMarker then return some { s with markers := s.markers ++ [m] }
  if let some as ← tryAttributes then return some { s with attributes := s.attributes ++ as }
  if let some n ← tryAlignment then return some { s with alignment := some n }
  return none

/-- All specifiers in front of a declaration. -/
def specifiers : Parser υ Specifiers :=
  loop (fun s => do
    match ← trySpecifier s with
    | some s => return .inl s
    | none => return .inr s) Specifiers.none

end HeaderLex.Grammar
