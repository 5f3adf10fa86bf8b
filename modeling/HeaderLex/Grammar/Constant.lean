import HeaderLex.Grammar.Single
import HeaderLex.Token.Decode

/-!
# Numeric constants

A constant is one numeric token; an expression may also have its sign as a token of its own.  A sign
without a number after it leaves the stream as it was.
-/

namespace HeaderLex.Grammar

open HeaderLex.Operation HeaderLex.Parser

variable {υ α : Type}

/-- Takes the next token if it has a value. -/
def tryDecoded (decode : Token → Option α) : Parser υ (Option α) := do
  match decode (← peek) with
  | some v =>
    consume
    return some v
  | none => return none

/-- Takes a number with an optional sign before it. -/
def trySigned (decode : Token → Option α) (negate : α → α) : Parser υ (Option α) := do
  let sign ← peek
  if sign.isMark '-' || sign.isMark '+' then
    save
    consume
    match ← attempt (tryDecoded decode) with
    | .ok (some v) =>
      abandon
      return some (if sign.isMark '-' then negate v else v)
    | .ok none =>
      restore
      return none
    | .error e =>
      restore
      rethrow e
  else tryDecoded decode

def tryInt : Parser υ (Option Int32) := tryDecoded Token.int?

def tryLong : Parser υ (Option Int64) := tryDecoded Token.long?

def tryFloat : Parser υ (Option Number.Binary) := tryDecoded Token.float?

def tryDouble : Parser υ (Option Number.Binary) := tryDecoded Token.double?

def tryIntExpression : Parser υ (Option Int32) := trySigned Token.int? (- ·)

def tryLongExpression : Parser υ (Option Int64) := trySigned Token.long? (- ·)

def tryFloatExpression : Parser υ (Option Number.Binary) := trySigned Token.float? Number.Binary.neg

def tryDoubleExpression : Parser υ (Option Number.Binary) := trySigned Token.double? Number.Binary.neg

/-- Refuses the next token where an integer should stand. -/
def missingInt (context : Option String) : Parser υ α := do
  let t ← peek
  if t.isNumeric then refuse ⟨.invalidNumeric t.value, t.start⟩
  else unexpected "integer constant" t context

def requireInt (context : Option String) : Parser υ Int32 := do
  match ← tryInt with
  | some v => return v
  | none => missingInt context

def requireIntExpression (context : Option String) : Parser υ Int32 := do
  match ← tryIntExpression with
  | some v => return v
  | none => missingInt context

end HeaderLex.Grammar
