import HeaderLex.Misuse
import HeaderLex.Number.Decimal
import HeaderLex.Text.Blank
import HeaderLex.Token.Basic

/-!
# The value of a token

Numbers are read from the spelling of a numeric token, texts from a quoted one.

* `Token.int?`, `Token.long?`     integers of 32 and 64 bits;
* `Token.double?`, `Token.float?` binary fractions;
* `Token.unescaped`               the text between the quotes, with its escapes resolved.
-/

namespace HeaderLex.Token

/-! ### Numbers -/

/-- Letters that may follow the digits of an integer. -/
def isIntegerSuffix (c : Char) : Bool := c == 'u' || c == 'U' || c == 'l' || c == 'L'

/-- Letters that may follow the digits of a fraction. -/
def isFloatSuffix (c : Char) : Bool := c == 'f' || c == 'F'

/-- A decimal integer, its suffix removed. -/
def readDecimal? (text : List Char) : Option Int64 :=
  Number.readInt64? (Text.dropEndWhile isIntegerSuffix text)

/-- The sign and the digits of a hexadecimal integer, its mark and suffix removed. -/
def splitHex (text : List Char) : Bool × List Char :=
  let (negative, unsigned) := Number.splitSign text
  let digits := match unsigned with
    | '0' :: 'x' :: rest => rest
    | '0' :: 'X' :: rest => rest
    | _ => unsigned
  (negative, Text.dropEndWhile isIntegerSuffix digits)

/-- A hexadecimal integer of 32 bits, reinterpreted as a signed word. -/
def readHexInt? (text : List Char) : Option Int32 :=
  let (negative, digits) := splitHex text
  (Number.readHex? 32 digits).map fun n =>
    let v := (UInt32.ofNat n).toInt32
    if negative then -v else v

/-- A hexadecimal integer of 64 bits, reinterpreted as a signed word. -/
def readHexLong? (text : List Char) : Option Int64 :=
  let (negative, digits) := splitHex text
  (Number.readHex? 64 digits).map fun n =>
    let v := (UInt64.ofNat n).toInt64
    if negative then -v else v

/-- The number as a double. -/
def double? (t : Token) : Option Number.Binary :=
  match t.kind with
  | .floatConst => Number.readDouble? (Text.dropEndWhile isFloatSuffix t.value.toList)
  | .decimalConst => (readDecimal? t.value.toList).map fun v => Number.Format.double.ofInt v.toInt
  | .hexConst => (readHexLong? t.value.toList).map fun v => Number.Format.double.ofInt v.toInt
  | _ => none

/-- The number as a single. -/
def float? (t : Token) : Option Number.Binary := t.double?.map Number.Format.single.convert

/-- The integer part of a fraction, and whether nothing was lost. -/
def truncated? (t : Token) : Option (Int64 × Bool) :=
  if t.kind = .floatConst then t.double?.map Number.Binary.truncate else none

/-- The number as a 64-bit integer; a fraction counts if nothing is lost. -/
def long? (t : Token) : Option Int64 :=
  match t.kind with
  | .decimalConst => readDecimal? t.value.toList
  | .hexConst => readHexLong? t.value.toList
  | .floatConst => t.truncated?.bind fun (v, exact) => if exact then some v else none
  | _ => none

/-- The number as a 32-bit integer; a fraction counts if nothing is lost. -/
def int? (t : Token) : Option Int32 :=
  match t.kind with
  | .decimalConst => (readDecimal? t.value.toList).bind fun v => Number.toInt32? v.toInt
  | .hexConst => readHexInt? t.value.toList
  | .floatConst => t.truncated?.bind fun (v, exact) => if exact then Number.toInt32? v.toInt else none
  | _ => none

/-! ### Texts -/

/-- The text between a pair of quotes `q`. -/
def unquote? (q : Char) (text : List Char) : Option (List Char) := do
  let rest ← Text.strip? [q] text
  Text.stripEnd? [q] rest

/-- The text without the quotes around it, double or single. -/
def stripQuotes (text : List Char) : List Char :=
  match unquote? '"' text with
  | some inner => inner
  | none => (unquote? '\'' text).getD text

/-- Resolves escapes: three letters stand for control characters, any other character for
itself; a backslash at the end stays. -/
def resolveEscapes : List Char → List Char
  | [] => []
  | ['\\'] => ['\\']
  | '\\' :: c :: cs =>
    (if c = 'n' then '\n' else if c = 't' then '\t' else if c = 'r' then '\r' else c) ::
      resolveEscapes cs
  | c :: cs => c :: resolveEscapes cs

/-- The text of a string or character literal. -/
def unescaped (t : Token) : Except Misuse String :=
  match t.kind with
  | .stringConst | .charConst => .ok (String.ofList (resolveEscapes (stripQuotes t.value.toList)))
  | kind => .error (.unescapeOf kind)

/-- The text of a literal, or the spelling of any other token. -/
def text (t : Token) : String :=
  match t.unescaped with
  | .ok s => s
  | .error _ => t.value

end HeaderLex.Token
