import HeaderLex.Number.Decimal
import HeaderLex.Settings.Toml.Item

/-!
# Numerals

Integers of 64 bits, in decimal or in a base of 16, 8 or 2, and doubles.  An underscore may stand
between two digits.

* `digitRow?`   the digits of a row without its underscores;
* `numeral`     any number.
-/

namespace HeaderLex.Toml

def isDigitOf (base : Nat) (c : Char) : Bool := (Number.digitValue? c).any (· < base)

/-- The digits at the start of a text, and the text after them.  An underscore belongs to the row if
a digit follows it. -/
def digitRun (base : Nat) : List Char → List Char × List Char
  | '_' :: d :: cs =>
    if isDigitOf base d then
      let (digits, rest) := digitRun base cs
      (d :: digits, rest)
    else ([], '_' :: d :: cs)
  | c :: cs =>
    if isDigitOf base c then
      let (digits, rest) := digitRun base cs
      (c :: digits, rest)
    else ([], c :: cs)
  | [] => ([], [])

/-- A row of digits: it starts with a digit. -/
def digitRow? (base : Nat) (cs : List Char) : Option (List Char × List Char) :=
  match cs with
  | c :: _ => if isDigitOf base c then some (digitRun base cs) else none
  | [] => none

/-- The digits before the point: a zero in front stands alone. -/
def wholeDigits? : List Char → Option (List Char × List Char)
  | '0' :: cs => some (['0'], cs)
  | cs => digitRow? 10 cs

/-- The integer with digits of a base. -/
def integerOf (negative : Bool) (base : Nat) (digits : List Char) : Except Problem Item :=
  match (Number.readDigits? base digits).bind fun n => Number.toInt64? (Number.signed negative n) with
  | some n => .ok (.integer n)
  | none => .error .malformed

/-- An integer after the mark of its base. -/
def basedInteger (base : Nat) : Reader Item := fun cs =>
  match digitRow? base cs with
  | some (digits, rest) => do return (← integerOf false base digits, rest)
  | none => .error .malformed

/-- The digits after the point, if there is a point. -/
def fractionDigits : Reader (Option (List Char))
  | '.' :: cs =>
    match digitRow? 10 cs with
    | some (digits, rest) => .ok (some digits, rest)
    | none => .error .malformed
  | cs => .ok (none, cs)

/-- The power of ten, if there is a mark for one. -/
def exponent : Reader (Option Int)
  | [] => .ok (none, [])
  | c :: cs =>
    if c = 'e' ∨ c = 'E' then
      let (negative, body) := Number.splitSign cs
      match digitRow? 10 body with
      | some (digits, rest) =>
        .ok (some (Number.signed negative (Number.Decimal.readExponentFrom 0 digits)), rest)
      | none => .error .malformed
    else .ok (none, c :: cs)

/-- The double nearest to a decimal.  A number above all doubles is refused; one below all of them
is the negative infinity. -/
def floatOf (negative : Bool) (whole fraction : List Char) (exponent : Int) : Except Problem Item :=
  match Number.readDigits? 10 (whole ++ fraction) with
  | some digits =>
    match Number.Decimal.round .double negative ⟨digits, exponent - fraction.length⟩ with
    | .infinite false => .error .malformed
    | x => .ok (.float x)
  | none => .error .malformed

/-- A number in decimal digits, or a word for an infinity or for no number.  A point or an exponent
makes it a double. -/
def decimal : Reader Item := fun cs =>
  let (negative, body) := Number.splitSign cs
  match body with
  | 'i' :: 'n' :: 'f' :: rest => .ok (.float (.infinite negative), rest)
  | 'n' :: 'a' :: 'n' :: rest => .ok (.float .nan, rest)
  | _ =>
    match wholeDigits? body with
    | none => .error .malformed
    | some (whole, rest) => do
      let (fraction, rest) ← fractionDigits rest
      let (power, rest) ← exponent rest
      let item ← match fraction, power with
        | none, none => integerOf negative 10 whole
        | _, _ => floatOf negative whole (fraction.getD []) (power.getD 0)
      return (item, rest)

/-- A number: the letter behind a zero marks another base. -/
def numeral : Reader Item
  | '0' :: 'x' :: cs => basedInteger 16 cs
  | '0' :: 'o' :: cs => basedInteger 8 cs
  | '0' :: 'b' :: cs => basedInteger 2 cs
  | cs => decimal cs

end HeaderLex.Toml
