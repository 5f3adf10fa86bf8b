import HeaderLex.Number.Binary
import HeaderLex.Number.Word

/-!
# Reading decimal fractions

A decimal number is an optional sign, digits with an optional point among or beside them, and an
optional exponent; the words for infinity and for no number are read in any case.

* `Decimal.read?`       the sign, all digits as one natural, and the power of ten they are scaled by;
* `readDouble?`         the nearest double.
-/

namespace HeaderLex.Number

def isDigit (c : Char) : Bool := decide (0x30 ≤ c.toNat) && decide (c.toNat ≤ 0x39)

/-- The magnitude `digits * 10 ^ exponent`. -/
structure Decimal where
  digits : Nat
  exponent : Int
deriving DecidableEq, Repr

namespace Decimal

/-- An exponent grows no further once it is beyond every format. -/
def saturation : Nat := 0x10000

/-- Reads exponent digits into `acc`, which stops growing at `saturation`. -/
def readExponentFrom : Nat → List Char → Nat
  | acc, [] => acc
  | acc, c :: cs =>
    readExponentFrom (if acc < saturation then acc * 10 + (c.toNat - 0x30) else acc) cs

/-- The exponent part of a number: nothing, or a mark with a sign and at least one digit. -/
def readExponent? : List Char → Option Int
  | [] => some 0
  | c :: cs =>
    if c = 'e' ∨ c = 'E' then
      let (negative, digits) := splitSign cs
      if digits.isEmpty || !digits.all isDigit then none
      else some (signed negative (readExponentFrom 0 digits))
    else none

/-- An unsigned decimal number. -/
def read? (cs : List Char) : Option Decimal := do
  let whole := cs.takeWhile isDigit
  let rest := cs.dropWhile isDigit
  let (fraction, rest) := match rest with
    | '.' :: r => (r.takeWhile isDigit, r.dropWhile isDigit)
    | _ => ([], rest)
  let digits ← readDigits? 10 (whole ++ fraction)
  let exponent ← readExponent? rest
  return ⟨digits, exponent - fraction.length⟩

/-- The number of a format nearest to a signed decimal. -/
def round (f : Format) (negative : Bool) (d : Decimal) : Binary :=
  if 0 ≤ d.exponent then f.round negative (d.digits * Nat.pow 10 d.exponent.toNat) 1
  else f.round negative d.digits (Nat.pow 10 (-d.exponent).toNat)

end Decimal

/-- The words that stand for infinity. -/
def infinityWords : List (List Char) := ["inf".toList, "infinity".toList]

/-- The double nearest to a decimal text. -/
def readDouble? (cs : List Char) : Option Binary :=
  let (negative, body) := splitSign cs
  let word := body.map Char.toLower
  if infinityWords.contains word then some (.infinite negative)
  else if word = "nan".toList then some .nan
  else (Decimal.read? body).map (Decimal.round .double negative)

end HeaderLex.Number
