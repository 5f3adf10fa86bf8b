/-!
# Reading integers of a fixed width

Digits are ASCII; a number that leaves its word is refused, never wrapped.

* `digitValue?`, `readDigits?`   digits of a base up to 16;
* `readInt64?`                   a decimal number with an optional sign;
* `readUnsigned?`                an unsigned number below a bound, with an optional plus sign.
-/

namespace HeaderLex.Number

/-- Value of a decimal or hexadecimal digit. -/
def digitValue? (c : Char) : Option Nat :=
  let n := c.toNat
  if 0x30 ≤ n ∧ n ≤ 0x39 then some (n - 0x30)
  else if 0x41 ≤ n ∧ n ≤ 0x46 then some (n - 0x41 + 10)
  else if 0x61 ≤ n ∧ n ≤ 0x66 then some (n - 0x61 + 10)
  else none

/-- The number that digits of `base` denote after `acc`, most significant first. -/
def readDigitsFrom? (base : Nat) : Nat → List Char → Option Nat
  | acc, [] => some acc
  | acc, c :: cs =>
    match digitValue? c with
    | some d => if d < base then readDigitsFrom? base (acc * base + d) cs else none
    | none => none

/-- The number that a nonempty row of digits denotes. -/
def readDigits? (base : Nat) : List Char → Option Nat
  | [] => none
  | cs => readDigitsFrom? base 0 cs

/-- Splits an optional sign off; true stands for minus. -/
def splitSign : List Char → Bool × List Char
  | '-' :: cs => (true, cs)
  | '+' :: cs => (false, cs)
  | cs => (false, cs)

/-- The integer with a sign and a magnitude. -/
def signed (negative : Bool) (n : Nat) : Int := if negative then -(n : Int) else n

/-- An integer as a 32-bit word, if it is one. -/
def toInt32? (v : Int) : Option Int32 :=
  if Int32.minValue.toInt ≤ v ∧ v ≤ Int32.maxValue.toInt then some (Int32.ofInt v) else none

/-- An integer as a 64-bit word, if it is one. -/
def toInt64? (v : Int) : Option Int64 :=
  if Int64.minValue.toInt ≤ v ∧ v ≤ Int64.maxValue.toInt then some (Int64.ofInt v) else none

/-- A decimal 64-bit integer with an optional sign. -/
def readInt64? (cs : List Char) : Option Int64 := do
  let (negative, digits) := splitSign cs
  toInt64? (signed negative (← readDigits? 10 digits))

/-- An unsigned number of `bits` bits in hexadecimal, with an optional plus sign. -/
def readHex? (bits : Nat) (cs : List Char) : Option Nat := do
  let digits := match cs with
    | '+' :: rest => rest
    | _ => cs
  let n ← readDigits? 16 digits
  if n < Nat.pow 2 bits then some n else none

end HeaderLex.Number
