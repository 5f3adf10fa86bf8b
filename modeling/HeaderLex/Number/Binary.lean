/-!
# Binary floating-point numbers

A number of a binary format is a sign with a significand and a power of two, an infinity, or no
number.  Everything is computed with exact naturals, so that each rounding is one explicit step.

* `Format`            precision and exponent range; `Format.double`, `Format.single`;
* `Format.round`      the nearest number of a quotient, ties to the even significand;
* `Binary.truncate`   the integer part, clamped to 64 bits, and whether the fraction was zero;
* `Format.bits`       the interchange encoding.
-/

namespace HeaderLex.Number

/-- A binary interchange format. -/
structure Format where
  /-- Bits of a significand. -/
  precision : Nat
  /-- The exponent of the least unit is the negative of this. -/
  depth : Nat
  /-- Largest exponent of the unit in the last place. -/
  height : Nat
deriving DecidableEq, Repr

def Format.double : Format := ⟨53, 1074, 971⟩

def Format.single : Format := ⟨24, 149, 104⟩

/-- A value of some binary format. -/
inductive Binary where
  | nan
  | infinite (negative : Bool)
  /-- The number `significand * 2 ^ exponent`. -/
  | finite (negative : Bool) (significand : Nat) (exponent : Int)
deriving DecidableEq, Repr

namespace Binary

def neg : Binary → Binary
  | nan => nan
  | infinite s => infinite !s
  | finite s m e => finite (!s) m e

/-- The integer part of a magnitude `m * 2 ^ e`. -/
def integerPart (m : Nat) (e : Int) : Nat :=
  if 0 ≤ e then m * Nat.pow 2 e.toNat else m / Nat.pow 2 (-e).toNat

/-- Nothing follows the binary point of `m * 2 ^ e`. -/
def isIntegral (m : Nat) (e : Int) : Bool :=
  decide (0 ≤ e) || m % Nat.pow 2 (-e).toNat == 0

/-- The nearest 64-bit integer. -/
def clampInt64 (v : Int) : Int64 :=
  if v < Int64.minValue.toInt then Int64.minValue
  else if Int64.maxValue.toInt < v then Int64.maxValue
  else Int64.ofInt v

/-- The integer part, clamped to 64 bits, and whether the fraction was zero.  An infinity has no
fraction and is clamped; a value that is no number gives zero and an inexact answer. -/
def truncate : Binary → Int64 × Bool
  | nan => (0, false)
  | infinite s => (if s then Int64.minValue else Int64.maxValue, true)
  | finite s m e =>
    let n := integerPart m e
    (clampInt64 (if s then -(n : Int) else n), isIntegral m e)

end Binary

namespace Format

/-- The quotient `a / b` rounded to a whole number, ties to even. -/
def roundQuotient (a b : Nat) : Nat :=
  let q := a / b
  let r := a % b
  if 2 * r < b then q else if b < 2 * r then q + 1 else if q % 2 = 0 then q else q + 1

/-- The quotient `a / b` over `2 ^ e`, as a fraction of naturals. -/
def scale (a b : Nat) (e : Int) : Nat × Nat :=
  if 0 ≤ e then (a, b * Nat.pow 2 e.toNat) else (a * Nat.pow 2 (-e).toNat, b)

/-- The exponent of the unit in the last place for the quotient `a / b`: the quotient lies below
`2 ^ precision` units and, above the least exponent, at `2 ^ (precision - 1)` units or more. -/
def unitExponent (f : Format) (a b : Nat) : Int :=
  let guess : Int := (Nat.log2 a : Int) - (Nat.log2 b : Int) - (f.precision : Int)
  let low := scale a b guess
  let e := if low.1 < low.2 * Nat.pow 2 f.precision then guess else guess + 1
  max e (-(f.depth : Int))

/-- The number of the format nearest to `a / b`, ties to the even significand; beyond the largest
number stands the infinity. -/
def round (f : Format) (negative : Bool) (a b : Nat) : Binary :=
  if a = 0 then .finite negative 0 (-(f.depth : Int))
  else
    let e := f.unitExponent a b
    let part := scale a b e
    let m := roundQuotient part.1 part.2
    let (m, e) := if m = Nat.pow 2 f.precision then (Nat.pow 2 (f.precision - 1), e + 1)
      else (m, e)
    if (f.height : Int) < e then .infinite negative else .finite negative m e

/-- The number of the format nearest to an integer. -/
def ofInt (f : Format) (v : Int) : Binary := f.round (decide (v < 0)) v.natAbs 1

/-- The number of the format nearest to a value of another format. -/
def convert (f : Format) : Binary → Binary
  | .nan => .nan
  | .infinite s => .infinite s
  | .finite s m e =>
    if 0 ≤ e then f.round s (m * Nat.pow 2 e.toNat) 1 else f.round s m (Nat.pow 2 (-e).toNat)

/-- The interchange encoding of a value of the format: sign, biased exponent, fraction.  Values
that are no numbers share one encoding. -/
def bits (f : Format) : Binary → Nat
  | .nan => encode false (exponentMask) (Nat.pow 2 (f.precision - 2))
  | .infinite s => encode s exponentMask 0
  | .finite s m e =>
    if m < Nat.pow 2 (f.precision - 1) then encode s 0 m
    else encode s (e + f.depth + 1).toNat (m - Nat.pow 2 (f.precision - 1))
where
  /-- The biased exponent of infinities. -/
  exponentMask : Nat := f.depth + f.height + 2
  /-- The three fields side by side. -/
  encode (s : Bool) (biased fraction : Nat) : Nat :=
    ((if s then exponentMask + 1 else 0) + biased) * Nat.pow 2 (f.precision - 1) + fraction

end Format

end HeaderLex.Number
