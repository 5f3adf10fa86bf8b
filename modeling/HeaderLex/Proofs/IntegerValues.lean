import HeaderLex.Proofs.Condition
import HeaderLex.Proofs.Numerals
import Mathlib.Data.Nat.Digits.Defs

/-!
# The value of an integer

The text of an integer has a sign, digits and letters behind them, and in base sixteen a mark in front
of the digits.  The integer that it denotes is given by its digits alone; a word is read from it where
it is in range.

* `Numeral.denoted`        the number that a row of digits denotes;
* `mem_decimal_iff`, `mem_hex_iff`   the parts of an integer;
* `readDigits?_eq`         reading digits gives what they denote;
* `readDecimal?_eq`        a decimal number is a word if it is in range;
* `readHex?_eq`            a hexadecimal number is one if it has digits and is below the bound;
* `Token.IsDecimal`, `Token.IsHex`   tokens that are spelled as integers;
* `int?_of_decimal`, `int?_of_hex`, ...   their words of 32 and 64 bits.
-/

namespace HeaderLex

open Number (isDigit digitValue? readDigitsFrom? readDigits? toInt32? toInt64? signed)
open Lexeme (isSign isHexDigit)
open Token (isIntegerSuffix readDecimal? readHexInt? readHexLong?)
open scoped Computability

/-! ## rows of digits -/

namespace Numeral

/-- The number that a row of digits denotes, the most significant digit first. -/
def denoted (base : Nat) (digits : List Char) : Nat :=
  Nat.ofDigits base (digits.reverse.map fun c => (digitValue? c).getD 0)

/-- All characters are digits of the base. -/
def AreDigits (base : Nat) (digits : List Char) : Prop :=
  ∀ c ∈ digits, ∃ d < base, digitValue? c = some d

variable {base : Nat} {digits : List Char}

theorem denoted_cons (base : Nat) (c : Char) (cs : List Char) :
    denoted base (c :: cs) = (digitValue? c).getD 0 * base ^ cs.length + denoted base cs := by
  unfold denoted
  rw [List.reverse_cons, List.map_append, Nat.ofDigits_append, List.map_singleton,
    Nat.ofDigits_singleton, List.length_map, List.length_reverse, Nat.mul_comm, Nat.add_comm]

theorem readDigitsFrom?_eq (h : AreDigits base digits) (acc : Nat) :
    readDigitsFrom? base acc digits = some (acc * base ^ digits.length + denoted base digits) := by
  induction digits generalizing acc with
  | nil => simp [readDigitsFrom?, denoted]
  | cons c cs ih =>
    obtain ⟨d, hd, hc⟩ := h c List.mem_cons_self
    have hcs : AreDigits base cs := fun a ha => h a (List.mem_cons_of_mem _ ha)
    rw [readDigitsFrom?, hc]
    dsimp only
    rw [if_pos hd, ih hcs, denoted_cons, hc, Option.getD_some, List.length_cons, pow_succ']
    congr 1
    ring

/-- Reading digits gives the number that they denote. -/
theorem readDigits?_eq (h : AreDigits base digits) (hne : digits ≠ []) :
    readDigits? base digits = some (denoted base digits) := by
  cases digits with
  | nil => exact absurd rfl hne
  | cons c cs =>
    have hread : readDigits? base (c :: cs) = readDigitsFrom? base 0 (c :: cs) := rfl
    rw [hread, readDigitsFrom?_eq h, Nat.zero_mul, Nat.zero_add]

theorem areDigits_decimal (h : ∀ c ∈ digits, isDigit c = true) : AreDigits 10 digits := by
  intro c hc
  have hrange : 0x30 ≤ c.toNat ∧ c.toNat ≤ 0x39 := by simpa [isDigit] using h c hc
  refine ⟨c.toNat - 0x30, by omega, ?_⟩
  unfold digitValue?
  dsimp only
  rw [if_pos hrange]

theorem areDigits_hex (h : ∀ c ∈ digits, isHexDigit c = true) : AreDigits 16 digits := by
  intro c hc
  obtain ⟨d, hd⟩ := Option.isSome_iff_exists.1 (h c hc)
  refine ⟨d, ?_, hd⟩
  unfold digitValue? at hd
  dsimp only at hd
  split at hd
  · cases hd
    omega
  · split at hd
    · cases hd
      omega
    · split at hd
      · cases hd
        omega
      · cases hd

/-! ## the parts of an integer -/

theorem mem_decimal_iff {w : List Char} : w ∈ decimal ↔ ∃ digits letters, w = digits ++ letters ∧
    digits ≠ [] ∧ (∀ c ∈ digits, isDigit c = true) ∧ ∀ c ∈ letters, isIntegerSuffix c = true := by
  rw [decimal, Language.mem_mul]
  constructor
  · rintro ⟨digits, hdigits, letters, hletters, rfl⟩
    obtain ⟨c, ds, hc, hds, rfl⟩ := mem_one_mul.1 hdigits
    refine ⟨c :: ds, letters, rfl, List.cons_ne_nil _ _, ?_, mem_star.1 hletters⟩
    exact List.forall_mem_cons.2 ⟨hc, mem_star.1 hds⟩
  · rintro ⟨digits, letters, rfl, hne, hdigits, hletters⟩
    cases digits with
    | nil => exact absurd rfl hne
    | cons c ds =>
      obtain ⟨hc, hds⟩ := List.forall_mem_cons.1 hdigits
      exact ⟨c :: ds, mem_one_mul.2 ⟨c, ds, hc, mem_star.2 hds, rfl⟩, letters,
        mem_star.2 hletters, rfl⟩

theorem mem_hex_iff {w : List Char} : w ∈ hex ↔ ∃ mark digits letters,
    w = '0' :: mark :: (digits ++ letters) ∧ isHexMark mark = true ∧
      (∀ c ∈ digits, isHexDigit c = true) ∧ ∀ c ∈ letters, isIntegerSuffix c = true := by
  constructor
  · intro h
    obtain ⟨z, ds, hz, hds, rfl⟩ := mem_one_mul.1 h
    obtain ⟨mark, es, hmark, hes, rfl⟩ := mem_one_mul.1 hds
    obtain ⟨digits, hdigits, letters, hletters, rfl⟩ := Language.mem_mul.1 hes
    obtain rfl : z = '0' := eq_of_beq hz
    exact ⟨mark, digits, letters, rfl, hmark, mem_star.1 hdigits, mem_star.1 hletters⟩
  · rintro ⟨mark, digits, letters, rfl, hmark, hdigits, hletters⟩
    have htail := Language.append_mem_mul (mem_star.2 hdigits) (mem_star.2 hletters)
    exact mem_one_mul.2 ⟨'0', _, rfl, mem_one_mul.2 ⟨mark, _, hmark, htail, rfl⟩, rfl⟩

/-! ## reading an integer -/

section

variable {sign digits letters : List Char} {mark : Char}

/-- The sign of a number makes it negative, or nothing. -/
def isNegative (sign : List Char) : Bool := sign == ['-']

theorem splitSign_append (hsign : sign ∈ Numeral.sign) {body : List Char}
    (hbody : body.head?.any isSign = false) :
    Number.splitSign (sign ++ body) = (isNegative sign, body) := by
  rcases (Language.mem_add _ _ _).1 hsign with hnil | ⟨c, hc, rfl⟩
  · rw [(Language.mem_one sign).1 hnil, List.nil_append]
    unfold Number.splitSign
    split
    · cases hbody
    · cases hbody
    · rfl
  · obtain rfl | rfl : c = '+' ∨ c = '-' := by simpa [isSign] using hc
    · rfl
    · rfl

/-- The letters behind the digits are dropped, and nothing else. -/
theorem dropEndWhile_letters {p : Char → Bool} {body : List Char}
    (hbody : body.getLast?.any p = false) (hletters : ∀ c ∈ letters, p c = true) :
    Text.dropEndWhile p (body ++ letters) = body := by
  rw [Text.dropEndWhile_append_of_pos hletters, Text.dropEndWhile_eq_self hbody]

theorem getLast?_digits {p : Char → Bool} (hp : ∀ c, isIntegerSuffix c = true → p c = false)
    (hdigits : ∀ c ∈ digits, p c = true) : digits.getLast?.any isIntegerSuffix = false := by
  cases hlast : digits.getLast? with
  | none => rfl
  | some c =>
    cases hc : isIntegerSuffix c with
    | false => exact hc
    | true =>
      have hdigit := hdigits c (List.mem_of_getLast? hlast)
      exact absurd (hdigit.symm.trans (hp c hc)) (by decide)

/-- A decimal integer is a word if the integer that it denotes is in range. -/
theorem readDecimal?_eq (hsign : sign ∈ Numeral.sign) (hne : digits ≠ [])
    (hdigits : ∀ c ∈ digits, isDigit c = true) (hletters : ∀ c ∈ letters, isIntegerSuffix c = true) :
    readDecimal? (sign ++ (digits ++ letters))
      = toInt64? (signed (isNegative sign) (denoted 10 digits)) := by
  have hhead : digits.head?.any isSign = false := by
    cases digits with
    | nil => rfl
    | cons c ds => exact isSign_of_isDigit (hdigits c List.mem_cons_self)
  have hlast : (sign ++ digits).getLast?.any isIntegerSuffix = false := by
    rw [List.getLast?_append_of_ne_nil _ hne]
    exact getLast?_digits (fun c => isDigit_of_isIntegerSuffix) hdigits
  unfold readDecimal? Number.readInt64?
  rw [← List.append_assoc, dropEndWhile_letters hlast hletters, splitSign_append hsign hhead]
  dsimp only
  rw [readDigits?_eq (areDigits_decimal hdigits) hne]
  rfl

theorem splitHex_eq (hsign : sign ∈ Numeral.sign) (hmark : isHexMark mark = true)
    (hdigits : ∀ c ∈ digits, isHexDigit c = true)
    (hletters : ∀ c ∈ letters, isIntegerSuffix c = true) :
    Token.splitHex (sign ++ '0' :: mark :: (digits ++ letters)) = (isNegative sign, digits) := by
  have hlast := getLast?_digits (fun c => isHexDigit_of_isIntegerSuffix) hdigits
  unfold Token.splitHex
  rw [splitSign_append hsign rfl]
  dsimp only
  obtain rfl | rfl : mark = 'x' ∨ mark = 'X' := by simpa [isHexMark] using hmark
  · exact congrArg _ (dropEndWhile_letters hlast hletters)
  · exact congrArg _ (dropEndWhile_letters hlast hletters)

/-- A hexadecimal number is one if it has digits and is below the bound. -/
theorem readHex?_eq (bits : Nat) (hdigits : ∀ c ∈ digits, isHexDigit c = true) :
    Number.readHex? bits digits
      = if digits ≠ [] ∧ denoted 16 digits < 2 ^ bits then some (denoted 16 digits) else none := by
  cases digits with
  | nil => rfl
  | cons c cs =>
    have hplus : c ≠ '+' := by
      rintro rfl
      exact absurd (hdigits '+' List.mem_cons_self) (by decide)
    have hread := readDigits?_eq (areDigits_hex hdigits) (List.cons_ne_nil c cs)
    unfold Number.readHex?
    split
    · next rest h => exact absurd (List.cons.inj h).1 hplus
    · dsimp only
      rw [hread]
      simp

end

end Numeral

/-! ## words -/

namespace Number

theorem toInt32?_eq (v : Int) :
    toInt32? v = if -2 ^ 31 ≤ v ∧ v < 2 ^ 31 then some (Int32.ofInt v) else none := by
  have hmin : Int32.minValue.toInt = -2 ^ 31 := by decide
  have hmax : Int32.maxValue.toInt = 2 ^ 31 - 1 := by decide
  unfold toInt32?
  rw [hmin, hmax]
  exact if_congr (and_congr_right fun _ => by omega) rfl rfl

theorem toInt64?_eq (v : Int) :
    toInt64? v = if -2 ^ 63 ≤ v ∧ v < 2 ^ 63 then some (Int64.ofInt v) else none := by
  have hmin : Int64.minValue.toInt = -2 ^ 63 := by decide
  have hmax : Int64.maxValue.toInt = 2 ^ 63 - 1 := by decide
  unfold toInt64?
  rw [hmin, hmax]
  exact if_congr (and_congr_right fun _ => by omega) rfl rfl

/-- A short word may be read by way of a long one. -/
theorem toInt32?_of_toInt64? (v : Int) :
    ((toInt64? v).bind fun w => toInt32? w.toInt) = toInt32? v := by
  rw [toInt64?_eq]
  split
  · next h =>
    rw [Option.bind_some, Int64.toInt_ofInt_of_le h.1 h.2]
  · next h =>
    rw [toInt32?_eq, if_neg (by omega), Option.bind_none]

end Number

namespace Token

/-- The token is spelled as a decimal integer with a sign and digits. -/
structure IsDecimal (t : Token) (sign digits : List Char) : Prop where
  kind : t.kind = .decimalConst
  sign_mem : sign ∈ Numeral.sign
  ne_nil : digits ≠ []
  all_digits : ∀ c ∈ digits, isDigit c = true
  text : ∃ letters, t.value.toList = sign ++ (digits ++ letters) ∧
    ∀ c ∈ letters, isIntegerSuffix c = true

/-- The token is spelled as a hexadecimal integer with a sign and digits, which may be missing. -/
structure IsHex (t : Token) (sign digits : List Char) : Prop where
  kind : t.kind = .hexConst
  sign_mem : sign ∈ Numeral.sign
  all_digits : ∀ c ∈ digits, isHexDigit c = true
  text : ∃ mark letters, t.value.toList = sign ++ '0' :: mark :: (digits ++ letters) ∧
    Numeral.isHexMark mark = true ∧ ∀ c ∈ letters, isIntegerSuffix c = true

variable {t : Token} {sign digits : List Char}

theorem long?_of_decimal (h : t.IsDecimal sign digits) :
    t.long? = toInt64? (signed (Numeral.isNegative sign) (Numeral.denoted 10 digits)) := by
  obtain ⟨letters, htext, hletters⟩ := h.text
  unfold long?
  rw [h.kind, htext]
  exact Numeral.readDecimal?_eq h.sign_mem h.ne_nil h.all_digits hletters

theorem int?_of_decimal (h : t.IsDecimal sign digits) :
    t.int? = toInt32? (signed (Numeral.isNegative sign) (Numeral.denoted 10 digits)) := by
  obtain ⟨letters, htext, hletters⟩ := h.text
  unfold int?
  rw [h.kind, htext, ← Number.toInt32?_of_toInt64?]
  dsimp only
  rw [Numeral.readDecimal?_eq h.sign_mem h.ne_nil h.all_digits hletters]

theorem long?_of_hex (h : t.IsHex sign digits) :
    t.long? = if digits ≠ [] ∧ Numeral.denoted 16 digits < 2 ^ 64 then
        let v := (UInt64.ofNat (Numeral.denoted 16 digits)).toInt64
        some (if Numeral.isNegative sign then -v else v)
      else none := by
  obtain ⟨mark, letters, htext, hmark, hletters⟩ := h.text
  unfold long? readHexLong?
  rw [h.kind, htext]
  dsimp only
  rw [Numeral.splitHex_eq h.sign_mem hmark h.all_digits hletters, Numeral.readHex?_eq 64 h.all_digits]
  by_cases hword : digits ≠ [] ∧ Numeral.denoted 16 digits < 2 ^ 64
  · rw [if_pos hword, if_pos hword]
    rfl
  · rw [if_neg hword, if_neg hword]
    rfl

theorem int?_of_hex (h : t.IsHex sign digits) :
    t.int? = if digits ≠ [] ∧ Numeral.denoted 16 digits < 2 ^ 32 then
        let v := (UInt32.ofNat (Numeral.denoted 16 digits)).toInt32
        some (if Numeral.isNegative sign then -v else v)
      else none := by
  obtain ⟨mark, letters, htext, hmark, hletters⟩ := h.text
  unfold int? readHexInt?
  rw [h.kind, htext]
  dsimp only
  rw [Numeral.splitHex_eq h.sign_mem hmark h.all_digits hletters, Numeral.readHex?_eq 32 h.all_digits]
  by_cases hword : digits ≠ [] ∧ Numeral.denoted 16 digits < 2 ^ 32
  · rw [if_pos hword, if_pos hword]
    rfl
  · rw [if_neg hword, if_neg hword]
    rfl

end Token

end HeaderLex
