import HeaderLex.Proofs.HandedOut
import HeaderLex.Proofs.IntegerValues
import Mathlib.Data.Int.ModEq

/-!
# The words of integer tokens

An integer token of a lexer has a spelling of its kind, and so an integer that it denotes.  A decimal
one is read as a word if the integer is in range.  A hexadecimal one is read as a word if its digits
without the sign are in the unsigned range, and the word then agrees with the integer modulo the size
of the word.

* `Token.IsLexeme.number`        numeric tokens come from the number scanner, and are not too long;
* `Token.IsLexeme.mem_alternative`   so their text is a number of their kind;
* `map_toInt_toInt64?`, `toInt_signed_modEq64`, ...   words and their integers;
* `integer_words`                the words of 32 and 64 bits of all integer tokens.
-/

namespace HeaderLex

open Lexeme (numberText)
open Number (toInt32? toInt64? signed)

/-! ## numeric tokens -/

def TokenKind.isNumeric : TokenKind → Bool
  | decimalConst | hexConst | floatConst => true
  | _ => false

/-- Only the number scanner makes numeric lexemes. -/
theorem Lexeme.scan_numeric {c : Char} {cs : List Char} {l : Lexeme} (h : scan c cs = .ok l)
    (hnumeric : l.kind.isNumeric = true) : NumberStart c cs ∧ number (c :: cs) = .ok l := by
  rcases scan_class h with ⟨-, h⟩ | ⟨hstart, h⟩ | ⟨-, h⟩ | ⟨-, h⟩ | h
  · rw [(identifier_ok h).2] at hnumeric
    cases hnumeric
  · exact ⟨NumberStart.iff_class.2 hstart, h⟩
  · obtain ⟨inner, -, hl, -⟩ := character_ok h
    rw [hl] at hnumeric
    cases hnumeric
  · obtain ⟨text, -, hl⟩ := string_ok h
    rw [hl] at hnumeric
    cases hnumeric
  · obtain ⟨text, rest, hs⟩ := symbol_eq c cs
    rw [← Except.ok.inj h, hs] at hnumeric
    cases hnumeric

namespace Token

variable {t : Token} {sign digits : List Char}

theorem isNumeric_eq (t : Token) : t.isNumeric = t.kind.isNumeric := by
  cases hkind : t.kind <;> simp only [isNumeric, isInteger, isFloat, hkind] <;> rfl

theorem IsLexeme.number (h : t.IsLexeme) (hnumeric : t.isNumeric = true) :
    ∃ c cs, NumberStart c cs ∧ t.kind = (numberText (c :: cs)).1 ∧
      t.value.toList = (numberText (c :: cs)).2.1 ∧
      Text.byteLength t.value.toList ≤ maxNumber := by
  obtain ⟨c, cs, l, hscan, hkind, hvalue⟩ := h
  rw [isNumeric_eq, hkind] at hnumeric
  obtain ⟨hstart, hnumber⟩ := Lexeme.scan_numeric hscan hnumeric
  obtain ⟨hfits, rfl⟩ := Lexeme.number_ok hnumber
  rw [hvalue, String.toList_ofList]
  exact ⟨c, cs, hstart, hkind, rfl, hfits⟩

/-- The text of a numeric token is a number of its kind. -/
theorem IsLexeme.mem_alternative (h : t.IsLexeme) (hnumeric : t.isNumeric = true) :
    t.value.toList ∈ Numeral.sign * Numeral.alternative t.kind := by
  obtain ⟨c, cs, hstart, hkind, hvalue, -⟩ := h.number hnumeric
  rw [hkind, hvalue]
  exact (Numeral.numberText_longest hstart.body).1

theorem exists_isDecimal (h : t.IsLexeme) (hkind : t.kind = .decimalConst) :
    ∃ sign digits, t.IsDecimal sign digits := by
  have hmem := h.mem_alternative (by rw [isNumeric_eq, hkind]; rfl)
  rw [hkind] at hmem
  obtain ⟨sign, hsign, body, hbody, htext⟩ := Language.mem_mul.1 hmem
  obtain ⟨digits, letters, rfl, hne, hdigits, hletters⟩ := Numeral.mem_decimal_iff.1 hbody
  exact ⟨sign, digits, hkind, hsign, hne, hdigits, letters, htext.symm, hletters⟩

theorem exists_isHex (h : t.IsLexeme) (hkind : t.kind = .hexConst) :
    ∃ sign digits, t.IsHex sign digits := by
  have hmem := h.mem_alternative (by rw [isNumeric_eq, hkind]; rfl)
  rw [hkind] at hmem
  obtain ⟨sign, hsign, body, hbody, htext⟩ := Language.mem_mul.1 hmem
  obtain ⟨mark, digits, letters, rfl, hmark, hdigits, hletters⟩ := Numeral.mem_hex_iff.1 hbody
  exact ⟨sign, digits, hkind, hsign, hdigits, mark, letters, htext.symm, hmark, hletters⟩

end Token

/-! ## words and their integers -/

namespace Number

theorem map_toInt_toInt32? (v : Int) :
    (toInt32? v).map Int32.toInt = if -2 ^ 31 ≤ v ∧ v < 2 ^ 31 then some v else none := by
  rw [toInt32?_eq]
  split
  · next h => rw [Option.map_some, Int32.toInt_ofInt_of_le h.1 h.2]
  · rfl

theorem map_toInt_toInt64? (v : Int) :
    (toInt64? v).map Int64.toInt = if -2 ^ 63 ≤ v ∧ v < 2 ^ 63 then some v else none := by
  rw [toInt64?_eq]
  split
  · next h => rw [Option.map_some, Int64.toInt_ofInt_of_le h.1 h.2]
  · rfl

/-- An unsigned word, read as a signed one and negated or not, agrees with the signed integer. -/
theorem toInt_signed_modEq32 (negative : Bool) (n : Nat) :
    let v := (UInt32.ofNat n).toInt32
    (if negative then -v else v).toInt ≡ signed negative n [ZMOD 2 ^ 32] := by
  intro v
  have hword : (if negative then -v else v) = Int32.ofInt (signed negative n) := by
    have hv : v = Int32.ofInt n := UInt32.toInt32_ofNat'.trans Int32.ofInt_eq_ofNat.symm
    cases negative with
    | false => exact hv
    | true => exact (congrArg _ hv).trans (Int32.ofInt_neg n).symm
  rw [hword, Int32.toInt_ofInt]
  exact Int.bmod_emod

theorem toInt_signed_modEq64 (negative : Bool) (n : Nat) :
    let v := (UInt64.ofNat n).toInt64
    (if negative then -v else v).toInt ≡ signed negative n [ZMOD 2 ^ 64] := by
  intro v
  have hword : (if negative then -v else v) = Int64.ofInt (signed negative n) := by
    have hv : v = Int64.ofInt n := UInt64.toInt64_ofNat'.trans Int64.ofInt_eq_ofNat.symm
    cases negative with
    | false => exact hv
    | true => exact (congrArg _ hv).trans (Int64.ofInt_neg n).symm
  rw [hword, Int64.toInt_ofInt]
  exact Int.bmod_emod

end Number

/-! ## the words of a token -/

namespace Token

variable {t : Token} {sign digits : List Char}

/-- The integer that a sign and digits denote. -/
def integer (base : Nat) (sign digits : List Char) : Int :=
  signed (Numeral.isNegative sign) (Numeral.denoted base digits)

theorem IsDecimal.words (h : t.IsDecimal sign digits) :
    let v := integer 10 sign digits
    t.long?.map Int64.toInt = (if -2 ^ 63 ≤ v ∧ v < 2 ^ 63 then some v else none) ∧
      t.int?.map Int32.toInt = if -2 ^ 31 ≤ v ∧ v < 2 ^ 31 then some v else none := by
  rw [long?_of_decimal h, int?_of_decimal h]
  exact ⟨Number.map_toInt_toInt64? _, Number.map_toInt_toInt32? _⟩

theorem IsHex.words (h : t.IsHex sign digits) :
    (if digits ≠ [] ∧ Numeral.denoted 16 digits < 2 ^ 64 then
        ∃ w, t.long? = some w ∧ w.toInt ≡ integer 16 sign digits [ZMOD 2 ^ 64]
      else t.long? = none) ∧
    if digits ≠ [] ∧ Numeral.denoted 16 digits < 2 ^ 32 then
        ∃ w, t.int? = some w ∧ w.toInt ≡ integer 16 sign digits [ZMOD 2 ^ 32]
      else t.int? = none := by
  rw [long?_of_hex h, int?_of_hex h]
  constructor
  · split
    · exact ⟨_, rfl, Number.toInt_signed_modEq64 _ _⟩
    · rfl
  · split
    · exact ⟨_, rfl, Number.toInt_signed_modEq32 _ _⟩
    · rfl

end Token

/-- The words of every integer token that a lexer hands out.  A decimal integer is read if it is in
range, with its sign.  A hexadecimal one is read if it has digits and these are in range, without
its sign; its word is the signed one that agrees with it. -/
theorem integer_words {source : String} {preferences : LexicalPreferences} {p : Option Preprocessor}
    {t : Token} (h : ((Lexer.ofSource source preferences).withPreprocessor p).HandsOut t) :
    (t.kind = .decimalConst → ∃ sign digits, t.IsDecimal sign digits ∧
      let v := Token.integer 10 sign digits
      t.long?.map Int64.toInt = (if -2 ^ 63 ≤ v ∧ v < 2 ^ 63 then some v else none) ∧
      t.int?.map Int32.toInt = if -2 ^ 31 ≤ v ∧ v < 2 ^ 31 then some v else none) ∧
    (t.kind = .hexConst → ∃ sign digits, t.IsHex sign digits ∧
      (if digits ≠ [] ∧ Numeral.denoted 16 digits < 2 ^ 64 then
          ∃ w, t.long? = some w ∧ w.toInt ≡ Token.integer 16 sign digits [ZMOD 2 ^ 64]
        else t.long? = none) ∧
      if digits ≠ [] ∧ Numeral.denoted 16 digits < 2 ^ 32 then
          ∃ w, t.int? = some w ∧ w.toInt ≡ Token.integer 16 sign digits [ZMOD 2 ^ 32]
        else t.int? = none) := by
  have hlexeme : t.kind ≠ .line → t.kind ≠ .endOfFile → t.IsLexeme := by
    intro hline hend
    rcases h.cases rfl rfl with hkind | hkind | hlexeme
    · exact absurd hkind hline
    · exact absurd hkind hend
    · exact hlexeme
  constructor
  · intro hkind
    obtain ⟨sign, digits, hdecimal⟩ :=
      Token.exists_isDecimal (hlexeme (by rw [hkind]; decide) (by rw [hkind]; decide)) hkind
    exact ⟨sign, digits, hdecimal, hdecimal.words⟩
  · intro hkind
    obtain ⟨sign, digits, hhex⟩ :=
      Token.exists_isHex (hlexeme (by rw [hkind]; decide) (by rw [hkind]; decide)) hkind
    exact ⟨sign, digits, hhex, hhex.words⟩

/-- The digits fill a word of 32 bits, and its sign is folded into the word: the least short integer is
its own negative, and the long one is negative. -/
theorem integer_words_sample :
    let lx := (Lexer.ofSource "#if 1\n-0x80000000uL" ⟨true, false, false, true⟩).withPreprocessor
      (some (.conditional Conditional.standard))
    let t : Token := ⟨.hexConst, "-0x80000000uL", ⟨6, 2⟩, ⟨6, 2⟩⟩
    lx.HandsOut t ∧ t.long? = some (-0x80000000) ∧ t.int? = some (-0x80000000) ∧
    ∃ sign digits, t.IsHex sign digits ∧
      (if digits ≠ [] ∧ Numeral.denoted 16 digits < 2 ^ 64 then
          ∃ w, t.long? = some w ∧ w.toInt ≡ Token.integer 16 sign digits [ZMOD 2 ^ 64]
        else t.long? = none) ∧
      if digits ≠ [] ∧ Numeral.denoted 16 digits < 2 ^ 32 then
          ∃ w, t.int? = some w ∧ w.toInt ≡ Token.integer 16 sign digits [ZMOD 2 ^ 32]
        else t.int? = none := by
  intro lx t
  have hout : lx.HandsOut t :=
    @Lexer.HandsOut.answer lx t [] .next (ok_of_toOption (by decide +kernel))
  exact ⟨hout, by decide +kernel, by decide +kernel, (integer_words hout).2 rfl⟩

end HeaderLex
