import HeaderLex.Proofs.IntegerTokens
import HeaderLex.Proofs.Rounding

/-!
# Fractions of whole numbers

A fraction may be spelled as a whole number with a point and a zero behind it.  It is read as a double,
and as a word by way of the double.  If the number is one of the format, the double is exact; the long
word is then the nearest one, whether the number is in range or not.

* `Token.IsWholeFraction`   fractions that are spelled as whole numbers;
* `readDouble?_eq`          a number that begins with a digit is read as a decimal;
* `toInt_clampInt64`        clamping gives the nearest word;
* `truncated?_of_whole`     the double of a whole fraction is cut off without a loss;
* `whole_fraction_words_iff`   the words of a whole fraction.
-/

namespace HeaderLex

open Number (Binary Format Decimal isDigit readDouble? signed toInt32?)
open Lexeme (isSign)
open Token (isFloatSuffix)

/-! ## reading a whole number as a double -/

namespace Numeral

variable {sign digits body : List Char}

theorem denoted_append_zero (digits : List Char) :
    denoted 10 (digits ++ ['0']) = denoted 10 digits * 10 := by
  have hzero : (Number.digitValue? '0').getD 0 = 0 := by decide
  unfold denoted
  rw [List.reverse_append, List.reverse_singleton, List.singleton_append, List.map_cons, hzero,
    Nat.ofDigits_cons, Nat.zero_add, Nat.mul_comm]

/-- The point and the zero make the digits ten times as large, and the exponent one less. -/
theorem read?_whole (hne : digits ≠ []) (hdigits : ∀ c ∈ digits, isDigit c = true) :
    Decimal.read? (digits ++ ['.', '0']) = some ⟨denoted 10 digits * 10, -1⟩ := by
  have hall : ∀ c ∈ digits ++ ['0'], isDigit c = true := by
    intro c hc
    rcases List.mem_append.1 hc with hc | hc
    · exact hdigits c hc
    · rw [List.mem_singleton.1 hc]
      decide
  have hread := readDigits?_eq (areDigits_decimal hall) (List.append_ne_nil_of_left_ne_nil hne _)
  unfold Decimal.read?
  rw [List.takeWhile_append_of_pos hdigits, List.dropWhile_append_of_pos hdigits,
    show ['.', '0'].takeWhile isDigit = [] by decide, List.append_nil]
  show (Number.readDigits? 10 (digits ++ ['0'])).bind (fun n => some (Decimal.mk n (-1))) = _
  rw [hread, denoted_append_zero, Option.bind_some]

theorem round_tenths (f : Format) (negative : Bool) (n : Nat) :
    Decimal.round f negative ⟨n, -1⟩ = f.round negative n 10 := by
  have hten : Nat.pow 10 (- -1 : Int).toNat = 10 := by decide
  unfold Decimal.round
  dsimp only
  rw [if_neg (by decide), hten]

theorem toLower_of_isDigit {c : Char} (h : isDigit c = true) : c.toLower = c := by
  have hrange : c.toNat ≤ 0x39 := by
    simp only [isDigit, Bool.and_eq_true, decide_eq_true_eq] at h
    exact h.2
  unfold Char.toLower
  rw [dif_neg]
  intro hupper
  have hlow : 'A'.val.toNat ≤ c.val.toNat := UInt32.le_iff_toNat_le.1 hupper.1
  exact absurd (hlow.trans hrange) (by decide)

/-- A number that begins with a digit is no word. -/
theorem readDouble?_eq (hsign : sign ∈ Numeral.sign) (hbody : body.head?.any isDigit = true) :
    readDouble? (sign ++ body) = (Decimal.read? body).map (Decimal.round .double (isNegative sign)) := by
  cases body with
  | nil => cases hbody
  | cons c cs =>
    have hc : isDigit c = true := hbody
    have hi : c ≠ 'i' := by
      rintro rfl
      exact absurd hc (by decide)
    have hn : c ≠ 'n' := by
      rintro rfl
      exact absurd hc (by decide)
    have hsplit := @splitSign_append sign hsign (c :: cs) (isSign_of_isDigit hc)
    unfold readDouble?
    rw [hsplit]
    dsimp only
    rw [List.map_cons, toLower_of_isDigit hc, if_neg, if_neg]
    · intro hword
      exact hn (List.cons.inj hword).1
    · intro hword
      rcases List.mem_pair.1 (List.contains_iff_mem.1 hword) with hword | hword
      · exact hi (List.cons.inj hword).1
      · exact hi (List.cons.inj hword).1

end Numeral

namespace Number

theorem toInt_clampInt64 (v : Int) :
    (Binary.clampInt64 v).toInt = max (-2 ^ 63) (min v (2 ^ 63 - 1)) := by
  have hmin : Int64.minValue.toInt = -2 ^ 63 := by decide
  have hmax : Int64.maxValue.toInt = 2 ^ 63 - 1 := by decide
  unfold Binary.clampInt64
  rw [hmin, hmax]
  split
  · omega
  split
  · omega
  · rw [Int64.toInt_ofInt_of_le (by omega) (by omega)]
    omega

end Number

/-! ## whole fractions -/

namespace Token

/-- The token is spelled as a whole number with a sign and digits, a point, a zero, and letters. -/
structure IsWholeFraction (t : Token) (sign digits : List Char) : Prop where
  kind : t.kind = .floatConst
  sign_mem : sign ∈ Numeral.sign
  ne_nil : digits ≠ []
  all_digits : ∀ c ∈ digits, isDigit c = true
  text : ∃ letters, t.value.toList = sign ++ (digits ++ ['.', '0']) ++ letters ∧
    ∀ c ∈ letters, isFloatSuffix c = true

variable {t : Token} {sign digits : List Char}

theorem double?_of_whole (h : t.IsWholeFraction sign digits) :
    t.double? = some (Format.double.round (Numeral.isNegative sign) (Numeral.denoted 10 digits * 10) 10) := by
  obtain ⟨letters, htext, hletters⟩ := h.text
  have hlast : (sign ++ (digits ++ ['.', '0'])).getLast?.any isFloatSuffix = false := by
    rw [← List.append_assoc, List.getLast?_append_of_ne_nil _ (by decide)]
    decide
  have hhead : (digits ++ ['.', '0']).head?.any isDigit = true := by
    cases hdigits : digits with
    | nil => exact absurd hdigits h.ne_nil
    | cons c cs => exact h.all_digits c (hdigits ▸ List.mem_cons_self)
  unfold double?
  rw [h.kind, htext]
  dsimp only
  rw [Numeral.dropEndWhile_letters hlast hletters, Numeral.readDouble?_eq h.sign_mem hhead,
    Numeral.read?_whole h.ne_nil h.all_digits, Option.map_some, Numeral.round_tenths]

/-- The double of a whole fraction is cut off without a loss. -/
theorem truncated?_of_whole (h : t.IsWholeFraction sign digits)
    (hhas : Format.double.Has (Numeral.denoted 10 digits)) :
    t.truncated? = some (Binary.clampInt64 (integer 10 sign digits), true) := by
  obtain ⟨m, e, hround, hwhole⟩ :=
    Format.round_whole (Numeral.isNegative sign) (by decide : 0 < 10) hhas
  obtain ⟨hpart, hintegral⟩ := hwhole.parts
  unfold truncated?
  rw [if_pos h.kind, double?_of_whole h, hround, Option.map_some, Binary.truncate, hpart, hintegral]
  rfl

end Token

/-- The words of a whole fraction whose number is one of the format, with its sign.  The short word is
the number if it is in range.  The long word is there in any case, and is the nearest one; so it is
what the number says just if the number is in range. -/
theorem whole_fraction_words_iff {t : Token} {sign digits : List Char}
    (h : t.IsWholeFraction sign digits) (hhas : Format.double.Has (Numeral.denoted 10 digits)) :
    let m := Token.integer 10 sign digits
    t.long?.map Int64.toInt = some (max (-2 ^ 63) (min m (2 ^ 63 - 1))) ∧
    (t.long?.map Int64.toInt = (if -2 ^ 63 ≤ m ∧ m < 2 ^ 63 then some m else none) ↔
      -2 ^ 63 ≤ m ∧ m < 2 ^ 63) ∧
    t.int?.map Int32.toInt = if -2 ^ 31 ≤ m ∧ m < 2 ^ 31 then some m else none := by
  intro m
  have htruncated := Token.truncated?_of_whole h hhas
  have hclamp := Number.toInt_clampInt64 m
  have hlong : t.long?.map Int64.toInt = some (max (-2 ^ 63) (min m (2 ^ 63 - 1))) := by
    unfold Token.long?
    rw [h.kind]
    dsimp only
    rw [htruncated, ← hclamp]
    rfl
  have hint : t.int? = toInt32? (max (-2 ^ 63) (min m (2 ^ 63 - 1))) := by
    unfold Token.int?
    rw [h.kind]
    dsimp only
    rw [htruncated, ← hclamp]
    rfl
  refine ⟨hlong, ?_, ?_⟩
  · rw [hlong]
    by_cases hm : -2 ^ 63 ≤ m ∧ m < 2 ^ 63
    · rw [if_pos hm, min_eq_left (by omega), max_eq_right hm.1]
      exact iff_of_true rfl hm
    · rw [if_neg hm]
      exact iff_of_false (Option.some_ne_none _) hm
  · rw [hint, Number.map_toInt_toInt32?]
    by_cases hm : -2 ^ 31 ≤ m ∧ m < 2 ^ 31
    · rw [min_eq_left (by omega), max_eq_right (by omega)]
    · rw [if_neg hm, if_neg (by omega)]

/-- The least number that is too large for a long word is read as the largest word. -/
theorem whole_fraction_words_sample :
    let t : Token := ⟨.floatConst, "+9223372036854775808.0F", ⟨0, 1⟩, ⟨0, 1⟩⟩
    let digits := "9223372036854775808".toList
    let m := Token.integer 10 ['+'] digits
    (Lexer.ofSource "+9223372036854775808.0F" ⟨true, false, false, true⟩).HandsOut t ∧
    t.IsWholeFraction ['+'] digits ∧ Format.double.Has (Numeral.denoted 10 digits) ∧
    m = 2 ^ 63 ∧ t.long? = some (2 ^ 63 - 1) ∧
    t.long?.map Int64.toInt = some (max (-2 ^ 63) (min m (2 ^ 63 - 1))) ∧
    (t.long?.map Int64.toInt = (if -2 ^ 63 ≤ m ∧ m < 2 ^ 63 then some m else none) ↔
      -2 ^ 63 ≤ m ∧ m < 2 ^ 63) ∧
    t.int?.map Int32.toInt = if -2 ^ 31 ≤ m ∧ m < 2 ^ 31 then some m else none := by
  intro t digits m
  have hout := @Lexer.HandsOut.answer
    (Lexer.ofSource "+9223372036854775808.0F" ⟨true, false, false, true⟩) t [] .next
    (ok_of_toOption (by decide +kernel))
  have hwhole : t.IsWholeFraction ['+'] digits :=
    ⟨rfl, (Language.mem_add _ _ _).2 (.inr ⟨'+', rfl, rfl⟩), by decide,
      List.all_eq_true.1 (by decide), ['F'], by decide, List.all_eq_true.1 (by decide)⟩
  have hhas : Format.double.Has (Numeral.denoted 10 digits) :=
    ⟨1, 63, by decide, by decide, by decide⟩
  exact ⟨hout, hwhole, hhas, by decide +kernel, by decide +kernel,
    whole_fraction_words_iff hwhole hhas⟩

end HeaderLex
