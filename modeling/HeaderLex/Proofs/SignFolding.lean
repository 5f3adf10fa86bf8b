import HeaderLex.Proofs.IntegerValues
import HeaderLex.Proofs.SignedConstants
import HeaderLex.Proofs.Yield

/-!
# A sign apart from its number

The sign of an integer may stand directly in front of its digits, and is then part of its token, or
apart from them as a token of its own.  In the first case the integer with its sign must be a word, in
the second the integer without it: this makes a difference for one integer only, the least of the
words.

* `peek_behind_sign`         the number behind a sign, and behind the gap between the two;
* `result_of_sign_apart`, `result_of_sign_joined`   what the two spellings are read as;
* `map_neg_iff`              negating a word after the range check or before it;
* `sign_apart_iff`           the two spellings agree, except for the least word, and where the sign makes
                             the number too long.
-/

namespace HeaderLex

open HeaderLex.Grammar
open Number (isDigit toInt32? toInt64? signed)
open Lexeme (isSign isHexDigit numberText)
open Token (isIntegerSuffix)

/-! ## numbers at the end of a source -/

theorem scan_of_number {c : Char} {cs : List Char} {kind : TokenKind} (hstart : NumberStart c cs)
    (h : c :: cs ∈ Numeral.sign * Numeral.alternative kind) :
    Lexeme.scan c cs = if maxNumber < Text.byteLength (c :: cs) then .error (.numberTooLong maxNumber)
      else .ok ⟨kind, c :: cs, [], 0⟩ := by
  rw [hstart.scan]
  unfold Lexeme.number
  rw [numberText_of_mem hstart h]

/-- Neither a sign nor a digit begins a piece of a gap. -/
theorem GapPiece.next?_sign_or_digit {c : Char} (h : isSign c = true ∨ isDigit c = true)
    (cs : List Char) : GapPiece.next? (c :: cs) = .ok none := by
  have hne : ∀ d, isSign d = false → isDigit d = false → c ≠ d := by
    rintro d hsign hdigit rfl
    rw [hsign, hdigit] at h
    exact absurd h (by decide)
  rw [GapPiece.next?_none_iff]
  refine ⟨?_, hne _ rfl rfl, ?_, ?_, ?_, ?_, ?_⟩
  · cases hc : isLineBlank c with
    | false => rfl
    | true =>
      have hblank : (((c = ' ' ∨ c = '\t') ∨ c = '\r') ∨ c = '\x0b') ∨ c = '\x0c' := by
        simpa [isLineBlank] using hc
      rcases hblank with (((rfl | rfl) | rfl) | rfl) | rfl <;> exact absurd rfl (hne _ rfl rfl)
  all_goals exact fun _ hc => absurd hc (hne _ rfl rfl)

/-- A sign in front of a blank is a symbol. -/
theorem scan_sign {s : Char} (hs : isSign s = true) (cs : List Char) :
    Lexeme.scan s (' ' :: cs) = .ok ⟨.symbol, [s], ' ' :: cs, 0⟩ := by
  obtain rfl | rfl : s = '+' ∨ s = '-' := by simpa [isSign] using hs
  · rfl
  · rfl

/-! ## the two spellings -/

section

variable {υ α : Type} {decode : Token → Option α} {negate : α → α} {s c : Char} {cs : List Char}
  {kind : TokenKind} (preferences : LexicalPreferences) (arena : Arena) (user : υ)

/-- A fresh lexer on a source. -/
def Stream.ofText (text : List Char) : Stream :=
  .live (Lexer.ofSource (String.ofList text) preferences)

theorem isMark_ofList (s d : Char) (start unget : Position) :
    (⟨.symbol, String.ofList [s], start, unget⟩ : Token).isMark d = (s == d) := by
  have htext : d.toString = String.ofList [d] := rfl
  show (String.ofList [s] == d.toString) = (s == d)
  rw [htext, Bool.eq_iff_iff, beq_iff_eq, beq_iff_eq, String.ofList_inj, List.singleton_inj]

/-- Behind a sign and a blank, above a checkpoint, the lexer looks at what follows. -/
theorem peek_behind_sign {l : Lexeme} (hs : isSign s = true) (hc : isDigit c = true)
    (hscan : Lexeme.scan c cs = .ok l) :
    let stream := Stream.ofText preferences (s :: ' ' :: c :: cs)
    (∃ start unget, stream.peek.result = .ok ⟨.symbol, String.ofList [s], start, unget⟩) ∧
      stream.peek.state.checkpoints < stream.peek.state.capacity ∧
      ∃ start unget, (behindSign stream).peek.result = .ok ⟨l.kind, String.ofList l.text, start, unget⟩ := by
  intro stream
  let lx := Lexer.ofSource (String.ofList (s :: ' ' :: c :: cs)) preferences
  have hrest : lx.cursor.rest = rowText [] ++ s :: ' ' :: c :: cs := String.toList_ofList
  obtain ⟨hpeek, hstate⟩ := @Lexer.peek_of_row lx [] s (' ' :: c :: cs) _
    (Lexer.ahead_of_bare rfl) rfl trivial hrest
    (GapPiece.next?_sign_or_digit (.inl hs) _) (scan_sign hs _)
  have hsaved : lx.peek.state.saved = [] := by
    rw [hstate]
    rfl
  let lx' := lx.peek.state.save.state.consume.state
  have hroom : lx.peek.state.saved.length < maxCheckpoints := by
    rw [hsaved]
    decide
  have hplace : lx'.cursor.rest = rowText [.blank ' '] ++ c :: cs ∧ lx'.current = none ∧
      lx'.preprocessor = none := by
    simp only [lx']
    rw [Lexer.save_of_free hroom, hstate]
    exact ⟨rfl, rfl, rfl⟩
  obtain ⟨hcursor, hcurrent, hbare⟩ := hplace
  obtain ⟨hlook, -⟩ := @Lexer.peek_of_row lx' [.blank ' '] c cs l (Lexer.ahead_of_bare hbare)
    hcurrent ⟨rfl, trivial⟩ hcursor (GapPiece.next?_sign_or_digit (.inr hc) _) hscan
  exact ⟨⟨_, _, hpeek⟩, hroom, _, _, hlook⟩

theorem result_of_sign_apart (hs : isSign s = true) (hc : isDigit c = true)
    (hmem : c :: cs ∈ Numeral.alternative kind) (hfits : Text.byteLength (c :: cs) ≤ maxNumber) :
    ∃ t : Token, t.kind = kind ∧ t.value.toList = c :: cs ∧
      (trySigned decode negate
        (⟨.ofText preferences (s :: ' ' :: c :: cs), arena, user⟩ : Session υ)).result
          = .ok ((decode t).map fun v => if s = '-' then negate v else v) := by
  have hscan : Lexeme.scan c cs = .ok ⟨kind, c :: cs, [], 0⟩ := by
    have hstart : NumberStart c cs := .inl hc
    have hnumber : c :: cs ∈ Numeral.sign * Numeral.alternative kind :=
      Numeral.mem_perhaps_mul.2 (.inl hmem)
    rw [scan_of_number hstart hnumber, if_neg (Nat.not_lt_of_le hfits)]
  obtain ⟨⟨start, unget, hsign⟩, hroom, start', unget', hlook⟩ :=
    peek_behind_sign preferences hs hc hscan
  refine ⟨⟨kind, String.ofList (c :: cs), start', unget'⟩, rfl, String.toList_ofList, ?_⟩
  have hmark : ∀ d, (⟨.symbol, String.ofList [s], start, unget⟩ : Token).isMark d = (s == d) :=
    fun d => isMark_ofList s d start unget
  have hsigned : ((⟨.symbol, String.ofList [s], start, unget⟩ : Token).isMark '-' ||
      (⟨.symbol, String.ofList [s], start, unget⟩ : Token).isMark '+') = true := by
    rw [hmark, hmark, Bool.or_comm]
    exact hs
  obtain ⟨hresult, -⟩ := @trySigned_outcome υ α decode negate
    ⟨.ofText preferences (s :: ' ' :: c :: cs), arena, user⟩ _ hsign hsigned hroom
  dsimp only at hresult
  rw [hresult, hlook]
  simp only [Except.map, hmark, beq_iff_eq]

theorem result_of_sign_joined (hs : isSign s = true) (hc : isDigit c = true)
    (hmem : c :: cs ∈ Numeral.alternative kind) :
    ∃ t : Token, t.kind = kind ∧ t.value.toList = s :: c :: cs ∧
      (trySigned decode negate
        (⟨.ofText preferences (s :: c :: cs), arena, user⟩ : Session υ)).result
          = if maxNumber < Text.byteLength (s :: c :: cs) then
              .error (.source ⟨.numberTooLong maxNumber, Position.start⟩)
            else .ok (decode t) := by
  have hsign : s = '+' ∨ s = '-' := by simpa [isSign] using hs
  have hscan : Lexeme.scan s (c :: cs)
      = if maxNumber < Text.byteLength (s :: c :: cs) then .error (.numberTooLong maxNumber)
        else .ok ⟨kind, s :: c :: cs, [], 0⟩ := by
    have hstart : NumberStart s (c :: cs) := .inr ⟨hsign.imp_right .inl, hc⟩
    have hnumber : s :: c :: cs ∈ Numeral.sign * Numeral.alternative kind :=
      Numeral.mem_perhaps_mul.2 (.inr (Numeral.mem_one_mul.2 ⟨s, _, hs, hmem, rfl⟩))
    exact scan_of_number hstart hnumber
  have hkind : (kind == .symbol) = false := by
    cases kind with
    | symbol => exact absurd hmem (Language.notMem_zero _)
    | _ => rfl
  let lx := Lexer.ofSource (String.ofList (s :: c :: cs)) preferences
  have hrest : lx.cursor.rest = rowText [] ++ s :: c :: cs := String.toList_ofList
  have hnone := GapPiece.next?_sign_or_digit (.inl hs) (c :: cs)
  by_cases hlong : maxNumber < Text.byteLength (s :: c :: cs)
  · rw [if_pos hlong] at hscan
    have hfails := @Lexer.peek_fails_of_row lx [] s (c :: cs) _ (Lexer.ahead_of_bare rfl) rfl
      trivial hrest hnone hscan
    refine ⟨⟨kind, String.ofList (s :: c :: cs), Position.start, Position.start⟩, rfl,
      String.toList_ofList, ?_⟩
    rw [if_pos hlong]
    exact trySigned_fails hfails
  · rw [if_neg hlong] at hscan
    obtain ⟨hpeek, -⟩ := @Lexer.peek_of_row lx [] s (c :: cs) _ (Lexer.ahead_of_bare rfl) rfl
      trivial hrest hnone hscan
    simp only [if_neg hlong]
    refine ⟨_, ?_, ?_, trySigned_of_other hpeek ?_⟩
    · rfl
    · exact String.toList_ofList
    simp [Token.isMark, Token.isSymbol, hkind]

end

/-! ## a word and its negative -/

/-- The negative of a word that is in range is the word of the negative integer.  Of the integers
whose negative is in range, one is out of range itself. -/
theorem map_neg_iff {α : Type} {of : Int → α} {negate : α → α} {fit : Int → Option α} {bound : Int}
    (hpos : 0 < bound) (hnegate : ∀ v, negate (of v) = of (-v))
    (hfit : ∀ v, fit v = if -bound ≤ v ∧ v < bound then some (of v) else none) (n : Nat) :
    fit (-n) = (fit n).map negate ↔ (n : Int) ≠ bound := by
  rw [hfit, hfit]
  rcases lt_trichotomy (n : Int) bound with hlt | heq | hgt
  · rw [if_pos (by omega), if_pos (by omega), Option.map_some, hnegate]
    exact ⟨fun _ => by omega, fun _ => rfl⟩
  · rw [if_pos (by omega), if_neg (by omega)]
    exact ⟨fun h => (by cases h), fun h => absurd heq h⟩
  · rw [if_neg (by omega), if_neg (by omega)]
    exact ⟨fun _ => by omega, fun _ => rfl⟩

namespace Token

variable {t joined : Token} {s : Char} {digits : List Char}

theorem IsDecimal.fold_iff (h : t.IsDecimal [] digits) (h' : joined.IsDecimal [s] digits)
    (hs : isSign s = true) :
    (joined.int? = (t.int?.map fun v => if s = '-' then -v else v) ↔
        ¬ (s = '-' ∧ Numeral.denoted 10 digits = 2 ^ 31)) ∧
      (joined.long? = (t.long?.map fun v => if s = '-' then -v else v) ↔
        ¬ (s = '-' ∧ Numeral.denoted 10 digits = 2 ^ 63)) := by
  rw [int?_of_decimal h, int?_of_decimal h', long?_of_decimal h, long?_of_decimal h']
  obtain rfl | rfl : s = '+' ∨ s = '-' := by simpa [isSign] using hs
  · have hid : ∀ {α : Type} (x : Option α) (f : α → α),
        x = x.map fun v => if '+' = '-' then f v else v := fun x f => Option.map_id'.symm
    refine ⟨⟨fun _ h => absurd h.1 (by decide), fun _ => ?_⟩,
      fun _ h => absurd h.1 (by decide), fun _ => ?_⟩
    · exact hid _ _
    · exact hid _ _
  · have hint := @map_neg_iff _ Int32.ofInt (- ·) toInt32? (2 ^ 31) (by decide)
      (fun v => (Int32.ofInt_neg v).symm) Number.toInt32?_eq (Numeral.denoted 10 digits)
    have hlong := @map_neg_iff _ Int64.ofInt (- ·) toInt64? (2 ^ 63) (by decide)
      (fun v => (Int64.ofInt_neg v).symm) Number.toInt64?_eq (Numeral.denoted 10 digits)
    refine ⟨hint.trans ?_, hlong.trans ?_⟩
    · rw [and_iff_right rfl]
      exact not_congr (by norm_cast)
    · rw [and_iff_right rfl]
      exact not_congr (by norm_cast)

theorem IsHex.fold (h : t.IsHex [] digits) (h' : joined.IsHex [s] digits)
    (hs : isSign s = true) :
    joined.int? = (t.int?.map fun v => if s = '-' then -v else v) ∧
      joined.long? = t.long?.map fun v => if s = '-' then -v else v := by
  have hnegative : Numeral.isNegative [s] = (s == '-') := by
    obtain rfl | rfl : s = '+' ∨ s = '-' := by simpa [isSign] using hs
    · rfl
    · rfl
  rw [int?_of_hex h, int?_of_hex h', long?_of_hex h, long?_of_hex h', hnegative]
  constructor
  · split
    · simp [Numeral.isNegative]
    · rfl
  · split
    · simp [Numeral.isNegative]
    · rfl

end Token

/-! ## the two spellings compared -/

/-- Where the token with its sign has the value of the token without it, folded with the sign, and
the sign does not make the number too long, the two spellings are read alike. -/
theorem apart_iff_of_fold {υ α : Type} {decode : Token → Option α} {negate : α → α} {s c : Char}
    {cs : List Char} {kind : TokenKind} {exception : Prop} (hs : isSign s = true)
    (hc : isDigit c = true) (hmem : c :: cs ∈ Numeral.alternative kind)
    (hfits : Text.byteLength (c :: cs) ≤ maxNumber)
    (hfold : ∀ t joined : Token, t.kind = kind → t.value.toList = c :: cs → joined.kind = kind →
      joined.value.toList = s :: c :: cs →
      (decode joined = ((decode t).map fun v => if s = '-' then negate v else v) ↔ ¬ exception))
    (preferences : LexicalPreferences) (arena : Arena) (user : υ) :
    let apart : Session υ := ⟨.ofText preferences (s :: ' ' :: c :: cs), arena, user⟩
    let joined : Session υ := ⟨.ofText preferences (s :: c :: cs), arena, user⟩
    (∃ v, (trySigned decode negate apart).result = .ok v) ∧
      ((trySigned decode negate joined).result = (trySigned decode negate apart).result ↔
        Text.byteLength (s :: c :: cs) ≤ maxNumber ∧ ¬ exception) := by
  intro apart joined
  obtain ⟨t, hkind, htext, hapart⟩ :=
    @result_of_sign_apart υ α decode negate s c cs kind preferences arena user hs hc hmem hfits
  obtain ⟨t', hkind', htext', hjoined⟩ :=
    @result_of_sign_joined υ α decode negate s c cs kind preferences arena user hs hc hmem
  rw [hapart, hjoined, ← hfold t t' hkind htext hkind' htext']
  refine ⟨⟨_, rfl⟩, ?_⟩
  by_cases hlong : maxNumber < Text.byteLength (s :: c :: cs)
  · rw [if_pos hlong]
    exact ⟨fun h => (by cases h), fun h => absurd h.1 (Nat.not_le_of_lt hlong)⟩
  · rw [if_neg hlong, Except.ok.injEq]
    exact ⟨fun h => ⟨Nat.le_of_not_lt hlong, h⟩, And.right⟩

/-- The number that the digits of an unsigned decimal integer denote. -/
def Numeral.whole (n : List Char) : Nat := denoted 10 (n.takeWhile isDigit)

theorem Numeral.whole_append {digits letters : List Char} (hdigits : ∀ c ∈ digits, isDigit c = true)
    (hletters : ∀ c ∈ letters, isIntegerSuffix c = true) :
    whole (digits ++ letters) = denoted 10 digits := by
  have hstop : letters.takeWhile isDigit = [] := by
    cases letters with
    | nil => rfl
    | cons c cs =>
      have hc := isDigit_of_isIntegerSuffix (hletters c List.mem_cons_self)
      rw [List.takeWhile_cons_of_neg (by simp [hc])]
  rw [whole, List.takeWhile_append_of_pos hdigits, hstop, List.append_nil]

/-- An unsigned integer begins with a digit, and its value is folded with a sign unless it is the least
word. -/
theorem fold_iff_of_integer {s : Char} {n : List Char} (hs : isSign s = true)
    (hn : n ∈ Numeral.decimal + Numeral.hex) :
    ∃ kind, n ∈ Numeral.alternative kind ∧ n.head?.any isDigit = true ∧
      ∀ t joined : Token, t.kind = kind → t.value.toList = n → joined.kind = kind →
        joined.value.toList = s :: n →
        (joined.int? = (t.int?.map fun v => if s = '-' then -v else v) ↔
          ¬ (s = '-' ∧ n ∈ Numeral.decimal ∧ Numeral.whole n = 2 ^ 31)) ∧
        (joined.long? = (t.long?.map fun v => if s = '-' then -v else v) ↔
          ¬ (s = '-' ∧ n ∈ Numeral.decimal ∧ Numeral.whole n = 2 ^ 63)) := by
  have hsigned : [s] ∈ Numeral.sign := (Language.mem_add _ _ _).2 (.inr ⟨s, hs, rfl⟩)
  have hunsigned : [] ∈ Numeral.sign := (Language.mem_add _ _ _).2 (.inl Language.nil_mem_one)
  rcases (Language.mem_add _ _ _).1 hn with hdecimal | hhex
  · obtain ⟨digits, letters, rfl, hne, hdigits, hletters⟩ := Numeral.mem_decimal_iff.1 hdecimal
    refine ⟨.decimalConst, hdecimal, ?_, ?_⟩
    · cases digits with
      | nil => exact absurd rfl hne
      | cons c cs => exact hdigits c List.mem_cons_self
    · intro t joined hkind hvalue hkind' hvalue'
      have hapart : t.IsDecimal [] digits :=
        ⟨hkind, hunsigned, hne, hdigits, letters, hvalue, hletters⟩
      have hjoined : joined.IsDecimal [s] digits :=
        ⟨hkind', hsigned, hne, hdigits, letters, hvalue', hletters⟩
      rw [Numeral.whole_append hdigits hletters, and_iff_right hdecimal, and_iff_right hdecimal]
      exact hapart.fold_iff hjoined hs
  · obtain ⟨mark, digits, letters, rfl, hmark, hdigits, hletters⟩ := Numeral.mem_hex_iff.1 hhex
    refine ⟨.hexConst, hhex, rfl, ?_⟩
    intro t joined hkind hvalue hkind' hvalue'
    have hapart : t.IsHex [] digits := ⟨hkind, hunsigned, hdigits, mark, letters, hvalue, hmark, hletters⟩
    have hjoined : joined.IsHex [s] digits :=
      ⟨hkind', hsigned, hdigits, mark, letters, hvalue', hmark, hletters⟩
    have hother : '0' :: mark :: (digits ++ letters) ∉ Numeral.decimal := by
      intro hdecimal
      have hkinds := @Numeral.kind_unique _ .hexConst .decimalConst
        (Numeral.mem_perhaps_mul.2 (.inl hhex)) (Numeral.mem_perhaps_mul.2 (.inl hdecimal))
      cases hkinds
    obtain ⟨hint, hlong⟩ := hapart.fold hjoined hs
    exact ⟨iff_of_true hint fun h => hother h.2.1, iff_of_true hlong fun h => hother h.2.1⟩

/-- A sign in front of an unsigned integer, apart from it or joined to it.  Apart from it the integer
is always read.  Joined to it, it is read alike, unless the sign makes the number too long, or the
integer is the least word: that one is read with its sign joined to it only. -/
theorem sign_apart_iff {υ : Type} {s : Char} {n : List Char} (hs : s = '+' ∨ s = '-')
    (hn : n ∈ Numeral.decimal + Numeral.hex) (hfits : Text.byteLength n ≤ maxNumber)
    (preferences : LexicalPreferences) (arena : Arena) (user : υ) :
    let apart : Session υ := ⟨.ofText preferences (s :: ' ' :: n), arena, user⟩
    let joined : Session υ := ⟨.ofText preferences (s :: n), arena, user⟩
    ((∃ v, (tryIntExpression apart).result = .ok v) ∧
      ((tryIntExpression joined).result = (tryIntExpression apart).result ↔
        Text.byteLength (s :: n) ≤ maxNumber ∧
          ¬ (s = '-' ∧ n ∈ Numeral.decimal ∧ Numeral.whole n = 2 ^ 31))) ∧
    ((∃ v, (tryLongExpression apart).result = .ok v) ∧
      ((tryLongExpression joined).result = (tryLongExpression apart).result ↔
        Text.byteLength (s :: n) ≤ maxNumber ∧
          ¬ (s = '-' ∧ n ∈ Numeral.decimal ∧ Numeral.whole n = 2 ^ 63))) := by
  have hsign : isSign s = true := by
    obtain rfl | rfl := hs <;> rfl
  obtain ⟨kind, hmem, hhead, hfold⟩ := fold_iff_of_integer hsign hn
  cases n with
  | nil => cases hhead
  | cons c cs =>
    have hint := fun t joined hk ht hk' ht' => (hfold t joined hk ht hk' ht').1
    have hlong := fun t joined hk ht hk' ht' => (hfold t joined hk ht hk' ht').2
    exact ⟨apart_iff_of_fold hsign hhead hmem hfits hint preferences arena user,
      apart_iff_of_fold hsign hhead hmem hfits hlong preferences arena user⟩

/-- The least long integer has a sign that is joined to it; apart from its sign it is out of range. -/
theorem sign_apart_sample :
    let n := "9223372036854775808L".toList
    let apart : Session Unit := ⟨.ofText ⟨true, false, false, true⟩ ('-' :: ' ' :: n), .empty, ()⟩
    let joined : Session Unit := ⟨.ofText ⟨true, false, false, true⟩ ('-' :: n), .empty, ()⟩
    n ∈ Numeral.decimal + Numeral.hex ∧ Text.byteLength n ≤ maxNumber ∧
      (tryIntExpression joined).result = (tryIntExpression apart).result ∧
      (tryLongExpression joined).result ≠ (tryLongExpression apart).result := by
  intro n apart joined
  have hdecimal : n ∈ Numeral.decimal :=
    Numeral.mem_decimal_iff.2 ⟨"9223372036854775808".toList, ['L'], by decide, by decide,
      List.all_eq_true.1 (by decide), List.all_eq_true.1 (by decide)⟩
  have hn : n ∈ Numeral.decimal + Numeral.hex := (Language.mem_add _ _ _).2 (.inl hdecimal)
  have hfits : Text.byteLength n ≤ maxNumber := by decide
  have hwhole : Numeral.whole n = 2 ^ 63 := by decide
  obtain ⟨⟨-, hint⟩, -, hlong⟩ := sign_apart_iff (.inr rfl) hn hfits ⟨true, false, false, true⟩ .empty ()
  refine ⟨hn, hfits, hint.2 ⟨by decide, fun h => ?_⟩, fun h => (hlong.1 h).2 ⟨rfl, hdecimal, hwhole⟩⟩
  exact absurd (hwhole.symm.trans h.2.2) (by decide)

end HeaderLex
