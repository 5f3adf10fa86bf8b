import HeaderLex.Proofs.Locality
import HeaderLex.Proofs.Yield

/-!
# Printing tokens and reading them again

The tokens of a source, printed with spaces between them, are read as the same tokens.  No lexeme
depends on what stood behind it: with a space or nothing behind it, the scanner stops where it
stopped before.

* `Text.SetOff`              nothing or a space stands behind a lexeme;
* `Text.SetOff.run`          a run of characters in front of it, and the other scanners likewise;
* `Lexeme.scan_again`        a lexeme is scanned again;
* `GapPiece.next?_again`     where a lexeme began, no gap piece begins;
* `Yields.again`             a row of lexemes, by induction on what the source yields;
* `tokenize_print`           so printing loses no token.
-/

namespace HeaderLex

/-- The text is set off from what stands before it: it is empty or begins with a space. -/
def Text.SetOff (tail : List Char) : Prop := ∀ c ∈ tail.head?, c = ' '

theorem Text.SetOff.nil : SetOff [] := fun c hc => by cases hc

theorem Text.SetOff.space (cs : List Char) : SetOff (' ' :: cs) :=
  fun _ hc => (Option.some.inj hc).symm

/-! ## runs of characters -/

section

variable {p : Char → Bool}

theorem takeWhile_of_head {cs : List Char} (h : cs.head?.any p = false) :
    cs.takeWhile p = [] ∧ cs.dropWhile p = cs := by
  cases cs with
  | nil => exact ⟨rfl, rfl⟩
  | cons c cs =>
    replace h : p c = false := h
    have hc : ¬ p c = true := by
      rw [h]
      decide
    exact ⟨List.takeWhile_cons_of_neg hc, List.dropWhile_cons_of_neg hc⟩

/-- A run with a part of what follows it is a part of the text. -/
theorem begins_run {cs taken : List Char} (h : taken <+: cs.dropWhile p) :
    cs.takeWhile p ++ taken <+: cs := by
  obtain ⟨rest, hrest⟩ := h
  exact ⟨rest, by rw [List.append_assoc, hrest, List.takeWhile_append_dropWhile]⟩

theorem head?_any_dropWhile (p : Char → Bool) (cs : List Char) :
    (cs.dropWhile p).head?.any p = false := by
  have h := List.head?_dropWhile_not p cs
  cases hd : (cs.dropWhile p).head? with
  | none => rfl
  | some c =>
    rw [hd] at h
    exact h

end

namespace Text.SetOff

variable {p : Char → Bool} {cs taken tail : List Char} (ht : SetOff tail)
include ht

/-- A test that fails at a text fails also where only a part of the text was taken. -/
theorem head?_any (hp : p ' ' = false) (htaken : taken <+: cs) (h : cs.head?.any p = false) :
    (taken ++ tail).head?.any p = false := by
  cases taken with
  | nil =>
    cases tail with
    | nil => rfl
    | cons c tail =>
      obtain rfl : c = ' ' := ht c rfl
      exact hp
  | cons c taken =>
    obtain ⟨rest, rfl⟩ := htaken
    exact h

/-- A run of characters ends where it ended before, if only a part of what followed was taken. -/
theorem run (hp : p ' ' = false) (htaken : taken <+: cs.dropWhile p) :
    (cs.takeWhile p ++ (taken ++ tail)).takeWhile p = cs.takeWhile p ∧
      (cs.takeWhile p ++ (taken ++ tail)).dropWhile p = taken ++ tail := by
  have hall : ∀ c ∈ cs.takeWhile p, p c = true := List.all_eq_true.1 List.all_takeWhile
  obtain ⟨htake, hdrop⟩ := takeWhile_of_head (ht.head?_any hp htaken (head?_any_dropWhile p cs))
  rw [List.takeWhile_append_of_pos hall, List.dropWhile_append_of_pos hall, htake, hdrop,
    List.append_nil]
  exact ⟨rfl, rfl⟩

/-- A mark without spaces does not reach into the text that is set off. -/
theorem begins_mark {mark : List Char} (hmark : ' ' ∉ mark) (h : mark <+: taken ++ tail) :
    mark <+: taken := by
  induction mark generalizing taken with
  | nil => exact List.nil_prefix
  | cons c mark ih =>
    rw [List.mem_cons, not_or] at hmark
    obtain ⟨hc, hmark⟩ := hmark
    cases taken with
    | nil =>
      obtain ⟨rest, rfl⟩ := h
      exact absurd (ht c rfl).symm hc
    | cons d taken =>
      obtain ⟨rfl, hrest⟩ := List.cons_prefix_cons.1 h
      exact List.cons_prefix_cons.2 ⟨rfl, ih hmark hrest⟩

end Text.SetOff

namespace Lexeme

open Number (isDigit)
open Token (isIntegerSuffix isFloatSuffix)

/-! ## numbers -/

section

variable {cs taken tail sign body fraction exponent rest : List Char} {c : Char}

theorem splitSign_of_head (h : cs.head?.any isSign = false) : splitSign cs = ([], cs) := by
  cases cs with
  | nil => rfl
  | cons c cs =>
    replace h : isSign c = false := h
    simp only [splitSign, h, Bool.false_eq_true, if_false]

theorem splitSign_of_sign (h : isSign c = true) (cs : List Char) :
    splitSign (c :: cs) = ([c], cs) := by
  simp only [splitSign, h, if_true]

/-- A text begins with a sign, or with none. -/
theorem splitSign_cases (cs : List Char) :
    (∃ c ds, cs = c :: ds ∧ isSign c = true) ∨ cs.head?.any isSign = false := by
  cases cs with
  | nil => exact .inr rfl
  | cons c cs =>
    cases hc : isSign c with
    | true => exact .inl ⟨c, cs, rfl, hc⟩
    | false => exact .inr hc

theorem splitHexMark_mark {x : Char} (hx : x = 'x' ∨ x = 'X') (rest : List Char) :
    splitHexMark ('0' :: x :: rest) = some (['0', x], rest) := by
  rcases hx with rfl | rfl <;> rfl

theorem splitHexMark_some {mark : List Char} (h : splitHexMark cs = some (mark, rest)) :
    ∃ x, (x = 'x' ∨ x = 'X') ∧ mark = ['0', x] ∧ cs = '0' :: x :: rest := by
  unfold splitHexMark at h
  split at h
  · cases h
    exact ⟨'x', .inl rfl, rfl, rfl⟩
  · cases h
    exact ⟨'X', .inr rfl, rfl, rfl⟩
  · cases h

theorem splitFraction_of_head (h : cs.head?.any (· == '.') = false) :
    splitFraction cs = ([], cs) := by
  cases cs with
  | nil => rfl
  | cons c cs => exact splitFraction_of_ne (ne_of_beq_false h) cs

/-- An exponent begins: a mark, and a digit behind a possible sign. -/
def isExponent (c : Char) (cs : List Char) : Bool :=
  (c == 'e' || c == 'E') && (splitSign cs).2.head?.any isDigit

theorem splitExponent_of_digit (h : isExponent c cs = true) (hs : splitSign cs = (sign, body)) :
    splitExponent (c :: cs) = (c :: (sign ++ body.takeWhile isDigit), body.dropWhile isDigit) := by
  have hexponent : splitExponent (c :: cs) = (c :: ((splitSign cs).1 ++
      (splitSign cs).2.takeWhile isDigit), (splitSign cs).2.dropWhile isDigit) := if_pos h
  rw [hexponent, hs]

theorem splitExponent_of_no_digit (h : isExponent c cs = false) :
    splitExponent (c :: cs) = ([], c :: cs) := if_neg (Bool.eq_false_iff.1 h)

theorem numberEnd_float (digits : List Char) (isWhole : Bool) (h : isFloatSuffix c = true) :
    numberEnd digits isWhole (c :: cs) = (.floatConst, digits ++ [c], cs) := if_pos h

theorem numberEnd_whole (digits : List Char) (h : cs.head?.any isFloatSuffix = false) :
    numberEnd digits true cs = (.decimalConst, digits ++ cs.takeWhile isIntegerSuffix,
      cs.dropWhile isIntegerSuffix) := by
  cases cs with
  | nil => exact congrArg (fun text => (TokenKind.decimalConst, text, [])) (List.append_nil digits).symm
  | cons c cs => exact if_neg (Bool.eq_false_iff.1 h)

theorem numberEnd_broken (digits : List Char) (h : cs.head?.any isFloatSuffix = false) :
    numberEnd digits false cs = (.floatConst, digits, cs) := by
  cases cs with
  | nil => rfl
  | cons c cs => exact if_neg (Bool.eq_false_iff.1 h)

theorem numberText_of_hex {mark ds : List Char} (hs : splitSign cs = (sign, body))
    (hm : splitHexMark body = some (mark, ds)) : numberText cs = (.hexConst,
      sign ++ mark ++ ds.takeWhile isHexDigit ++ (ds.dropWhile isHexDigit).takeWhile isIntegerSuffix,
      (ds.dropWhile isHexDigit).dropWhile isIntegerSuffix) := by
  unfold numberText
  simp only [hs, hm]

theorem numberText_of_decimal {ds : List Char} (hs : splitSign cs = (sign, body))
    (hm : splitHexMark body = none) (hf : splitFraction (body.dropWhile isDigit) = (fraction, ds))
    (he : splitExponent ds = (exponent, rest)) : numberText cs = numberEnd
      (sign ++ body.takeWhile isDigit ++ fraction ++ exponent)
      (fraction.isEmpty && exponent.isEmpty) rest := by
  unfold numberText
  simp only [hs, hm, hf, he]
  rfl

/-! ### the same with a text that is set off -/

variable (ht : Text.SetOff tail)
include ht

theorem splitSign_again (h : splitSign cs = (sign, rest)) (htaken : taken <+: rest) :
    splitSign (sign ++ (taken ++ tail)) = (sign, taken ++ tail) := by
  obtain ⟨c, ds, rfl, hc⟩ | hnone := splitSign_cases cs
  · rw [splitSign_of_sign hc] at h
    cases h
    exact splitSign_of_sign hc _
  · rw [splitSign_of_head hnone] at h
    cases h
    exact splitSign_of_head (ht.head?_any rfl htaken hnone)

theorem splitHexMark_none_again (h : splitHexMark cs = none) (htaken : taken <+: cs) :
    splitHexMark (taken ++ tail) = none := by
  cases hmark : splitHexMark (taken ++ tail) with
  | none => rfl
  | some m =>
    obtain ⟨x, hx, -, htext⟩ := splitHexMark_some hmark
    have hspace : ' ' ∉ ['0', x] := by
      rcases hx with rfl | rfl <;> decide
    have hprefix : ['0', x] <+: taken ++ tail := ⟨m.2, htext.symm⟩
    obtain ⟨rest, rfl⟩ := (ht.begins_mark hspace hprefix).trans htaken
    have hagain : splitHexMark ('0' :: x :: rest) = none := h
    rw [splitHexMark_mark hx] at hagain
    cases hagain

theorem splitFraction_again (h : splitFraction cs = (fraction, rest)) (htaken : taken <+: rest) :
    splitFraction (fraction ++ (taken ++ tail)) = (fraction, taken ++ tail) := by
  by_cases hpoint : ∃ ds, cs = '.' :: ds
  · obtain ⟨ds, rfl⟩ := hpoint
    cases h
    obtain ⟨htake, hdrop⟩ := ht.run (p := isDigit) rfl htaken
    show ('.' :: (ds.takeWhile isDigit ++ (taken ++ tail)).takeWhile isDigit,
      (ds.takeWhile isDigit ++ (taken ++ tail)).dropWhile isDigit) = _
    rw [htake, hdrop]
  · have hnone : cs.head?.any (· == '.') = false := by
      cases cs with
      | nil => rfl
      | cons c cs =>
        apply beq_false_of_ne
        rintro rfl
        exact hpoint ⟨cs, rfl⟩
    rw [splitFraction_of_head hnone] at h
    cases h
    exact splitFraction_of_head (ht.head?_any rfl htaken hnone)

/-- Where no digit follows a possible sign, none follows it in a part of the text. -/
theorem digit_after_sign (htaken : taken <+: cs)
    (h : (splitSign cs).2.head?.any isDigit = false) :
    (splitSign (taken ++ tail)).2.head?.any isDigit = false := by
  cases taken with
  | nil =>
    have hhead : ∀ {p : Char → Bool}, p ' ' = false → ([] ++ tail).head?.any p = false :=
      fun hp => @Text.SetOff.head?_any _ [] [] _ ht hp (List.prefix_refl []) rfl
    rw [splitSign_of_head (hhead rfl)]
    exact hhead rfl
  | cons c taken =>
    obtain ⟨rest, rfl⟩ := htaken
    cases hc : isSign c with
    | true =>
      rw [List.cons_append, splitSign_of_sign hc] at h ⊢
      exact ht.head?_any rfl (List.prefix_append taken rest) h
    | false =>
      have hnone : ∀ ds, splitSign (c :: ds) = ([], c :: ds) := fun ds => splitSign_of_head hc
      rw [List.cons_append, hnone] at h ⊢
      exact h

theorem isExponent_again (h : isExponent c cs = false) (htaken : taken <+: cs) :
    isExponent c (taken ++ tail) = false := by
  unfold isExponent at h ⊢
  rcases Bool.and_eq_false_iff.1 h with hmark | hdigit
  · rw [hmark]
    rfl
  · rw [digit_after_sign ht htaken hdigit, Bool.and_false]

theorem splitExponent_again (h : splitExponent cs = (exponent, rest)) (htaken : taken <+: rest) :
    splitExponent (exponent ++ (taken ++ tail)) = (exponent, taken ++ tail) := by
  have hempty : splitExponent ([] ++ ([] ++ tail)) = ([], [] ++ tail) := by
    cases tail with
    | nil => rfl
    | cons c tail =>
      obtain rfl : c = ' ' := ht c rfl
      rfl
  cases cs with
  | nil =>
    cases h
    obtain rfl := List.prefix_nil.1 htaken
    exact hempty
  | cons c cs =>
    cases hmark : isExponent c cs with
    | true =>
      -- the digits are taken as a whole, so one of them still follows the sign
      rcases hs : splitSign cs with ⟨sign, digits⟩
      rw [splitExponent_of_digit hmark hs] at h
      cases h
      obtain ⟨htake, hdrop⟩ := ht.run (p := isDigit) rfl htaken
      have hsign := splitSign_again ht hs (begins_run htaken)
      have hagain : isExponent c (sign ++ (digits.takeWhile isDigit ++ taken ++ tail)) = true := by
        obtain ⟨he, hdigit⟩ := Bool.and_eq_true_iff.1 hmark
        refine Bool.and_eq_true_iff.2 ⟨he, ?_⟩
        rw [hsign]
        rw [hs] at hdigit
        cases digits with
        | nil => cases hdigit
        | cons d ds =>
          replace hdigit : isDigit d = true := hdigit
          rw [List.takeWhile_cons_of_pos hdigit]
          exact hdigit
      have hsplit := splitExponent_of_digit hagain hsign
      rw [List.append_assoc _ taken, htake, hdrop] at hsplit
      rw [List.cons_append, List.append_assoc]
      exact hsplit
    | false =>
      rw [splitExponent_of_no_digit hmark] at h
      cases h
      cases taken with
      | nil => exact hempty
      | cons d taken =>
        obtain ⟨rfl, hrest⟩ := List.cons_prefix_cons.1 htaken
        exact splitExponent_of_no_digit (isExponent_again ht hmark hrest)

/-- What follows the digits of a number is taken again. -/
theorem numberEnd_again (digits : List Char) (isWhole : Bool) (cs : List Char) :
    ∃ kind suffix rest, suffix ++ rest = cs ∧
      numberEnd digits isWhole cs = (kind, digits ++ suffix, rest) ∧
      numberEnd digits isWhole (suffix ++ tail) = (kind, digits ++ suffix, tail) := by
  cases hfloat : cs.head?.any isFloatSuffix with
  | true =>
    cases cs with
    | nil => cases hfloat
    | cons c cs =>
      exact ⟨.floatConst, [c], cs, rfl, numberEnd_float digits isWhole hfloat,
        numberEnd_float digits isWhole hfloat⟩
  | false =>
    cases isWhole with
    | true =>
      obtain ⟨htake, hdrop⟩ :=
        @Text.SetOff.run isIntegerSuffix cs [] _ ht rfl List.nil_prefix
      have hhead : (cs.takeWhile isIntegerSuffix ++ tail).head?.any isFloatSuffix = false :=
        ht.head?_any rfl (List.takeWhile_prefix _) hfloat
      refine ⟨.decimalConst, cs.takeWhile isIntegerSuffix, cs.dropWhile isIntegerSuffix,
        List.takeWhile_append_dropWhile, numberEnd_whole digits hfloat, ?_⟩
      rw [numberEnd_whole digits hhead]
      rw [List.nil_append] at htake hdrop
      rw [htake, hdrop]
    | false =>
      have hhead : ([] ++ tail).head?.any isFloatSuffix = false :=
        ht.head?_any rfl List.nil_prefix hfloat
      refine ⟨.floatConst, [], cs, rfl, ?_, ?_⟩
      · rw [numberEnd_broken digits hfloat, List.append_nil]
      · rw [numberEnd_broken digits hhead, List.append_nil]
        rfl

/-- A number is scanned again as a whole. -/
theorem numberText_again (cs : List Char) : numberText ((numberText cs).2.1 ++ tail)
    = ((numberText cs).1, (numberText cs).2.1, tail) := by
  rcases hs : splitSign cs with ⟨sign, body⟩
  cases hm : splitHexMark body with
  | some m =>
    obtain ⟨mark, ds⟩ := m
    obtain ⟨x, hx, rfl, rfl⟩ := splitHexMark_some hm
    have hsuffix := List.takeWhile_prefix isIntegerSuffix (l := ds.dropWhile isHexDigit)
    have hbody := (List.prefix_append_right_inj ['0', x]).2 (begins_run hsuffix)
    obtain ⟨htake, hdrop⟩ := ht.run (p := isHexDigit) rfl hsuffix
    obtain ⟨htake', hdrop'⟩ := @Text.SetOff.run isIntegerSuffix (ds.dropWhile isHexDigit) [] _ ht rfl
      List.nil_prefix
    have hsign := splitSign_again ht hs hbody
    simp only [List.append_assoc, List.cons_append, List.nil_append] at htake hdrop htake' hdrop' hsign
    have hagain := numberText_of_hex hsign (splitHexMark_mark hx _)
    rw [htake, hdrop, htake', hdrop'] at hagain
    rw [numberText_of_hex hs hm]
    simp only [List.append_assoc, List.cons_append, List.nil_append] at hagain ⊢
    exact hagain
  | none =>
    rcases hf : splitFraction (body.dropWhile isDigit) with ⟨fraction, ds⟩
    rcases he : splitExponent ds with ⟨exponent, es⟩
    obtain ⟨kind, suffix, rest, hrest, hend, hagain⟩ := numberEnd_again ht
      (sign ++ body.takeWhile isDigit ++ fraction ++ exponent) (fraction.isEmpty && exponent.isEmpty) es
    rw [numberText_of_decimal hs hm hf he, hend]
    dsimp only
    have hsuffix : suffix <+: es := ⟨rest, hrest⟩
    have hexponent : exponent ++ suffix <+: ds := by
      have happend := splitExponent_append ds
      rw [he] at happend
      rw [← happend]
      exact (List.prefix_append_right_inj exponent).2 hsuffix
    have hfraction : fraction ++ (exponent ++ suffix) <+: body.dropWhile isDigit := by
      have happend := splitFraction_append (body.dropWhile isDigit)
      rw [hf] at happend
      rw [← happend]
      exact (List.prefix_append_right_inj fraction).2 hexponent
    have hbody := begins_run hfraction
    obtain ⟨htake, hdrop⟩ := ht.run (p := isDigit) rfl hfraction
    have hsign := splitSign_again ht hs hbody
    have hmark := splitHexMark_none_again ht hm hbody
    have hpoint := splitFraction_again ht hf hexponent
    have hmarked := splitExponent_again ht he hsuffix
    simp only [List.append_assoc] at htake hdrop hsign hmark hpoint hmarked
    rw [← hdrop] at hpoint
    have hagain' := numberText_of_decimal hsign hmark hpoint hmarked
    simp only [List.append_assoc, htake] at hagain hagain' ⊢
    rw [hagain', hagain]

end

/-- A sign or a point in front of a digit is not the whole number. -/
theorem numberText_second {a d : Char} {cs : List Char} (ha : (isSign a || a == '.') = true)
    (hd : isDigit d = true) : ∃ ds, (numberText (a :: d :: cs)).2.1 = a :: d :: ds := by
  have hend : ∀ {digits : List Char} {isWhole : Bool} {es : List Char}, ∃ suffix,
      (numberEnd digits isWhole es).2.1 = digits ++ suffix := by
    intro digits isWhole es
    obtain ⟨kind, suffix, rest, -, hnumber, -⟩ := numberEnd_again Text.SetOff.nil digits isWhole es
    exact ⟨suffix, by rw [hnumber]⟩
  rcases Bool.or_eq_true_iff.1 ha with hsign | hpoint
  · have hs := splitSign_of_sign hsign (d :: cs)
    cases hm : splitHexMark (d :: cs) with
    | some m =>
      obtain ⟨mark, ds⟩ := m
      obtain ⟨x, -, rfl, htext⟩ := splitHexMark_some hm
      obtain ⟨rfl, -⟩ := List.cons.inj htext
      rw [numberText_of_hex hs hm]
      exact ⟨_, rfl⟩
    | none =>
      obtain ⟨suffix, hsuffix⟩ := @hend _ _ _
      rw [numberText_of_decimal hs hm rfl rfl, hsuffix, List.takeWhile_cons_of_pos hd]
      exact ⟨_, rfl⟩
  · obtain rfl : a = '.' := eq_of_beq hpoint
    have hs : splitSign ('.' :: d :: cs) = ([], '.' :: d :: cs) := rfl
    have hf : splitFraction (('.' :: d :: cs).dropWhile isDigit)
        = ('.' :: (d :: cs).takeWhile isDigit, (d :: cs).dropWhile isDigit) := rfl
    obtain ⟨suffix, hsuffix⟩ := @hend _ _ _
    rw [numberText_of_decimal hs rfl hf rfl, hsuffix, List.takeWhile_cons_of_pos hd]
    exact ⟨_, rfl⟩

/-! ## the other lexemes -/

section

variable {cs tail : List Char} {l : Lexeme}

theorem identifier_again (h : identifier cs = .ok l) (ht : Text.SetOff tail) :
    identifier (l.text ++ tail) = .ok { l with rest := tail } := by
  obtain ⟨hle, rfl⟩ := identifier_ok h
  obtain ⟨htake, hdrop⟩ := @Text.SetOff.run isNameChar cs [] _ ht rfl List.nil_prefix
  rw [List.nil_append] at htake hdrop
  unfold identifier
  dsimp only
  rw [htake, hdrop]
  exact if_neg (Nat.not_lt_of_le hle)

theorem number_again (h : number cs = .ok l) (ht : Text.SetOff tail) :
    number (l.text ++ tail) = .ok { l with rest := tail } := by
  obtain ⟨hle, rfl⟩ := number_ok h
  unfold number
  dsimp only
  rw [numberText_again ht]
  exact if_neg (Nat.not_lt_of_le hle)

theorem StringTail.again {used : Nat} {text rest : List Char} {lines : Nat}
    (h : StringTail used cs text rest lines) (tail : List Char) :
    StringTail used (text ++ tail) text tail lines := by
  induction h with
  | close hle => exact .close hle
  | escape hle _ ih => exact .escape hle ih
  | plain hle hn hq hb _ ih => exact .plain hle hn hq hb ih

theorem string_again (h : string cs = .ok l) {taken : List Char} (htext : l.text = '"' :: taken)
    (tail : List Char) : string (taken ++ tail) = .ok { l with rest := tail } := by
  obtain ⟨text, hscan, hl⟩ := string_ok h
  rw [hl] at htext
  obtain rfl : text = taken := (List.cons.inj htext).2
  unfold string
  rw [((stringTail_sound hscan).again tail).complete, hl]
  rfl

theorem character_again (h : character cs = .ok l) {taken : List Char}
    (htext : l.text = '\'' :: taken) (tail : List Char) :
    character (taken ++ tail) = .ok { l with rest := tail } := by
  obtain ⟨inner, -, hl, hinner⟩ := character_ok h
  rw [hl] at htext
  obtain rfl : inner ++ ['\''] = taken := (List.cons.inj htext).2
  rw [hl, List.append_assoc]
  rcases hinner with ⟨c, rfl⟩ | ⟨c, rfl, hb, hn, hq⟩
  · rfl
  · rw [List.singleton_append, List.singleton_append, character]
    · exact if_neg (by simp [hb, hn, hq])
    · intro _ hc _
      exact hb hc

/-- No symbol of two characters ends with a space. -/
theorem symbol_again (c : Char) (ht : Text.SetOff tail) {taken : List Char}
    (htext : (symbol c cs).text = c :: taken) :
    symbol c (taken ++ tail) = { symbol c cs with rest := tail } := by
  have hsingle : symbol c tail = ⟨.symbol, [c], tail, 0⟩ := by
    cases tail with
    | nil => rfl
    | cons d tail =>
      obtain rfl : d = ' ' := ht d rfl
      have hends : ∀ s ∈ Keyword.pairSymbols, ¬ s.toList.getLast? = some ' ' := by decide
      have hpair := @not_isPairSymbol (·.getLast? = some ' ') hends [c, ' '] rfl
      show (if Keyword.isPairSymbol (String.ofList [c, ' ']) then _ else _) = _
      rw [hpair]
      rfl
  cases cs with
  | nil =>
    obtain rfl : [] = taken := (List.cons.inj htext).2
    exact hsingle
  | cons d ds =>
    unfold symbol at htext
    dsimp only at htext
    split at htext
    · next hpair =>
      obtain rfl : [d] = taken := (List.cons.inj htext).2
      unfold symbol
      dsimp only
      rw [if_pos hpair]
      exact if_pos hpair
    · next hpair =>
      obtain rfl : [] = taken := (List.cons.inj htext).2
      unfold symbol
      dsimp only
      rw [if_neg hpair]
      exact hsingle

/-- A lexeme begins with the character at which it was found. -/
theorem scan_text {a : Char} (h : scan a cs = .ok l) :
    ∃ taken, l.text = a :: taken ∧ taken <+: cs := by
  have happend := scan_append h
  cases htext : l.text with
  | nil => exact absurd htext (scan_text_ne_nil h)
  | cons b taken =>
    rw [htext] at happend
    obtain ⟨rfl, hrest⟩ := List.cons.inj happend
    exact ⟨taken, rfl, l.rest, hrest⟩

/-- A number begins: with a digit, or with a digit behind a sign or a point. -/
def beginsNumber (a : Char) (cs : List Char) : Bool :=
  isDigit a || ((isSign a || a == '.') && cs.head?.any isDigit)

/-- A sign or a point takes the digit behind it. -/
theorem beginsNumber_again {a : Char} {taken : List Char} (h : beginsNumber a cs = true)
    (htext : (numberText (a :: cs)).2.1 = a :: taken) (tail : List Char) :
    beginsNumber a (taken ++ tail) = true := by
  rcases Bool.or_eq_true_iff.1 h with hdigit | hmark
  · exact Bool.or_eq_true_iff.2 (.inl hdigit)
  · obtain ⟨hbefore, hnext⟩ := Bool.and_eq_true_iff.1 hmark
    cases cs with
    | nil => cases hnext
    | cons d ds =>
      obtain ⟨es, hsecond⟩ := @numberText_second a d ds hbefore hnext
      obtain rfl : d :: es = taken := (List.cons.inj (hsecond.symm.trans htext)).2
      exact Bool.or_eq_true_iff.2 (.inr (Bool.and_eq_true_iff.2 ⟨hbefore, hnext⟩))

theorem beginsNumber_not_again {a : Char} {taken : List Char} (h : beginsNumber a cs = false)
    (htaken : taken <+: cs) (ht : Text.SetOff tail) : beginsNumber a (taken ++ tail) = false := by
  obtain ⟨hdigit, hmark⟩ := Bool.or_eq_false_iff.1 h
  refine Bool.or_eq_false_iff.2 ⟨hdigit, ?_⟩
  rcases Bool.and_eq_false_iff.1 hmark with hmark | hnext
  · exact Bool.and_eq_false_iff.2 (.inl hmark)
  · exact Bool.and_eq_false_iff.2 (.inr (ht.head?_any rfl htaken hnext))

/-- A lexeme is found again where it is set off from what follows. -/
theorem scan_again {a : Char} (h : scan a cs = .ok l) {taken : List Char}
    (htext : l.text = a :: taken) (ht : Text.SetOff tail) :
    scan a (taken ++ tail) = .ok { l with rest := tail } := by
  have htaken : taken <+: cs := by
    obtain ⟨_, htext', htaken⟩ := scan_text h
    rw [htext] at htext'
    rwa [(List.cons.inj htext').2]
  have hprinted : l.text ++ tail = a :: (taken ++ tail) := by
    rw [htext]
    rfl
  unfold scan at h ⊢
  split at h
  · next hname =>
    rw [if_pos hname, ← hprinted]
    exact identifier_again h ht
  · next hname =>
    rw [if_neg hname]
    split at h
    · next hnumber =>
      have hagain := number_again h ht
      rw [hprinted] at hagain
      rw [(number_ok h).2] at htext
      exact (if_pos (beginsNumber_again hnumber htext tail)).trans hagain
    · next hnumber =>
      have hnumber' : ¬ (isDigit a || ((isSign a || a == '.') && (taken ++ tail).head?.any isDigit))
          = true := Bool.eq_false_iff.1 (beginsNumber_not_again (Bool.eq_false_iff.2 hnumber) htaken ht)
      rw [if_neg hnumber']
      split at h
      · next hquote =>
        rw [if_pos hquote]
        exact character_again h (hquote ▸ htext) tail
      · next hquote =>
        rw [if_neg hquote]
        split at h
        · next hquotes =>
          rw [if_pos hquotes]
          exact string_again h (hquotes ▸ htext) tail
        · next hquotes =>
          obtain rfl := Except.ok.inj h
          rw [if_neg hquotes, symbol_again a ht htext]

end

end Lexeme

/-! ## places without gaps -/

/-- Where a lexeme began, no gap piece begins if only the lexeme is left. -/
theorem GapPiece.next?_again {a : Char} {cs taken tail : List Char}
    (h : next? (a :: cs) = .ok none) (htaken : taken <+: cs) (ht : Text.SetOff tail) :
    next? (a :: (taken ++ tail)) = .ok none := by
  have hmark : ∀ {mark : List Char}, ' ' ∉ mark → (∀ r, cs ≠ mark ++ r) →
      ∀ r, taken ++ tail ≠ mark ++ r := by
    intro mark hspace hno r hr
    obtain ⟨r', hr'⟩ := (ht.begins_mark hspace ⟨r, hr.symm⟩).trans htaken
    exact hno r' hr'.symm
  obtain ⟨hblank, hline, hcontinued, hcontinued', hcomment, hblock, hclose⟩ := next?_none_iff.1 h
  exact next?_none_iff.2 ⟨hblank, hline,
    fun r ha => @hmark ['\n'] (by decide) (fun r => hcontinued r ha) r,
    fun r ha => @hmark ['\r', '\n'] (by decide) (fun r => hcontinued' r ha) r,
    fun r ha => @hmark ['/'] (by decide) (fun r => hcomment r ha) r,
    fun r ha => @hmark ['*'] (by decide) (fun r => hblock r ha) r,
    fun r ha => @hmark ['/'] (by decide) (fun r => hclose r ha) r⟩

/-! ## printed tokens -/

/-- Tokens as they are printed behind another one, each with a space in front of it. -/
def printedAfter (ts : List Located) : List Char := ts.flatMap fun t => ' ' :: t.value.toList

theorem setOff_printedAfter (ts : List Located) : Text.SetOff (printedAfter ts) := by
  cases ts with
  | nil => exact .nil
  | cons t ts => exact .space _

/-- One printed lexeme is read again, and then what is printed after it. -/
theorem Yields.lexeme {n : Nat} {gap cs : List Char} {a : Char} {l : Lexeme} {ts us : List Located}
    (hgap : ∀ {text}, text.head? = some a → IsGap gap text)
    (hnone : GapPiece.next? (a :: cs) = .ok none) (hscan : Lexeme.scan a cs = .ok l)
    (hafter : Yields (n + Text.byteLength gap + Text.byteLength l.text) (printedAfter ts) us) :
    Yields n (gap ++ (l.text ++ printedAfter ts)) (l.located (n + Text.byteLength gap) :: us) := by
  obtain ⟨taken, htext, htaken⟩ := Lexeme.scan_text hscan
  have hset := setOff_printedAfter ts
  rw [htext, List.cons_append]
  exact @Yields.token n gap _ a { l with rest := printedAfter ts } us (hgap rfl)
    (GapPiece.next?_again hnone htaken hset) (Lexeme.scan_again hscan htext hset) hafter

/-- What a text yields is yielded again where it is printed. -/
theorem Yields.again {n : Nat} {cs : List Char} {ts : List Located} (h : Yields n cs ts) (m : Nat) :
    ∃ us, Yields m (printedAfter ts) us ∧ us.map Located.content = ts.map Located.content := by
  induction h generalizing m with
  | done => exact ⟨[], .done ⟨[], rfl, trivial⟩, rfl⟩
  | @token n gap cs a l ts _ hnone hscan _ ih =>
    obtain ⟨us, hus, hcontent⟩ := ih (m + Text.byteLength [' '] + Text.byteLength l.text)
    have hspace : ∀ {text : List Char}, text.head? = some a → IsGap [' '] text :=
      fun _ => ⟨[.blank ' '], rfl, rfl, trivial⟩
    have htext : printedAfter (l.located (n + Text.byteLength gap) :: ts)
        = [' '] ++ (l.text ++ printedAfter ts) := by
      show (' ' :: (String.ofList l.text).toList) ++ printedAfter ts = _
      rw [String.toList_ofList]
      rfl
    refine ⟨l.located (m + Text.byteLength [' ']) :: us, ?_, congrArg (l.content :: ·) hcontent⟩
    rw [htext]
    exact .lexeme hspace hnone hscan hus

/-- Printing tokens with one space between them. -/
theorem toList_printed (t : Located) (ts : List Located) :
    (" ".intercalate ((t :: ts).map Located.value)).toList = t.value.toList ++ printedAfter ts := by
  rw [String.toList_intercalate]
  induction ts generalizing t with
  | nil => exact List.intercalate_singleton.trans (List.append_nil _).symm
  | cons u ts ih =>
    replace ih := ih u
    simp only [List.map_cons] at ih ⊢
    rw [List.intercalate_cons_cons, ih, List.append_assoc]
    rfl

/-- Printing and reading again is the identity: the tokens of a source, printed with a space between
them, are read as tokens of the same kinds and texts. -/
theorem tokenize_print {source : String} {preferences : LexicalPreferences} {ts : List Token}
    (h : (tokenize source preferences).result = .ok ts) :
    ∃ us, (tokenize (" ".intercalate (ts.map Token.value)) preferences).result = .ok us ∧
      us.length = ts.length ∧ us.map Token.content = ts.map Token.content := by
  have hyields : Yields 0 source.toList (ts.map Token.located) := tokenize_iff_yields.1 ⟨ts, h, rfl⟩
  suffices hprinted : ∃ us, Yields 0 (" ".intercalate (ts.map Token.value)).toList us ∧
      us.map Located.content = (ts.map Token.located).map Located.content by
    obtain ⟨us, hus, hcontent⟩ := hprinted
    obtain ⟨tokens, htokens, rfl⟩ := (@tokenize_iff_yields _ preferences us).2 hus
    rw [List.map_map, List.map_map] at hcontent
    have hlength := congrArg List.length hcontent
    rw [List.length_map, List.length_map] at hlength
    exact ⟨tokens, htokens, hlength, hcontent⟩
  have hvalues : ts.map Token.value = (ts.map Token.located).map Located.value := by
    rw [List.map_map]
    rfl
  rw [hvalues]
  generalize ts.map Token.located = located at hyields ⊢
  generalize source.toList = text at hyields
  cases hyields with
  | done => exact ⟨[], .done ⟨[], rfl, trivial⟩, rfl⟩
  | @token _ gap cs a l located _ hnone hscan htail =>
    obtain ⟨us, hus, hcontent⟩ := htail.again (0 + Text.byteLength [] + Text.byteLength l.text)
    refine ⟨l.located (0 + Text.byteLength []) :: us, ?_, congrArg (l.content :: ·) hcontent⟩
    rw [toList_printed]
    show Yields 0 ([] ++ ((String.ofList l.text).toList ++ printedAfter located)) _
    rw [String.toList_ofList]
    exact .lexeme (fun _ => ⟨[], rfl, trivial⟩) hnone hscan hus

/-- A dangling exponent in front of a sign and a point, a mark without digits, symbols in front of a
comment, a lone backslash and a string with an escaped line feed. -/
theorem tokenize_print_sample :
    let source := "1e-.5 0x/+//c\n\\<<=\"a\\\n\""
    let preferences : LexicalPreferences := ⟨true, false, false, true⟩
    let ts : List Token := [⟨.decimalConst, "1", ⟨0, 1⟩, ⟨0, 1⟩⟩, ⟨.identifier, "e", ⟨1, 1⟩, ⟨1, 1⟩⟩,
      ⟨.symbol, "-", ⟨2, 1⟩, ⟨2, 1⟩⟩, ⟨.floatConst, ".5", ⟨3, 1⟩, ⟨3, 1⟩⟩,
      ⟨.hexConst, "0x", ⟨6, 1⟩, ⟨5, 1⟩⟩, ⟨.symbol, "/", ⟨8, 1⟩, ⟨8, 1⟩⟩,
      ⟨.symbol, "+", ⟨9, 1⟩, ⟨9, 1⟩⟩, ⟨.symbol, "\\", ⟨14, 2⟩, ⟨10, 1⟩⟩,
      ⟨.symbol, "<<", ⟨15, 2⟩, ⟨15, 2⟩⟩, ⟨.symbol, "=", ⟨17, 2⟩, ⟨17, 2⟩⟩,
      ⟨.stringConst, "\"a\\\n\"", ⟨18, 2⟩, ⟨18, 2⟩⟩]
    let printed := "1 e - .5 0x / + \\ << = \"a\\\n\""
    (tokenize source preferences).result = .ok ts ∧ " ".intercalate (ts.map Token.value) = printed ∧
      ∃ us, (tokenize printed preferences).result = .ok us ∧ us.length = ts.length ∧
        us.map Token.content = ts.map Token.content := by
  intro source preferences ts printed
  have hts : (tokenize source preferences).result = .ok ts := ok_of_toOption (by decide +kernel)
  have hprinted : " ".intercalate (ts.map Token.value) = printed := by decide +kernel
  refine ⟨hts, hprinted, ?_⟩
  rw [← hprinted]
  exact tokenize_print hts

end HeaderLex
