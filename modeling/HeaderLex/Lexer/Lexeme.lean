import HeaderLex.Diagnostic.SourceError
import HeaderLex.Keyword
import HeaderLex.Token.Decode

/-!
# Lexemes

The text of one token at the beginning of a source, by the class of its first character.

* `Lexeme.scan`           the lexeme, or why there is none;
* `scan_append`           a lexeme and the text after it make up the source;
* `scan_text_ne_nil`      a lexeme is not empty.
-/

namespace HeaderLex

/-- The text of a token with the text after it. -/
structure Lexeme where
  kind : TokenKind
  text : List Char
  rest : List Char
  /-- Lines that end inside the text, as far as they are counted. -/
  lines : Nat
deriving DecidableEq, Repr

namespace Lexeme

open Number (isDigit)
open Token (isIntegerSuffix isFloatSuffix)

def isSign (c : Char) : Bool := c == '+' || c == '-'

def isHexDigit (c : Char) : Bool := (Number.digitValue? c).isSome

def identifier (cs : List Char) : Except Cause Lexeme :=
  let text := cs.takeWhile isNameChar
  if maxName < Text.byteLength text then .error (.identifierTooLong maxName)
  else .ok ⟨.identifier, text, cs.dropWhile isNameChar, 0⟩

/-! ### Numbers -/

/-- A sign and the text after it. -/
def splitSign : List Char → List Char × List Char
  | [] => ([], [])
  | c :: cs => if isSign c then ([c], cs) else ([], c :: cs)

/-- A point with the digits after it, and the text after them. -/
def splitFraction : List Char → List Char × List Char
  | '.' :: cs => ('.' :: cs.takeWhile isDigit, cs.dropWhile isDigit)
  | cs => ([], cs)

/-- A mark with an optional sign and at least one digit, and the text after them. -/
def splitExponent : List Char → List Char × List Char
  | [] => ([], [])
  | c :: cs =>
    let (sign, digits) := splitSign cs
    if (c == 'e' || c == 'E') && digits.head?.any isDigit then
      (c :: (sign ++ digits.takeWhile isDigit), digits.dropWhile isDigit)
    else ([], c :: cs)

/-- The mark of a hexadecimal number, and the text after it. -/
def splitHexMark : List Char → Option (List Char × List Char)
  | '0' :: 'x' :: cs => some (['0', 'x'], cs)
  | '0' :: 'X' :: cs => some (['0', 'X'], cs)
  | _ => none

/-- The number at the beginning of a text, of any length. -/
def numberText (cs : List Char) : TokenKind × List Char × List Char :=
  let (sign, body) := splitSign cs
  match splitHexMark body with
  | some (mark, cs) =>
    let digits := cs.takeWhile isHexDigit
    let cs := cs.dropWhile isHexDigit
    (.hexConst, sign ++ mark ++ digits ++ cs.takeWhile isIntegerSuffix, cs.dropWhile isIntegerSuffix)
  | none =>
    let whole := body.takeWhile isDigit
    let (fraction, cs) := splitFraction (body.dropWhile isDigit)
    let (exponent, cs) := splitExponent cs
    let digits := sign ++ whole ++ fraction ++ exponent
    match cs with
    | c :: rest =>
      if isFloatSuffix c then (.floatConst, digits ++ [c], rest)
      else if fraction.isEmpty && exponent.isEmpty then
        (.decimalConst, digits ++ cs.takeWhile isIntegerSuffix, cs.dropWhile isIntegerSuffix)
      else (.floatConst, digits, cs)
    | [] =>
      (if fraction.isEmpty && exponent.isEmpty then .decimalConst else .floatConst, digits, [])

def number (cs : List Char) : Except Cause Lexeme :=
  let (kind, text, rest) := numberText cs
  if maxNumber < Text.byteLength text then .error (.numberTooLong maxNumber)
  else .ok ⟨kind, text, rest, 0⟩

/-! ### Quoted texts -/

/-- A character literal, after its opening quote: one character or one escape. -/
def character : List Char → Except Cause Lexeme
  | '\\' :: c :: '\'' :: rest => .ok ⟨.charConst, ['\'', '\\', c, '\''], rest, 0⟩
  | c :: '\'' :: rest =>
    if c = '\\' ∨ c = '\n' ∨ c = '\'' then .error .unterminatedChar
    else .ok ⟨.charConst, ['\'', c, '\''], rest, 0⟩
  | _ => .error .unterminatedChar

/-- The rest of a string literal of which `used` bytes were read: its text with the closing quote,
the text after it, and the lines that end in it.  The limit is tested before every step. -/
def stringTail (used : Nat) (cs : List Char) : Except Cause (List Char × List Char × Nat) :=
  if maxText < used then .error (.stringTooLong maxText)
  else
    match cs with
    | [] => .error .unterminatedString
    | '\n' :: _ => .error .unterminatedString
    | '"' :: rest => .ok (['"'], rest, 0)
    | ['\\'] => if maxText < used + 1 then .error (.stringTooLong maxText)
      else .error .unterminatedString
    | '\\' :: c :: cs => do
      let (text, rest, lines) ← stringTail (used + 1 + c.utf8Size) cs
      return ('\\' :: c :: text, rest, lines + if c = '\n' then 1 else 0)
    | c :: cs => do
      let (text, rest, lines) ← stringTail (used + c.utf8Size) cs
      return (c :: text, rest, lines)

/-- A string literal, after its opening quote. -/
def string (cs : List Char) : Except Cause Lexeme := do
  let (text, rest, lines) ← stringTail 1 cs
  return ⟨.stringConst, '"' :: text, rest, lines⟩

/-! ### Symbols -/

/-- A symbol of two characters if the table has it, else of one. -/
def symbol (c : Char) : List Char → Lexeme
  | [] => ⟨.symbol, [c], [], 0⟩
  | d :: cs =>
    if Keyword.isPairSymbol (String.ofList [c, d]) then ⟨.symbol, [c, d], cs, 0⟩
    else ⟨.symbol, [c], d :: cs, 0⟩

/-- The lexeme at the beginning of the text `c :: cs`. -/
def scan (c : Char) (cs : List Char) : Except Cause Lexeme :=
  if isNameStart c then identifier (c :: cs)
  else if isDigit c || ((isSign c || c == '.') && cs.head?.any isDigit) then number (c :: cs)
  else if c = '\'' then character cs
  else if c = '"' then string cs
  else .ok (symbol c cs)

/-! ### A lexeme is a nonempty prefix -/

theorem splitSign_append (cs : List Char) : (splitSign cs).1 ++ (splitSign cs).2 = cs := by
  unfold splitSign
  split
  · rfl
  · split <;> rfl

theorem splitFraction_append (cs : List Char) :
    (splitFraction cs).1 ++ (splitFraction cs).2 = cs := by
  unfold splitFraction
  split
  · simp [List.takeWhile_append_dropWhile]
  · rfl

theorem splitExponent_append (cs : List Char) :
    (splitExponent cs).1 ++ (splitExponent cs).2 = cs := by
  unfold splitExponent
  split
  · rfl
  · next c cs =>
    have h := splitSign_append cs
    dsimp only
    split
    · simp [List.append_assoc, List.takeWhile_append_dropWhile, h]
    · rfl

theorem splitHexMark_append {cs mark rest : List Char}
    (h : splitHexMark cs = some (mark, rest)) : mark ++ rest = cs := by
  unfold splitHexMark at h
  split at h <;> simp_all <;> (obtain ⟨rfl, rfl⟩ := h; rfl)

theorem numberText_append (cs : List Char) : (numberText cs).2.1 ++ (numberText cs).2.2 = cs := by
  have hs := splitSign_append cs
  unfold numberText
  generalize splitSign cs = s at hs ⊢
  obtain ⟨sign, body⟩ := s
  dsimp only at hs ⊢
  split
  · next mark rest hm =>
    have hm := splitHexMark_append hm
    simp [List.append_assoc, List.takeWhile_append_dropWhile, hm, hs]
  · have hf := splitFraction_append (body.dropWhile isDigit)
    generalize splitFraction (body.dropWhile isDigit) = f at hf ⊢
    obtain ⟨fraction, cs₁⟩ := f
    have he := splitExponent_append cs₁
    generalize splitExponent cs₁ = e at he ⊢
    obtain ⟨exponent, cs₂⟩ := e
    dsimp only at hf he ⊢
    have hw : sign ++ (body.takeWhile isDigit ++ (fraction ++ (exponent ++ cs₂))) = cs := by
      rw [he, hf, List.takeWhile_append_dropWhile, hs]
    split
    · next c rest =>
      split
      · simpa [List.append_assoc] using hw
      · split
        · simpa [List.append_assoc, List.takeWhile_append_dropWhile] using hw
        · simpa [List.append_assoc] using hw
    · simpa [List.append_assoc] using hw

theorem stringTail_append {used : Nat} {cs text rest : List Char} {lines : Nat}
    (h : stringTail used cs = .ok (text, rest, lines)) : text ++ rest = cs := by
  fun_induction stringTail used cs generalizing text lines with
  | case1 => simp at h
  | case2 => simp at h
  | case3 => simp at h
  | case4 =>
    simp only [Except.ok.injEq, Prod.mk.injEq] at h
    obtain ⟨rfl, rfl, rfl⟩ := h
    rfl
  | case5 => simp at h
  | case6 => simp at h
  | case7 used _ c cs ih =>
    cases hr : stringTail (used + 1 + c.utf8Size) cs with
    | error e => simp [hr, bind, Except.bind] at h
    | ok r =>
      obtain ⟨t, r', l⟩ := r
      simp only [hr, bind, Except.bind, pure, Except.pure, Except.ok.injEq, Prod.mk.injEq] at h
      obtain ⟨rfl, rfl, rfl⟩ := h
      simp [ih hr]
  | case8 used _ c cs _ _ _ _ ih =>
    cases hr : stringTail (used + c.utf8Size) cs with
    | error e => simp [hr, bind, Except.bind] at h
    | ok r =>
      obtain ⟨t, r', l⟩ := r
      simp only [hr, bind, Except.bind, pure, Except.pure, Except.ok.injEq, Prod.mk.injEq] at h
      obtain ⟨rfl, rfl, rfl⟩ := h
      simp [ih hr]

/-- Nothing is lost: the lexeme and the text after it make up the source. -/
theorem scan_append {c : Char} {cs : List Char} {l : Lexeme} (h : scan c cs = .ok l) :
    l.text ++ l.rest = c :: cs := by
  unfold scan at h
  split at h
  · unfold identifier at h
    dsimp only at h
    split at h
    · simp at h
    · simp only [Except.ok.injEq] at h
      subst h
      exact List.takeWhile_append_dropWhile
  · split at h
    · unfold number at h
      have hn := numberText_append (c :: cs)
      generalize numberText (c :: cs) = n at h hn
      obtain ⟨kind, text, rest⟩ := n
      dsimp only at h hn
      split at h
      · simp at h
      · simp only [Except.ok.injEq] at h
        subst h
        exact hn
    · split at h
      · next hc =>
        subst hc
        fun_cases character cs <;> simp_all [character]
        · subst h; rfl
        · obtain ⟨h, rfl⟩ := h; rfl
      · split at h
        · next hc =>
          subst hc
          unfold string at h
          cases hr : stringTail 1 cs with
          | error e => simp [hr, bind, Except.bind] at h
          | ok r =>
            obtain ⟨t, r', n⟩ := r
            simp only [hr, bind, Except.bind, pure, Except.pure, Except.ok.injEq] at h
            subst h
            simp [stringTail_append hr]
        · simp only [Except.ok.injEq] at h
          subst h
          unfold symbol
          split
          · rfl
          · split <;> rfl

theorem isNameChar_of_isNameStart {c : Char} (h : isNameStart c = true) : isNameChar c = true := by
  unfold isNameStart at h
  unfold isNameChar Char.isAlphanum
  simp only [Bool.or_eq_true] at h ⊢
  exact h.elim (fun h => .inl (.inl h)) .inr

theorem numberText_ne_nil {c : Char} {cs : List Char}
    (h : isSign c = true ∨ isDigit c = true ∨ c = '.') : (numberText (c :: cs)).2.1 ≠ [] := by
  unfold numberText
  by_cases hs : isSign c = true
  · simp only [splitSign, hs, if_true]
    split
    · simp
    · split <;> (try split) <;> (try split) <;> simp
  · simp only [splitSign, hs, if_false, Bool.false_eq_true]
    rcases h with h | h | h
    · exact absurd h hs
    · split
      · next mark rest hm =>
        have : mark ≠ [] := by
          unfold splitHexMark at hm
          split at hm <;> simp_all <;> (obtain ⟨rfl, _⟩ := hm; simp)
        simp [this]
      · have : (c :: cs).takeWhile isDigit ≠ [] := by simp [h]
        split <;> (try split) <;> (try split) <;> simp [this]
    · subst h
      have hf : (splitFraction (('.' :: cs).dropWhile isDigit)).1 ≠ [] := by
        have hd : isDigit '.' = false := by decide
        simp [hd, splitFraction]
      split
      · next mark rest hm => simp [splitHexMark] at hm
      · split <;> (try split) <;> (try split) <;> simp [hf]

theorem scan_text_ne_nil {c : Char} {cs : List Char} {l : Lexeme} (h : scan c cs = .ok l) :
    l.text ≠ [] := by
  unfold scan at h
  split at h
  · next hc =>
    unfold identifier at h
    dsimp only at h
    split at h
    · simp at h
    · simp only [Except.ok.injEq] at h
      subst h
      simp [isNameChar_of_isNameStart hc]
  · split at h
    · next hc =>
      have hc : isSign c = true ∨ isDigit c = true ∨ c = '.' := by
        simp only [Bool.or_eq_true, Bool.and_eq_true, beq_iff_eq] at hc
        rcases hc with hc | ⟨hc | hc, _⟩
        · exact .inr (.inl hc)
        · exact .inl hc
        · exact .inr (.inr hc)
      unfold number at h
      have hn := @numberText_ne_nil c cs hc
      generalize numberText (c :: cs) = n at h hn
      obtain ⟨kind, text, rest⟩ := n
      dsimp only at h hn
      split at h
      · simp at h
      · simp only [Except.ok.injEq] at h
        subst h
        exact hn
    · split at h
      · fun_cases character cs <;> simp_all [character]
        · subst h; simp
        · obtain ⟨h, rfl⟩ := h; simp
      · split at h
        · unfold string at h
          cases hr : stringTail 1 cs with
          | error e => simp [hr, bind, Except.bind] at h
          | ok r =>
            simp only [hr, bind, Except.bind, pure, Except.pure, Except.ok.injEq] at h
            subst h
            simp
        · simp only [Except.ok.injEq] at h
          subst h
          unfold symbol
          split
          · simp
          · split <;> simp

/-- The text shrinks with every lexeme. -/
theorem length_rest_of_scan {c : Char} {cs : List Char} {l : Lexeme} (h : scan c cs = .ok l) :
    l.rest.length < (c :: cs).length := by
  rw [← scan_append h, List.length_append]
  have := List.length_pos_iff.2 (scan_text_ne_nil h)
  omega

end Lexeme

end HeaderLex
