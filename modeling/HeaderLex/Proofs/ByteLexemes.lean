import HeaderLex.Proofs.Bytewise

/-!
# Reading by bytes: lexemes

The end of a lexeme is found by bytes, and its text is then taken out of the source by one slice.

* `numberEnd`, `characterEnd`, `stringEnd`, `symbolEnd`   where a lexeme ends;
* `cutAt?_inside`    no offset inside a character can be cut at;
* `boundaryFrom_eq`  after an escape, the search for a boundary stops behind the escaped character;
* `lexeme`           the lexeme at a position;
* `lexeme_eq`        it is the lexeme on characters, and no slice fails.
-/

namespace HeaderLex

open Text

namespace Bytewise

open Number (isDigit)
open Token (isIntegerSuffix isFloatSuffix)
open Lexeme (isSign isHexDigit)

/-! ## where lexemes end -/

/-- The offset after an optional sign. -/
def signEnd (source : List Char) (i : Nat) : Nat := if isSign (byteAt source i) then i + 1 else i

/-- The offset after an optional point with digits. -/
def fractionEnd (source : List Char) (i : Nat) : Nat :=
  if byteAt source i = '.' then runFrom source isDigit (i + 1) else i

/-- The offset after an optional exponent, which needs a digit. -/
def exponentEnd (source : List Char) (i : Nat) : Nat :=
  if byteAt source i = 'e' ∨ byteAt source i = 'E' then
    let digits := signEnd source (i + 1)
    if isDigit (byteAt source digits) then runFrom source isDigit digits else i
  else i

/-- The kind of a number whose digits end at an offset, and where it ends. -/
def suffixEnd (source : List Char) (isFloat : Bool) (i : Nat) : TokenKind × Nat :=
  if isFloatSuffix (byteAt source i) then (.floatConst, i + 1)
  else if isFloat then (.floatConst, i)
  else (.decimalConst, runFrom source isIntegerSuffix i)

/-- The kind of the number at an offset, and where it ends. -/
def numberEnd (source : List Char) (i : Nat) : TokenKind × Nat :=
  let body := signEnd source i
  if byteAt source body = '0' ∧ (byteAt source (body + 1) = 'x' ∨ byteAt source (body + 1) = 'X') then
    (.hexConst, runFrom source isIntegerSuffix (runFrom source isHexDigit (body + 2)))
  else
    let whole := runFrom source isDigit body
    let digits := exponentEnd source (fractionEnd source whole)
    suffixEnd source (decide (whole < digits)) digits

/-- The offset after the closing quote, if one stands at an offset. -/
def quoteEnd (source : List Char) (i : Nat) : Option Nat :=
  if byteAt source i = '\'' then some (i + 1) else none

/-- Where the character literal ends whose opening quote stands at an offset. -/
def characterEnd (source : List Char) (i : Nat) : Except Fault (Option Nat) := do
  match ← textFrom source (i + 1) with
  | [] => return none
  | c :: _ =>
    if c = '\\' then
      let escaped ← textFrom source (i + 2)
      return quoteEnd source (i + 2 + (escaped.head?.map Char.utf8Size).getD 0)
    else if c = '\n' ∨ c = '\'' then return none
    else return quoteEnd source (i + 1 + c.utf8Size)

/-- The first offset from `i` on that does not lie inside a character. -/
def boundaryFrom (source : List Char) : Nat → Nat → Except Fault Nat
  | 0, _ => .error .stalled
  | fuel + 1, i =>
    if (cutAt? i source).isSome then .ok i else boundaryFrom source fuel (i + 1)

/-- Where the string literal ends that began at `start`, and the lines that end in it. -/
def stringEnd (source : List Char) (start : Nat) :
    Nat → Nat → Nat → Except Fault (Except Cause (Nat × Nat))
  | 0, _, _ => .error .stalled
  | fuel + 1, i, lines =>
    if maxText < i - start then .ok (.error (.stringTooLong maxText))
    else if byteLength source ≤ i then .ok (.error .unterminatedString)
    else if byteAt source i = '\n' then .ok (.error .unterminatedString)
    else if byteAt source i = '\\' then do
      -- two bytes are skipped, which may lead into a character
      let next ← boundaryFrom source (byteLength source + 1) (min (i + 2) (byteLength source))
      stringEnd source start fuel next (if byteAt source (i + 1) = '\n' then lines + 1 else lines)
    else if byteAt source i = '"' then .ok (.ok (i + 1, lines))
    else stringEnd source start fuel (i + 1) lines

/-- A symbol of two characters stands at an offset.  The next two bytes need not be a text. -/
def isPairAt (source : List Char) (i : Nat) : Bool :=
  match slice source i (i + 2) with
  | .ok pair => Keyword.isPairSymbol (String.ofList pair)
  | .error _ => false

/-- Where the symbol at an offset ends. -/
def symbolEnd (source : List Char) (i : Nat) : Except Fault Nat := do
  if isPairAt source i then return i + 2
  else return i + ((← textFrom source i).head?.map Char.utf8Size).getD 1

/-- The kind of a lexeme, its text, and the cursor after it. -/
abbrev Lexed : Type := Except Cause (TokenKind × List Char × Cursor)

/-- The lexeme between a position and an offset. -/
def finish (source : List Char) (p : Position) (kind : TokenKind) (stop lines : Nat) :
    Except Fault Lexed := do
  let text ← slice source p.offset stop
  return .ok (kind, text, ← place source stop (p.line + lines))

def identifier (source : List Char) (p : Position) : Except Fault Lexed :=
  let stop := runFrom source isNameChar p.offset
  if maxName < stop - p.offset then .ok (.error (.identifierTooLong maxName))
  else finish source p .identifier stop 0

def number (source : List Char) (p : Position) : Except Fault Lexed :=
  let (kind, stop) := numberEnd source p.offset
  if maxNumber < stop - p.offset then .ok (.error (.numberTooLong maxNumber))
  else finish source p kind stop 0

def character (source : List Char) (p : Position) : Except Fault Lexed := do
  match ← characterEnd source p.offset with
  | none => return .error .unterminatedChar
  | some stop => finish source p .charConst stop 0

def string (source : List Char) (p : Position) : Except Fault Lexed := do
  match ← stringEnd source p.offset (byteLength source + 1) (p.offset + 1) 0 with
  | .error cause => return .error cause
  | .ok (stop, lines) => finish source p .stringConst stop lines

def symbol (source : List Char) (p : Position) : Except Fault Lexed := do
  finish source p .symbol (← symbolEnd source p.offset) 0

/-- The lexeme at a position. -/
def lexeme (source : List Char) (p : Position) : Except Fault Lexed :=
  let a := byteAt source p.offset
  if isNameStart a then identifier source p
  else if isDigit a || ((isSign a || a == '.') && isDigit (byteAt source (p.offset + 1))) then
    number source p
  else if a = '\'' then character source p
  else if a = '"' then string source p
  else symbol source p

/-! ## classes of characters -/

theorem blunt_isDigit : Blunt isDigit false := by
  intro a ha
  unfold isDigit
  simp only [Bool.and_eq_false_iff, decide_eq_false_iff_not]
  omega

theorem blunt_isHexDigit : Blunt isHexDigit false := by
  intro a ha
  unfold isHexDigit Number.digitValue?
  dsimp only
  rw [if_neg (by omega), if_neg (by omega), if_neg (by omega)]
  rfl

theorem wide_isAlphanum {a : Char} (ha : 128 ≤ a.toNat) : a.isAlphanum = false := by
  have hno : ∀ n : UInt32, n.toNat < 128 → ¬ a.val ≤ n := by
    intro n hn hle
    have hval : a.toNat ≤ n.toNat := UInt32.le_iff_toNat_le.1 hle
    omega
  have hupper : a.isUpper = false := decide_eq_false fun h => hno _ (by decide) h.2
  have hlower : a.isLower = false :=
    Bool.and_eq_false_iff.2 (.inr (decide_eq_false (hno _ (by decide))))
  have hdigit : a.isDigit = false :=
    Bool.and_eq_false_iff.2 (.inr (decide_eq_false (hno _ (by decide))))
  show (a.isUpper || a.isLower || a.isDigit) = false
  rw [hupper, hlower, hdigit]
  rfl

theorem blunt_isNameStart : Blunt isNameStart false := by
  intro a ha
  have hname := wide_isAlphanum ha
  rw [Char.isAlphanum, Bool.or_eq_false_iff] at hname
  simp [isNameStart, hname.1, wide_ne (d := '_') ha (by decide)]

theorem blunt_isNameChar : Blunt isNameChar false := by
  intro a ha
  simp [isNameChar, wide_isAlphanum ha, wide_ne (d := '_') ha (by decide)]

theorem blunt_isSign : Blunt isSign false := by
  intro a ha
  have hne : ∀ d : Char, d.toNat < 128 → a ≠ d := fun d hd => wide_ne ha hd
  simp [isSign, hne '+' (by decide), hne '-' (by decide)]

theorem blunt_isFloatSuffix : Blunt isFloatSuffix false := by
  intro a ha
  have hne : ∀ d : Char, d.toNat < 128 → a ≠ d := fun d hd => wide_ne ha hd
  simp [isFloatSuffix, hne 'f' (by decide), hne 'F' (by decide)]

theorem blunt_isIntegerSuffix : Blunt isIntegerSuffix false := by
  intro a ha
  have hne : ∀ d : Char, d.toNat < 128 → a ≠ d := fun d hd => wide_ne ha hd
  simp [isIntegerSuffix, hne 'u' (by decide), hne 'U' (by decide), hne 'l' (by decide),
    hne 'L' (by decide)]

/-! ## numbers -/

variable {source cs : List Char} {i : Nat}

theorem signEnd_eq (h : At source i cs) :
    signEnd source i = i + byteLength (Lexeme.splitSign cs).1 ∧
      At source (signEnd source i) (Lexeme.splitSign cs).2 := by
  refine (and_iff_left_of_imp (h.reach (Lexeme.splitSign_append cs))).2 ?_
  unfold signEnd
  rw [h.test blunt_isSign (by decide)]
  fun_cases Lexeme.splitSign cs with
  | case1 => rfl
  | case2 c cs hc =>
    rw [if_pos (by simpa using hc), byteLength_cons, utf8Size_narrow (blunt_isSign.narrow hc)]
    rfl
  | case3 c cs hc =>
    rw [if_neg (by simpa using hc)]
    rfl

theorem fractionEnd_eq (h : At source i cs) :
    fractionEnd source i = i + byteLength (Lexeme.splitFraction cs).1 ∧
      At source (fractionEnd source i) (Lexeme.splitFraction cs).2 := by
  refine (and_iff_left_of_imp (h.reach (Lexeme.splitFraction_append cs))).2 ?_
  unfold fractionEnd
  simp only [h.byte_iff (a := '.') (by decide)]
  fun_cases Lexeme.splitFraction cs with
  | case1 cs =>
    rw [if_pos (by simp), ((h.step (by decide)).run blunt_isDigit).1, byteLength_cons, Nat.add_assoc]
    rfl
  | case2 cs hcs =>
    rw [if_neg]
    · rfl
    · intro hhead
      obtain ⟨rest, rfl⟩ := List.head?_eq_some_iff.1 hhead
      exact hcs rest rfl

theorem exponentEnd_eq (h : At source i cs) :
    exponentEnd source i = i + byteLength (Lexeme.splitExponent cs).1 ∧
      At source (exponentEnd source i) (Lexeme.splitExponent cs).2 := by
  refine (and_iff_left_of_imp (h.reach (Lexeme.splitExponent_append cs))).2 ?_
  unfold exponentEnd
  simp only [h.byte_iff (a := 'e') (by decide), h.byte_iff (a := 'E') (by decide)]
  cases cs with
  | nil => rfl
  | cons c cs =>
    simp only [List.head?_cons, Option.some.injEq]
    unfold Lexeme.splitExponent
    by_cases hc : c = 'e' ∨ c = 'E'
    · have hnarrow : c.toNat < 128 := by
        rcases hc with rfl | rfl <;> decide
      obtain ⟨hsign, hdigits⟩ := signEnd_eq (h.step hnarrow)
      rw [if_pos hc, hdigits.test blunt_isDigit (by decide)]
      have hmark : (c == 'e' || c == 'E') = true := by simpa using hc
      simp only [hmark, Bool.true_and]
      split
      · rw [(hdigits.run blunt_isDigit).1, hsign, byteLength_cons, utf8Size_narrow hnarrow,
          byteLength_append]
        omega
      · rfl
    · have hmark : (c == 'e' || c == 'E') = false := by simpa using hc
      rw [if_neg hc]
      simp only [hmark, Bool.false_and]
      rfl

theorem byteLength_pos {cs : List Char} : 0 < byteLength cs ↔ cs ≠ [] := by
  cases cs with
  | nil => exact iff_of_false (Nat.lt_irrefl 0) (fun h => h rfl)
  | cons c cs => exact iff_of_true (Nat.add_pos_left c.utf8Size_pos _) (List.cons_ne_nil c cs)

theorem splitHexMark_cases (cs : List Char) :
    (∃ x rest, (x = 'x' ∨ x = 'X') ∧ cs = '0' :: x :: rest ∧
      Lexeme.splitHexMark cs = some (['0', x], rest)) ∨
    (Lexeme.splitHexMark cs = none ∧ cs.take 2 ≠ ['0', 'x'] ∧ cs.take 2 ≠ ['0', 'X']) := by
  unfold Lexeme.splitHexMark
  split
  · next rest => exact .inl ⟨'x', rest, .inl rfl, rfl, rfl⟩
  · next rest => exact .inl ⟨'X', rest, .inr rfl, rfl, rfl⟩
  · next h1 h2 =>
    refine .inr ⟨rfl, ?_, ?_⟩
    · intro h
      exact h1 (cs.drop 2) ((List.take_append_drop 2 cs).symm.trans (by rw [h]; rfl))
    · intro h
      exact h2 (cs.drop 2) ((List.take_append_drop 2 cs).symm.trans (by rw [h]; rfl))

/-- The suffix of a number without a mark, after its digits. -/
theorem suffixEnd_eq {start : Nat} {digits tail : List Char} (isPlain : Bool) :
    At source (start + byteLength digits) tail →
    suffixEnd source (!isPlain) (start + byteLength digits) = match tail with
      | [] => (if isPlain then .decimalConst else .floatConst, start + byteLength digits)
      | c :: rest =>
        if isFloatSuffix c then (.floatConst, start + byteLength (digits ++ [c]))
        else if isPlain then
          (.decimalConst, start + byteLength (digits ++ (c :: rest).takeWhile isIntegerSuffix))
        else (.floatConst, start + byteLength digits) := by
  intro h
  have hsuffix := (h.run blunt_isIntegerSuffix).1
  unfold suffixEnd
  rw [h.test blunt_isFloatSuffix (by decide), hsuffix]
  cases tail with
  | nil => cases isPlain <;> rfl
  | cons c rest =>
    dsimp only
    rw [byteLength_append, byteLength_append, ← Nat.add_assoc, ← Nat.add_assoc]
    by_cases hc : isFloatSuffix c = true
    · have hwidth : byteLength [c] = 1 := utf8Size_narrow (blunt_isFloatSuffix.narrow hc)
      simp [hc, hwidth]
    · cases isPlain <;> simp [hc]

theorem numberEnd_eq (h : At source i cs) : numberEnd source i
    = ((Lexeme.numberText cs).1, i + byteLength (Lexeme.numberText cs).2.1) := by
  obtain ⟨hsign, hbody⟩ := signEnd_eq h
  unfold numberEnd Lexeme.numberText
  simp only [and_or_left, hbody.pair_iff (a := '0') (b := 'x') (by decide) (by decide),
    hbody.pair_iff (a := '0') (b := 'X') (by decide) (by decide)]
  generalize Lexeme.splitSign cs = split at hsign hbody ⊢
  obtain ⟨sign, body⟩ := split
  generalize signEnd source i = start at hsign hbody ⊢
  dsimp only at hsign hbody ⊢
  obtain ⟨x, rest, hx, rfl, hmark⟩ | ⟨hmark, hlow, hhigh⟩ := splitHexMark_cases body
  · have hnarrow : x.toNat < 128 := by
      rcases hx with rfl | rfl <;> decide
    have hdigits := ((hbody.step (by decide)).step hnarrow).run blunt_isHexDigit
    have hsuffix := hdigits.2.run blunt_isIntegerSuffix
    rw [if_pos (by simpa using hx)]
    simp only [hmark]
    show (TokenKind.hexConst, runFrom source isIntegerSuffix (runFrom source isHexDigit _)) = _
    rw [hsuffix.1, hdigits.1, hsign]
    simp only [byteLength_append, byteLength_cons, byteLength_nil, utf8Size_narrow hnarrow,
      utf8Size_narrow (c := '0') (by decide)]
    congr 1
    omega
  · obtain ⟨hwhole, hafter⟩ := hbody.run blunt_isDigit
    rw [if_neg (by simp [hlow, hhigh])]
    simp only [hmark]
    generalize runFrom source isDigit start = whole at hwhole hafter ⊢
    obtain ⟨hfraction, hafter⟩ := fractionEnd_eq hafter
    generalize fractionEnd source whole = point at hfraction hafter ⊢
    generalize Lexeme.splitFraction (body.dropWhile isDigit) = split at hfraction hafter ⊢
    obtain ⟨fraction, tail⟩ := split
    obtain ⟨hexponent, hend⟩ := exponentEnd_eq hafter
    generalize exponentEnd source point = stop at hexponent hend ⊢
    generalize Lexeme.splitExponent tail = split at hexponent hend ⊢
    obtain ⟨exponent, tail⟩ := split
    dsimp only at hfraction hexponent hend ⊢
    have hstop : stop = i + byteLength (sign ++ body.takeWhile isDigit ++ fraction ++ exponent) := by
      simp only [byteLength_append]
      omega
    -- a point or an exponent was met where the digits go on behind the first run
    have hmet : decide (whole < stop) = !(fraction.isEmpty && exponent.isEmpty) := by
      rw [Bool.eq_iff_iff, decide_eq_true_eq, Bool.not_eq_true', Bool.and_eq_false_iff,
        List.isEmpty_eq_false_iff, List.isEmpty_eq_false_iff, ← byteLength_pos, ← byteLength_pos]
      omega
    rw [hmet, hstop, suffixEnd_eq _ (hstop ▸ hend)]
    cases tail with
    | nil => rfl
    | cons c rest =>
      dsimp only
      split
      · rfl
      · split <;> rfl

/-! ## quoted texts -/

theorem quoteEnd_eq (h : At source i cs) :
    quoteEnd source i = if cs.head? = some '\'' then some (i + 1) else none := by
  unfold quoteEnd
  simp only [h.byte_iff (a := '\'') (by decide)]

theorem character_escape (c : Char) (cs : List Char) : (Lexeme.character ('\\' :: c :: cs)).toOption
    = if cs.head? = some '\'' then some ⟨.charConst, ['\'', '\\', c, '\''], cs.tail, 0⟩ else none := by
  cases cs with
  | nil => by_cases hc : c = '\'' <;> simp [Lexeme.character, hc, Except.toOption]
  | cons d cs =>
    by_cases hd : d = '\''
    · subst hd
      rfl
    · by_cases hc : c = '\'' <;> simp [Lexeme.character, hc, hd, Except.toOption]

theorem character_plain {c : Char} (hc : c ≠ '\\') (cs : List Char) :
    (Lexeme.character (c :: cs)).toOption = if c ≠ '\n' ∧ c ≠ '\'' ∧ cs.head? = some '\'' then
      some ⟨.charConst, ['\'', c, '\''], cs.tail, 0⟩ else none := by
  cases cs with
  | nil => simp [Lexeme.character, Except.toOption]
  | cons d cs =>
    by_cases hd : d = '\''
    · subst hd
      by_cases hn : c = '\n'
      · simp [Lexeme.character, hn, Except.toOption]
      · by_cases hq : c = '\'' <;> simp [Lexeme.character, hc, hn, hq, Except.toOption]
    · simp [Lexeme.character, hc, hd, Except.toOption]

/-- A character literal ends where it ends on characters. -/
theorem characterEnd_eq (h : At source i ('\'' :: cs)) : characterEnd source i
    = .ok ((Lexeme.character cs).toOption.map fun l => i + byteLength l.text) := by
  have hinner := h.step (by decide)
  unfold characterEnd
  rw [textFrom_eq hinner]
  cases cs with
  | nil => rfl
  | cons c cs =>
    show (if c = '\\' then _ else if _ then _ else _) = _
    by_cases hc : c = '\\'
    · subst hc
      have hescaped : At source (i + 2) cs := hinner.step (by decide)
      rw [if_pos rfl, textFrom_eq hescaped]
      apply congrArg Except.ok
      cases cs with
      | nil => exact quoteEnd_eq hescaped
      | cons d cs =>
        rw [character_escape]
        refine (quoteEnd_eq hescaped.next).trans ?_
        split
        · show some (i + 2 + d.utf8Size + 1) = some (i + (1 + (1 + (d.utf8Size + 1))))
          congr 1
          omega
        · rfl
    · rw [if_neg hc, character_plain hc]
      by_cases hbad : c = '\n' ∨ c = '\''
      · rw [if_pos hbad, if_neg (fun hgood => hbad.elim hgood.1 hgood.2.1)]
        rfl
      · rw [not_or] at hbad
        rw [if_neg (not_or.2 hbad)]
        apply congrArg Except.ok
        refine (quoteEnd_eq hinner.next).trans ?_
        simp only [ne_eq, hbad, not_false_eq_true, true_and]
        split
        · show some (i + 1 + c.utf8Size + 1) = some (i + (1 + (c.utf8Size + 1)))
          congr 1
          omega
        · rfl

/-- No offset inside a character can be cut at. -/
theorem cutAt?_inside {c : Char} (h : At source i (c :: cs)) {k : Nat} (hk : 0 < k)
    (hsize : k < c.utf8Size) : cutAt? (i + k) source = none := by
  cases hcut : cutAt? (i + k) source with
  | none => rfl
  | some p =>
    obtain ⟨before, after⟩ := p
    obtain ⟨hsource, hlength⟩ := cutAt?_eq_some hcut
    obtain ⟨front, rfl, rfl⟩ := h
    obtain ⟨piece, rfl, hpiece⟩ | ⟨piece, rfl, hpiece⟩ := List.append_eq_append_iff.1 hsource
    · rw [byteLength_append] at hlength
      cases piece with
      | nil =>
        rw [byteLength_nil] at hlength
        omega
      | cons d piece =>
        obtain rfl := (List.cons.inj hpiece).1
        rw [byteLength_cons] at hlength
        omega
    · rw [byteLength_append] at hlength
      omega

/-- The search for a boundary stops behind the character that it began in. -/
theorem boundaryFrom_eq {c : Char} (h : At source i (c :: cs)) {k fuel : Nat} (hk : 0 < k)
    (hsize : k ≤ c.utf8Size) (hfuel : c.utf8Size < fuel + k) :
    boundaryFrom source fuel (i + k) = .ok (i + c.utf8Size) := by
  induction fuel generalizing k with
  | zero => omega
  | succ fuel ih =>
    unfold boundaryFrom
    by_cases hend : k = c.utf8Size
    · have hcut : (cutAt? (i + k) source).isSome = true := by
        rw [hend, ← Option.isSome_map, h.next.cutAt?]
        rfl
      rw [if_pos hcut, hend]
    · rw [cutAt?_inside h hk (by omega)]
      exact ih (k := k + 1) (by omega) (by omega) (by omega)

/-- The bytes of a wide character are stepped over one by one.  Where the limit is passed on the way,
it is passed behind the character too. -/
theorem stringEnd_wide {c : Char} (h : At source i (c :: cs)) (hwide : 128 ≤ c.toNat) {start : Nat}
    (fuel lines : Nat) {n k : Nat} (hk : k + n = c.utf8Size) :
    stringEnd source start (fuel + 1 + n) (i + k) lines
      = stringEnd source start (fuel + 1) (i + c.utf8Size) lines := by
  induction n generalizing k with
  | zero =>
    rw [← hk]
    rfl
  | succ n ih =>
    have hbyte := h.inside hwide (k := k) (by omega)
    have hle := h.next.le
    rw [← Nat.add_assoc, stringEnd]
    by_cases hlimit : maxText < i + k - start
    · rw [if_pos hlimit, stringEnd, if_pos (by omega)]
    · rw [if_neg hlimit, if_neg (by omega), if_neg (wide_ne hbyte (by decide)),
        if_neg (wide_ne hbyte (by decide)), if_neg (wide_ne hbyte (by decide))]
      exact ih (k := k + 1) (by omega)

/-- A plain character is stepped over. -/
theorem stringEnd_plain {c : Char} (h : At source i (c :: cs)) {start : Nat} (fuel lines : Nat)
    (hlimit : ¬ maxText < i - start) (hline : c ≠ '\n') (hquote : c ≠ '"') (hescape : c ≠ '\\') :
    stringEnd source start (fuel + 1 + c.utf8Size) i lines
      = stringEnd source start (fuel + 1) (i + c.utf8Size) lines := by
  by_cases hc : c.toNat < 128
  · have hbyte : byteAt source i = c := by rw [h.byteAt, firstByte_narrow hc]
    rw [utf8Size_narrow hc, stringEnd, if_neg hlimit, if_neg h.lt, hbyte, if_neg hline,
      if_neg hescape, if_neg hquote]
  · exact stringEnd_wide h (Nat.not_lt.1 hc) fuel lines (Nat.zero_add _)

/-- A backslash takes the character after it along, if there is one. -/
theorem stringEnd_escape (h : At source i ('\\' :: cs)) {start : Nat} (fuel lines : Nat)
    (hlimit : ¬ maxText < i - start) : stringEnd source start (fuel + 1) i lines
      = stringEnd source start fuel (i + 1 + byteLength (cs.take 1))
        (lines + if cs.head? = some '\n' then 1 else 0) := by
  have hafter := h.step (by decide)
  have hnext : boundaryFrom source (byteLength source + 1) (min (i + 2) (byteLength source))
      = .ok (i + 1 + byteLength (cs.take 1)) := by
    have hle := hafter.le
    cases cs with
    | nil =>
      have hcut : (cutAt? (i + 1) source).isSome = true := by
        rw [← Option.isSome_map, hafter.cutAt?]
        rfl
      rw [byteLength_nil] at hle
      rw [← hle, Nat.min_eq_right (by omega), boundaryFrom, Nat.add_zero, if_pos hcut]
      rfl
    | cons c cs =>
      have hpos := c.utf8Size_pos
      rw [byteLength_cons] at hle
      rw [Nat.min_eq_left (by omega)]
      exact boundaryFrom_eq hafter (k := 1) Nat.one_pos hpos (by omega)
  have hline : (if byteAt source (i + 1) = '\n' then lines + 1 else lines)
      = lines + if cs.head? = some '\n' then 1 else 0 := by
    simp only [hafter.byte_iff (a := '\n') (by decide)]
    split <;> rfl
  rw [stringEnd, if_neg hlimit, if_neg h.lt, (h.byte_iff (a := '\\') (by decide)).2 rfl,
    if_neg (by decide), if_pos rfl, hnext, hline]
  rfl

theorem noEscape {a : Char} {cs : List Char} (hlast : a = '\\' → cs = [] → False)
    (hescape : ∀ d ds, a = '\\' → cs = d :: ds → False) : a ≠ '\\' := by
  intro ha
  cases cs with
  | nil => exact hlast ha rfl
  | cons d ds => exact hescape d ds ha rfl

/-- A string literal ends where it ends on characters, and counts the same lines. -/
theorem stringEnd_eq {start used lines fuel : Nat} (h : At source i cs) (hused : i = start + used)
    (hfuel : byteLength source < fuel + i) : stringEnd source start fuel i lines
      = .ok ((Lexeme.stringTail used cs).map fun r => (i + byteLength r.1, lines + r.2.2)) := by
  have hle := h.le
  obtain ⟨fuel, rfl⟩ : ∃ m, fuel = m + 1 := ⟨fuel - 1, by omega⟩
  fun_induction Lexeme.stringTail used cs generalizing i lines fuel with
  | case1 used cs hlimit =>
    rw [stringEnd, if_pos (by omega)]
    rfl
  | case2 used hlimit =>
    rw [byteLength_nil] at hle
    rw [stringEnd, if_neg (by omega), if_pos (by omega)]
    rfl
  | case3 used hlimit cs =>
    have hbyte := (h.byte_iff (a := '\n') (by decide)).2 rfl
    rw [stringEnd, if_neg (by omega), if_neg h.lt, if_pos hbyte]
    rfl
  | case4 used hlimit cs =>
    have hbyte := (h.byte_iff (a := '"') (by decide)).2 rfl
    rw [stringEnd, if_neg (by omega), if_neg h.lt, hbyte, if_neg (by decide), if_neg (by decide),
      if_pos rfl]
    rfl
  | case5 used hlimit hlimit' =>
    have hend := (h.step (by decide)).le
    rw [byteLength_nil] at hend
    obtain ⟨fuel, rfl⟩ : ∃ m, fuel = m + 1 := ⟨fuel - 1, by omega⟩
    rw [stringEnd_escape h _ _ (by omega), stringEnd, if_pos]
    · rfl
    · show maxText < i + 1 + 0 - start
      omega
  | case6 used hlimit hlimit' =>
    have hend := (h.step (by decide)).le
    rw [byteLength_nil] at hend
    obtain ⟨fuel, rfl⟩ : ∃ m, fuel = m + 1 := ⟨fuel - 1, by omega⟩
    rw [stringEnd_escape h _ _ (by omega), stringEnd, if_neg, if_pos]
    · rfl
    · show byteLength source ≤ i + 1 + 0
      omega
    · show ¬ maxText < i + 1 + 0 - start
      omega
  | case7 used hlimit c cs ih =>
    have hstep := (h.step (by decide)).next
    have hend := hstep.le
    obtain ⟨fuel, rfl⟩ : ∃ m, fuel = m + 1 := ⟨fuel - 1, by omega⟩
    rw [stringEnd_escape h _ _ (by omega)]
    refine (ih hstep (by omega) hend fuel (by omega)).trans ?_
    apply congrArg Except.ok
    cases Lexeme.stringTail (used + 1 + c.utf8Size) cs with
    | error cause => rfl
    | ok r =>
      show Except.ok _ = Except.ok (i + (1 + (c.utf8Size + byteLength r.1)),
        lines + (r.2.2 + if c = '\n' then 1 else 0))
      simp only [List.head?_cons, Option.some.injEq, Except.ok.injEq, Prod.mk.injEq]
      omega
  | case8 used hlimit c cs hline hquote hlast hescape ih =>
    have hend := h.next.le
    obtain ⟨fuel, rfl⟩ : ∃ m, fuel = m + c.utf8Size := ⟨fuel - c.utf8Size, by omega⟩
    rw [Nat.add_right_comm, stringEnd_plain h _ _ (by omega) hline hquote (noEscape hlast hescape)]
    refine (ih h.next (by omega) hend fuel (by omega)).trans ?_
    apply congrArg Except.ok
    cases Lexeme.stringTail (used + c.utf8Size) cs with
    | error cause => rfl
    | ok r =>
      show Except.ok (i + c.utf8Size + byteLength r.1, lines + r.2.2) = Except.ok (i + (_ + _), _)
      rw [Nat.add_assoc]

/-! ## symbols -/

/-- A symbol of two characters has two narrow characters. -/
theorem narrow_of_isPairSymbol {text : List Char} (h : Keyword.isPairSymbol (String.ofList text) = true) :
    ∃ a b, text = [a, b] ∧ a.toNat < 128 ∧ b.toNat < 128 := by
  have hmem : text ∈ Keyword.pairSymbols.map String.toList := by
    refine List.mem_map.2 ⟨String.ofList text, ?_, String.toList_ofList⟩
    exact List.contains_iff_mem.1 h
  have hall : ∀ t ∈ Keyword.pairSymbols.map String.toList,
      t.length = 2 ∧ t.all (fun a => a.toNat < 128) = true := by decide
  obtain ⟨hlength, hnarrow⟩ := hall text hmem
  match text, hlength, hnarrow with
  | [a, b], _, hnarrow => exact ⟨a, b, rfl, by simpa using hnarrow⟩

/-- What a slice gives stands at its offset. -/
theorem slice_eq_ok {j : Nat} {text : List Char} (h : At source i cs)
    (hslice : slice source i j = .ok text) : ∃ rest, cs = text ++ rest := by
  have hcut := h.cutAt?
  unfold slice at hslice
  split at hslice
  · split at hslice
    · cases hslice
    · next before rest hat =>
      rw [hat] at hcut
      obtain rfl : rest = cs := Option.some.inj hcut
      split at hslice
      · cases hslice
      · next piece after hpiece =>
        obtain rfl := Except.ok.inj hslice
        exact ⟨after, (cutAt?_eq_some hpiece).1⟩
  · cases hslice

theorem isPairAt_eq {c : Char} (h : At source i (c :: cs)) :
    isPairAt source i = cs.head?.any fun d => Keyword.isPairSymbol (String.ofList [c, d]) := by
  rw [Bool.eq_iff_iff]
  unfold isPairAt
  constructor
  · intro hpair
    split at hpair
    · next pair hslice =>
      obtain ⟨rest, hrest⟩ := slice_eq_ok h hslice
      obtain ⟨a, b, rfl, -, -⟩ := narrow_of_isPairSymbol hpair
      obtain ⟨rfl, rfl⟩ := List.cons.inj hrest
      exact hpair
    · cases hpair
  · intro hpair
    cases cs with
    | nil => cases hpair
    | cons d cs =>
      obtain ⟨_, _, heq, hc, hd⟩ := narrow_of_isPairSymbol hpair
      obtain ⟨rfl, htail⟩ := List.cons.inj heq
      obtain ⟨rfl, -⟩ := List.cons.inj htail
      have hslice : slice source i (i + 2) = .ok [c, d] := by
        have hslice := @At.slice source cs [c, d] i h
        rw [byteLength_cons, byteLength_cons, utf8Size_narrow hc, utf8Size_narrow hd] at hslice
        exact hslice
      rw [hslice]
      exact hpair

theorem symbolEnd_eq {c : Char} (h : At source i (c :: cs)) :
    symbolEnd source i = .ok (i + byteLength (Lexeme.symbol c cs).text) := by
  unfold symbolEnd
  rw [isPairAt_eq h, textFrom_eq h]
  fun_cases Lexeme.symbol c cs with
  | case1 => rfl
  | case2 d cs hpair =>
    obtain ⟨_, _, heq, hc, hd⟩ := narrow_of_isPairSymbol hpair
    obtain ⟨rfl, htail⟩ := List.cons.inj heq
    obtain ⟨rfl, -⟩ := List.cons.inj htail
    rw [if_pos (by simpa using hpair), byteLength_cons, byteLength_cons, utf8Size_narrow hc,
      utf8Size_narrow hd]
    rfl
  | case3 d cs hpair =>
    rw [if_neg (by simpa using hpair)]
    rfl

/-! ## one lexeme -/

variable {c : Cursor}

/-- A lexeme with the cursor after it. -/
def lexedAt (c : Cursor) (l : Lexeme) : TokenKind × List Char × Cursor :=
  (l.kind, l.text, c.advance l.text l.rest l.lines)

theorem finish_eq (hfew : FewLines source) (h : c.Within source) {a : Char} (hrest : c.rest = a :: cs)
    {l : Lexeme} (hl : Lexeme.scan a cs = .ok l) :
    finish source c.position l.kind (c.position.offset + byteLength l.text) l.lines
      = .ok (.ok (lexedAt c l)) := by
  have htext := hrest.trans (Lexeme.scan_append hl).symm
  unfold finish
  rw [At.slice (htext ▸ h.at), place_advance hfew h htext (Lexeme.scan_lines hl)]
  rfl

theorem identifier_eq (hfew : FewLines source) (h : c.Within source) {a : Char}
    (hrest : c.rest = a :: cs) (hscan : Lexeme.scan a cs = Lexeme.identifier (a :: cs)) :
    identifier source c.position = .ok ((Lexeme.scan a cs).map (lexedAt c)) := by
  have hat := h.at
  rw [hrest] at hat
  unfold identifier
  dsimp only
  rw [(hat.run blunt_isNameChar).1, Nat.add_sub_cancel_left]
  by_cases hlong : maxName < byteLength ((a :: cs).takeWhile isNameChar)
  · rw [if_pos hlong, hscan.trans (if_pos hlong)]
    rfl
  · have hl := hscan.trans (if_neg hlong)
    rw [if_neg hlong, hl]
    exact finish_eq hfew h hrest hl

theorem number_eq (hfew : FewLines source) (h : c.Within source) {a : Char}
    (hrest : c.rest = a :: cs) (hscan : Lexeme.scan a cs = Lexeme.number (a :: cs)) :
    number source c.position = .ok ((Lexeme.scan a cs).map (lexedAt c)) := by
  have hat := h.at
  rw [hrest] at hat
  unfold number
  rw [numberEnd_eq hat]
  dsimp only
  rw [Nat.add_sub_cancel_left]
  by_cases hlong : maxNumber < byteLength (Lexeme.numberText (a :: cs)).2.1
  · rw [if_pos hlong, hscan.trans (if_pos hlong)]
    rfl
  · have hl := hscan.trans (if_neg hlong)
    rw [if_neg hlong, hl]
    exact finish_eq hfew h hrest hl

theorem character_error {cs : List Char} {cause : Cause} (h : Lexeme.character cs = .error cause) :
    cause = .unterminatedChar := by
  unfold Lexeme.character at h
  split at h
  · cases h
  · split at h
    · exact (Except.error.inj h).symm
    · cases h
  · exact (Except.error.inj h).symm

theorem character_eq (hfew : FewLines source) (h : c.Within source)
    (hrest : c.rest = '\'' :: cs) (hscan : Lexeme.scan '\'' cs = Lexeme.character cs) :
    character source c.position = .ok ((Lexeme.scan '\'' cs).map (lexedAt c)) := by
  unfold character
  rw [characterEnd_eq (hrest ▸ h.at)]
  cases hl : Lexeme.character cs with
  | error cause =>
    obtain rfl := character_error hl
    rw [hscan, hl]
    rfl
  | ok l =>
    have hfinish := finish_eq hfew h hrest (hscan.trans hl)
    obtain ⟨inner, -, hform, -⟩ := Lexeme.character_ok hl
    rw [hscan, hl]
    rw [hform] at hfinish ⊢
    exact hfinish

theorem string_eq (hfew : FewLines source) (h : c.Within source)
    (hrest : c.rest = '"' :: cs) (hscan : Lexeme.scan '"' cs = Lexeme.string cs) :
    string source c.position = .ok ((Lexeme.scan '"' cs).map (lexedAt c)) := by
  have hat := h.at
  rw [hrest] at hat
  unfold string
  rw [@stringEnd_eq source cs _ c.position.offset 1 0 (byteLength source + 1) (hat.step (by decide)) rfl
    (by omega)]
  cases hl : Lexeme.stringTail 1 cs with
  | error cause =>
    rw [hscan, Lexeme.string, hl]
    rfl
  | ok r =>
    have hok : Lexeme.string cs = .ok ⟨.stringConst, '"' :: r.1, r.2.1, r.2.2⟩ := by
      rw [Lexeme.string, hl]
      rfl
    have hfinish := finish_eq hfew h hrest (hscan.trans hok)
    rw [hscan, hok]
    rw [byteLength_cons, ← Nat.add_assoc] at hfinish
    show finish source c.position .stringConst _ (0 + r.2.2) = _
    rw [Nat.zero_add]
    exact hfinish

theorem symbol_eq (hfew : FewLines source) (h : c.Within source) {a : Char}
    (hrest : c.rest = a :: cs) (hscan : Lexeme.scan a cs = .ok (Lexeme.symbol a cs)) :
    symbol source c.position = .ok ((Lexeme.scan a cs).map (lexedAt c)) := by
  have hfinish := finish_eq hfew h hrest hscan
  obtain ⟨text, rest, hform⟩ := Lexeme.symbol_eq a cs
  unfold symbol
  rw [hscan, symbolEnd_eq (hrest ▸ h.at)]
  rw [hform] at hfinish ⊢
  exact hfinish

/-- A number begins with a digit, or with a sign or a point before a digit. -/
theorem numberStart_eq {a : Char} (h : At source i (a :: cs)) :
    (isDigit (byteAt source i) || ((isSign (byteAt source i) || byteAt source i == '.') &&
      isDigit (byteAt source (i + 1))))
      = (isDigit a || ((isSign a || a == '.') && cs.head?.any isDigit)) := by
  by_cases ha : a.toNat < 128
  · have hbyte : byteAt source i = a := by rw [h.byteAt, firstByte_narrow ha]
    rw [hbyte, (h.step ha).test blunt_isDigit (by decide)]
  · have hwide := Nat.not_lt.1 ha
    have hbyte : 128 ≤ (byteAt source i).toNat := by
      rw [h.byteAt]
      exact firstByte_wide hwide cs
    have hno : ∀ {b : Char}, 128 ≤ b.toNat → (isDigit b || isSign b || b == '.') = false := by
      intro b hb
      rw [blunt_isDigit b hb, blunt_isSign b hb]
      simpa using wide_ne hb (by decide)
    have h₁ := hno hwide
    have h₂ := hno hbyte
    simp only [Bool.or_eq_false_iff] at h₁ h₂
    simp [h₁, h₂]

/-- The lexeme at the cursor is read without failure. -/
theorem lexeme_eq (hfew : FewLines source) (h : c.Within source) {a : Char} (hrest : c.rest = a :: cs) :
    lexeme source c.position = .ok ((Lexeme.scan a cs).map (lexedAt c)) := by
  have hat := h.at
  rw [hrest] at hat
  unfold lexeme
  simp only [numberStart_eq hat, hat.test blunt_isNameStart (by decide), List.head?_cons,
    Option.any_some, hat.byte_iff (a := '\'') (by decide), hat.byte_iff (a := '"') (by decide),
    Option.some.injEq]
  -- both readers ask the same questions in the same order
  by_cases hname : isNameStart a = true
  · rw [if_pos hname]
    exact identifier_eq hfew h hrest (if_pos hname)
  rw [if_neg hname]
  by_cases hnumber : (isDigit a || ((isSign a || a == '.') && cs.head?.any isDigit)) = true
  · rw [if_pos hnumber]
    exact number_eq hfew h hrest ((if_neg hname).trans (if_pos hnumber))
  rw [if_neg hnumber]
  by_cases hquote : a = '\''
  · subst hquote
    rw [if_pos rfl]
    exact character_eq hfew h hrest rfl
  rw [if_neg hquote]
  by_cases hstring : a = '"'
  · subst hstring
    rw [if_pos rfl]
    exact string_eq hfew h hrest rfl
  · rw [if_neg hstring]
    exact symbol_eq hfew h hrest
      ((if_neg hname).trans ((if_neg hnumber).trans ((if_neg hquote).trans (if_neg hstring))))

end Bytewise

end HeaderLex
