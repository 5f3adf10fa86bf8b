import HeaderLex.Proofs.Cursor

/-!
# Scanning does not look past a line

A line feed stops every scanner.  So what is found in a text that ends with one is found there too
when more text follows.

* `Text.KeepsLines`         a change of the text at its line ends only;
* `Lexeme.numberText_keeps`, `Lexeme.symbol_keeps`   what such a change does to numbers and symbols;
* `Lexeme.scan_line`       a lexeme in front of a line feed;
* `GapPiece.next?_line`    a gap piece, or none, in front of a line feed.
-/

namespace HeaderLex

/-! ## runs of characters -/

theorem takeWhile_line {p : Char → Bool} (hp : p '\n' = false) (ds tail : List Char) :
    (ds ++ '\n' :: tail).takeWhile p = ds.takeWhile p := by
  induction ds with
  | nil => rw [List.nil_append, List.takeWhile_cons_of_neg (by rw [hp]; decide), List.takeWhile_nil]
  | cons d ds ih =>
    rw [List.cons_append, List.takeWhile_cons, List.takeWhile_cons, ih]

theorem dropWhile_line {p : Char → Bool} (hp : p '\n' = false) (ds tail : List Char) :
    (ds ++ '\n' :: tail).dropWhile p = ds.dropWhile p ++ '\n' :: tail := by
  induction ds with
  | nil => rw [List.nil_append, List.dropWhile_cons_of_neg (by rw [hp]; decide), List.dropWhile_nil,
      List.nil_append]
  | cons d ds ih =>
    rw [List.cons_append, List.dropWhile_cons, List.dropWhile_cons, ih]
    split <;> rfl

/-- A text that ends with a line feed, cut behind another character, still ends with it. -/
theorem eq_append_line {s rest ds : List Char} {q : Char} (hq : q ≠ '\n')
    (h : s ++ q :: rest = ds ++ ['\n']) : ∃ r, rest = r ++ ['\n'] ∧ ds = s ++ q :: r := by
  rcases List.eq_nil_or_concat rest with rfl | ⟨r, b, rfl⟩
  · have hlast := congrArg List.getLast? h
    simp at hlast
    exact absurd hlast hq
  · rw [List.concat_eq_append, ← List.cons_append, ← List.append_assoc] at h
    obtain ⟨h1, h2⟩ := List.append_inj' h rfl
    obtain rfl : b = '\n' := (List.cons.inj h2).1
    exact ⟨r, List.concat_eq_append, h1.symm⟩

/-- The change leaves the characters of a line as they are; where a line or the text ends, it may put
line feeds and carriage returns. -/
structure Text.KeepsLines (change : List Char → List Char) : Prop where
  cons : ∀ {c : Char} {cs : List Char}, c ≠ '\n' → change (c :: cs) = c :: change cs
  stop : ∀ {cs : List Char}, (∀ a ∈ cs.head?, a = '\n') → ∀ a ∈ (change cs).head?, a = '\n' ∨ a = '\r'

/-- Putting a line feed and more text behind. -/
theorem Text.keepsLines_append (tail : List Char) : KeepsLines (· ++ '\n' :: tail) where
  cons _ := rfl
  stop {cs} h a ha := by
    cases cs with
    | nil => exact .inl (Option.some.inj ha).symm
    | cons c cs =>
      obtain rfl : c = a := Option.some.inj ha
      exact .inl (h c rfl)

/-- A run that stops at line feeds and at carriage returns. -/
def StopsAtLineEnd (p : Char → Bool) : Prop := p '\n' = false ∧ p '\r' = false

section

variable {change : List Char → List Char} {p : Char → Bool}

theorem takeWhile_stop {cs : List Char} (hp : StopsAtLineEnd p)
    (h : ∀ a ∈ cs.head?, a = '\n' ∨ a = '\r') :
    cs.takeWhile p = [] ∧ cs.dropWhile p = cs ∧ cs.head?.any p = false := by
  cases cs with
  | nil => exact ⟨rfl, rfl, rfl⟩
  | cons c cs =>
    have hc : p c = false := by
      rcases h c rfl with rfl | rfl
      · exact hp.1
      · exact hp.2
    have hneg : ¬ p c = true := by
      rw [hc]
      decide
    exact ⟨List.takeWhile_cons_of_neg hneg, List.dropWhile_cons_of_neg hneg, hc⟩

/-- A text is at the end of a line, or begins with a character that the change leaves. -/
theorem Text.KeepsLines.cases (h : KeepsLines change) (cs : List Char) :
    ((∀ a ∈ cs.head?, a = '\n') ∧ ∀ a ∈ (change cs).head?, a = '\n' ∨ a = '\r') ∨
      ∃ c ds, cs = c :: ds ∧ c ≠ '\n' ∧ change cs = c :: change ds := by
  cases cs with
  | nil =>
    have hnil : ∀ a ∈ ([] : List Char).head?, a = '\n' := fun a ha => by cases ha
    exact .inl ⟨hnil, h.stop hnil⟩
  | cons c cs =>
    by_cases hc : c = '\n'
    · have hhead : ∀ a ∈ (c :: cs).head?, a = '\n' := fun a ha => (Option.some.inj ha).symm.trans hc
      exact .inl ⟨hhead, h.stop hhead⟩
    · exact .inr ⟨c, cs, rfl, hc, h.cons hc⟩

theorem takeWhile_keeps (h : Text.KeepsLines change) (hp : StopsAtLineEnd p) (cs : List Char) :
    (change cs).takeWhile p = cs.takeWhile p ∧ (change cs).dropWhile p = change (cs.dropWhile p) := by
  induction cs with
  | nil =>
    obtain ⟨htake, hdrop, -⟩ := takeWhile_stop hp (@Text.KeepsLines.stop _ h [] fun a ha => by cases ha)
    exact ⟨htake, hdrop⟩
  | cons c cs ih =>
    obtain ⟨hhead, hstop⟩ | ⟨d, ds, heq, hd, hchange⟩ := h.cases (c :: cs)
    · obtain ⟨htake, hdrop, -⟩ := takeWhile_stop hp hstop
      obtain ⟨htake', hdrop', -⟩ := takeWhile_stop hp (fun a ha => .inl (hhead a ha))
      rw [htake, htake', hdrop, hdrop']
      exact ⟨rfl, rfl⟩
    · obtain ⟨rfl, rfl⟩ := List.cons.inj heq
      rw [hchange, List.takeWhile_cons, List.takeWhile_cons, List.dropWhile_cons, List.dropWhile_cons,
        ih.1, ih.2]
      refine ⟨rfl, ?_⟩
      split
      · rfl
      · exact hchange.symm

theorem head?_any_keeps (h : Text.KeepsLines change) (hp : StopsAtLineEnd p) (cs : List Char) :
    (change cs).head?.any p = cs.head?.any p := by
  obtain ⟨hhead, hstop⟩ | ⟨d, ds, rfl, hd, hchange⟩ := h.cases cs
  · rw [(takeWhile_stop hp hstop).2.2, (takeWhile_stop hp fun a ha => .inl (hhead a ha)).2.2]
  · rw [hchange]
    rfl

end

namespace Lexeme

open Number (isDigit)
open Token (isIntegerSuffix isFloatSuffix)

/-- The lexeme with more text after it. -/
def extend (l : Lexeme) (tail : List Char) : Lexeme := { l with rest := l.rest ++ tail }

/-! ## numbers -/

section

variable {change : List Char → List Char}

theorem splitSign_stop {cs : List Char} (h : ∀ a ∈ cs.head?, a = '\n' ∨ a = '\r') :
    splitSign cs = ([], cs) := by
  cases cs with
  | nil => rfl
  | cons c cs =>
    obtain rfl | rfl := h c rfl
    · rfl
    · rfl

theorem splitSign_keeps (h : Text.KeepsLines change) (cs : List Char) :
    splitSign (change cs) = ((splitSign cs).1, change (splitSign cs).2) := by
  obtain ⟨hhead, hstop⟩ | ⟨d, ds, rfl, hd, hchange⟩ := h.cases cs
  · rw [splitSign_stop hstop, splitSign_stop fun a ha => .inl (hhead a ha)]
  · rw [hchange]
    by_cases hsign : isSign d = true
    · simp only [splitSign, hsign, if_true]
    · simp only [splitSign, hsign, Bool.false_eq_true, if_false]
      rw [hchange]

theorem splitFraction_of_ne {d : Char} (hd : d ≠ '.') (cs : List Char) :
    splitFraction (d :: cs) = ([], d :: cs) := by
  unfold splitFraction
  split
  · next heq => exact absurd (List.cons.inj heq).1 hd
  · rfl

theorem splitFraction_stop {cs : List Char} (h : ∀ a ∈ cs.head?, a = '\n' ∨ a = '\r') :
    splitFraction cs = ([], cs) := by
  cases cs with
  | nil => rfl
  | cons c cs =>
    obtain rfl | rfl := h c rfl
    · rfl
    · rfl

theorem splitFraction_keeps (h : Text.KeepsLines change) (cs : List Char) :
    splitFraction (change cs) = ((splitFraction cs).1, change (splitFraction cs).2) := by
  obtain ⟨hhead, hstop⟩ | ⟨d, ds, rfl, hd, hchange⟩ := h.cases cs
  · rw [splitFraction_stop hstop, splitFraction_stop fun a ha => .inl (hhead a ha)]
  · rw [hchange]
    by_cases hpoint : d = '.'
    · subst hpoint
      obtain ⟨htake, hdrop⟩ := takeWhile_keeps h (p := isDigit) ⟨rfl, rfl⟩ ds
      show ('.' :: (change ds).takeWhile isDigit, (change ds).dropWhile isDigit) = _
      rw [htake, hdrop]
      rfl
    · rw [splitFraction_of_ne hpoint, splitFraction_of_ne hpoint, hchange]

theorem splitExponent_stop {cs : List Char} (h : ∀ a ∈ cs.head?, a = '\n' ∨ a = '\r') :
    splitExponent cs = ([], cs) := by
  cases cs with
  | nil => rfl
  | cons c cs =>
    obtain rfl | rfl := h c rfl
    · rfl
    · rfl

theorem splitExponent_keeps (h : Text.KeepsLines change) (cs : List Char) :
    splitExponent (change cs) = ((splitExponent cs).1, change (splitExponent cs).2) := by
  obtain ⟨hhead, hstop⟩ | ⟨d, ds, rfl, hd, hchange⟩ := h.cases cs
  · rw [splitExponent_stop hstop, splitExponent_stop fun a ha => .inl (hhead a ha)]
  · obtain ⟨htake, hdrop⟩ := takeWhile_keeps h (p := isDigit) ⟨rfl, rfl⟩ (splitSign ds).2
    have hany := head?_any_keeps h (p := isDigit) ⟨rfl, rfl⟩ (splitSign ds).2
    rw [hchange]
    simp only [splitExponent, splitSign_keeps h, hany, htake, hdrop]
    by_cases hmark : ((d == 'e' || d == 'E') && (splitSign ds).2.head?.any isDigit) = true
    · rw [if_pos hmark, if_pos hmark]
    · rw [if_neg hmark, if_neg hmark, hchange]

theorem splitHexMark_keeps (h : Text.KeepsLines change) (cs : List Char) :
    splitHexMark (change cs) = (splitHexMark cs).map fun p => (p.1, change p.2) := by
  have hstops : ∀ {ds : List Char}, (∀ a ∈ ds.head?, a = '\n' ∨ a = '\r') → splitHexMark ds = none := by
    intro ds hds
    cases ds with
    | nil => rfl
    | cons d ds => obtain rfl | rfl := hds d rfl <;> rfl
  have hsecond : ∀ {d : Char} {ds : List Char}, (∀ a ∈ ds.head?, a = '\n' ∨ a = '\r') →
      splitHexMark (d :: ds) = none := by
    intro d ds hds
    unfold splitHexMark
    split
    · next heq => exact absurd (hds 'x' (by rw [(List.cons.inj heq).2]; rfl)) (by decide)
    · next heq => exact absurd (hds 'X' (by rw [(List.cons.inj heq).2]; rfl)) (by decide)
    · rfl
  obtain ⟨hhead, hstop⟩ | ⟨d, ds, rfl, hd, hchange⟩ := h.cases cs
  · rw [hstops hstop, hstops fun a ha => .inl (hhead a ha)]
    rfl
  · obtain ⟨hhead, hstop⟩ | ⟨e, es, rfl, he, hchange'⟩ := h.cases ds
    · rw [hchange, hsecond hstop, hsecond fun a ha => .inl (hhead a ha)]
      rfl
    · rw [hchange, hchange']
      unfold splitHexMark
      split <;> simp_all

/-- The number whose digits were read, with its suffix; `isWhole` says that they have no fraction and
no exponent. -/
def numberEnd (digits : List Char) (isWhole : Bool) (cs : List Char) :
    TokenKind × List Char × List Char :=
  match cs with
  | c :: rest =>
    if isFloatSuffix c then (.floatConst, digits ++ [c], rest)
    else if isWhole then
      (.decimalConst, digits ++ cs.takeWhile isIntegerSuffix, cs.dropWhile isIntegerSuffix)
    else (.floatConst, digits, cs)
  | [] => (if isWhole then .decimalConst else .floatConst, digits, [])

theorem numberEnd_stop {cs digits : List Char} {isWhole : Bool}
    (h : ∀ a ∈ cs.head?, a = '\n' ∨ a = '\r') :
    numberEnd digits isWhole cs = (if isWhole then .decimalConst else .floatConst, digits, cs) := by
  obtain ⟨htake, hdrop, -⟩ := takeWhile_stop (p := isIntegerSuffix) ⟨rfl, rfl⟩ h
  cases cs with
  | nil => rfl
  | cons c cs =>
    have hsuffix : isFloatSuffix c = false := by
      obtain rfl | rfl := h c rfl
      · rfl
      · rfl
    unfold numberEnd
    simp only [htake, hdrop, hsuffix, Bool.false_eq_true, if_false, List.append_nil]
    cases isWhole <;> rfl

theorem numberEnd_keeps (h : Text.KeepsLines change) (digits : List Char) (isWhole : Bool)
    (cs : List Char) : numberEnd digits isWhole (change cs)
      = ((numberEnd digits isWhole cs).1, (numberEnd digits isWhole cs).2.1,
        change (numberEnd digits isWhole cs).2.2) := by
  obtain ⟨hhead, hstop⟩ | ⟨c, rest, rfl, hc, hchange⟩ := h.cases cs
  · rw [numberEnd_stop hstop, numberEnd_stop fun a ha => .inl (hhead a ha)]
  · obtain ⟨htake, hdrop⟩ := takeWhile_keeps h (p := isIntegerSuffix) ⟨rfl, rfl⟩ (c :: rest)
    rw [hchange] at htake hdrop ⊢
    unfold numberEnd
    dsimp only
    by_cases hsuffix : isFloatSuffix c = true
    · rw [if_pos hsuffix, if_pos hsuffix]
    · rw [if_neg hsuffix, if_neg hsuffix, htake, hdrop]
      cases isWhole with
      | true => rfl
      | false =>
        rw [if_neg (by decide), if_neg (by decide), hchange]

theorem numberText_keeps (h : Text.KeepsLines change) (cs : List Char) : numberText (change cs)
    = ((numberText cs).1, (numberText cs).2.1, change (numberText cs).2.2) := by
  unfold numberText
  rw [splitSign_keeps h]
  generalize splitSign cs = s
  obtain ⟨sign, body⟩ := s
  dsimp only
  rw [splitHexMark_keeps h]
  cases hm : splitHexMark body with
  | some m =>
    obtain ⟨mark, ds⟩ := m
    obtain ⟨htake, hdrop⟩ := takeWhile_keeps h (p := isHexDigit) ⟨rfl, rfl⟩ ds
    obtain ⟨htake', hdrop'⟩ := takeWhile_keeps h (p := isIntegerSuffix) ⟨rfl, rfl⟩ (ds.dropWhile isHexDigit)
    simp only [Option.map_some, htake, hdrop, htake', hdrop']
  | none =>
    obtain ⟨htake, hdrop⟩ := takeWhile_keeps h (p := isDigit) ⟨rfl, rfl⟩ body
    simp only [Option.map_none, htake, hdrop, splitFraction_keeps h, splitExponent_keeps h]
    exact numberEnd_keeps h _ _ _

end

theorem numberText_line (ds tail : List Char) : numberText (ds ++ '\n' :: tail)
    = ((numberText ds).1, (numberText ds).2.1, (numberText ds).2.2 ++ '\n' :: tail) :=
  numberText_keeps (Text.keepsLines_append tail) ds

/-! ## quoted texts and symbols -/

theorem StringTail.extend {used : Nat} {cs text rest : List Char} {lines : Nat}
    (h : StringTail used cs text rest lines) (tail : List Char) :
    StringTail used (cs ++ tail) text (rest ++ tail) lines := by
  induction h with
  | close hle => exact .close hle
  | escape hle _ ih => exact .escape hle ih
  | plain hle hn hq hb _ ih => exact .plain hle hn hq hb ih

theorem StringTail.last {used : Nat} {cs text rest : List Char} {lines : Nat}
    (h : StringTail used cs text rest lines) : ∃ body, text = body ++ ['"'] := by
  induction h with
  | close => exact ⟨[], rfl⟩
  | @escape _ c _ _ _ _ _ _ ih =>
    obtain ⟨body, rfl⟩ := ih
    exact ⟨'\\' :: c :: body, rfl⟩
  | @plain _ c _ _ _ _ _ _ _ _ _ ih =>
    obtain ⟨body, rfl⟩ := ih
    exact ⟨c :: body, rfl⟩

theorem string_extend {cs : List Char} {l : Lexeme} (h : string cs = .ok l) (tail : List Char) :
    string (cs ++ tail) = .ok (l.extend tail) := by
  obtain ⟨text, ht, hl⟩ := string_ok h
  have hext := ((stringTail_sound ht).extend tail).complete
  unfold string
  rw [hext, hl]
  rfl

theorem character_extend {cs : List Char} {l : Lexeme} (h : character cs = .ok l)
    (tail : List Char) : character (cs ++ tail) = .ok (l.extend tail) := by
  obtain ⟨inner, hcs, hl, hin⟩ := character_ok h
  rw [hcs, List.append_assoc, List.cons_append]
  rcases hin with ⟨c, rfl⟩ | ⟨c, rfl, hb, hn, hq⟩
  · rw [hl]
    rfl
  · rw [List.singleton_append, character]
    · rw [if_neg (by simp [hb, hn, hq]), hl]
      rfl
    · intro _ hc _
      exact hb hc

/-- A text that differs from all symbols of two characters in some respect is none of them. -/
theorem not_isPairSymbol (P : List Char → Prop) (hall : ∀ s ∈ Keyword.pairSymbols, ¬ P s.toList)
    {cs : List Char} (hcs : P cs) : Keyword.isPairSymbol (String.ofList cs) = false := by
  rw [Bool.eq_false_iff]
  intro h
  have hmem : String.ofList cs ∈ Keyword.pairSymbols := List.contains_iff_mem.1 h
  have hnot := hall _ hmem
  rw [String.toList_ofList] at hnot
  exact hnot hcs

theorem symbol_stop {c : Char} {ds : List Char} (h : ∀ a ∈ ds.head?, a = '\n' ∨ a = '\r') :
    symbol c ds = ⟨.symbol, [c], ds, 0⟩ := by
  cases ds with
  | nil => rfl
  | cons d ds =>
    have hends : ∀ s ∈ Keyword.pairSymbols,
        ¬ (s.toList.getLast? = some '\n' ∨ s.toList.getLast? = some '\r') := by decide
    have hpair : Keyword.isPairSymbol (String.ofList [c, d]) = false := by
      apply not_isPairSymbol (fun cs => cs.getLast? = some '\n' ∨ cs.getLast? = some '\r') hends
      obtain rfl | rfl := h d rfl
      · exact .inl rfl
      · exact .inr rfl
    show (if Keyword.isPairSymbol (String.ofList [c, d]) then _ else _) = _
    rw [hpair]
    rfl

theorem symbol_keeps {change : List Char → List Char} (h : Text.KeepsLines change) (c : Char)
    (ds : List Char) : symbol c (change ds) = { symbol c ds with rest := change (symbol c ds).rest } := by
  obtain ⟨hhead, hstop⟩ | ⟨d, es, rfl, hd, hchange⟩ := h.cases ds
  · rw [symbol_stop hstop, symbol_stop fun a ha => .inl (hhead a ha)]
  · rw [hchange]
    unfold symbol
    dsimp only
    split
    · rfl
    · rw [← hchange]

theorem symbol_line (c : Char) (ds tail : List Char) :
    symbol c (ds ++ '\n' :: tail) = (symbol c ds).extend ('\n' :: tail) :=
  symbol_keeps (Text.keepsLines_append tail) c ds

/-! ## lexemes -/

/-- A scanner finds the lexeme in front of a line feed, whatever follows. -/
def InLine (scanner : List Char → Except Cause Lexeme) (ds : List Char) (l : Lexeme) : Prop :=
  ∃ r, l.rest = r ++ ['\n'] ∧
    ∀ tail, scanner (ds ++ '\n' :: tail) = .ok { l with rest := r ++ '\n' :: tail }

theorem identifier_line {ds : List Char} {l : Lexeme} (h : identifier (ds ++ ['\n']) = .ok l) :
    InLine identifier ds l := by
  obtain ⟨hle, hl⟩ := identifier_ok h
  rw [takeWhile_line (by decide)] at hle
  rw [takeWhile_line (by decide), dropWhile_line (by decide)] at hl
  subst hl
  refine ⟨ds.dropWhile isNameChar, rfl, ?_⟩
  intro tail
  unfold identifier
  rw [takeWhile_line (by decide), dropWhile_line (by decide)]
  exact if_neg (Nat.not_lt_of_le hle)

theorem number_line {ds : List Char} {l : Lexeme} (h : number (ds ++ ['\n']) = .ok l) :
    InLine number ds l := by
  obtain ⟨hle, hl⟩ := number_ok h
  rw [numberText_line] at hle hl
  subst hl
  refine ⟨(numberText ds).2.2, rfl, ?_⟩
  intro tail
  unfold number
  rw [numberText_line]
  exact if_neg (Nat.not_lt_of_le hle)

/-- A closed literal does not see what follows it. -/
theorem inLine_quoted {scanner : List Char → Except Cause Lexeme} {ds body : List Char} {q : Char}
    {l : Lexeme} (hq : q ≠ '\n') (hcs : body ++ q :: l.rest = ds ++ ['\n'])
    (hext : ∀ tail, scanner (ds ++ ['\n'] ++ tail) = .ok (l.extend tail)) :
    InLine scanner ds l := by
  obtain ⟨r, hr, -⟩ := eq_append_line hq hcs
  refine ⟨r, hr, ?_⟩
  intro tail
  have h := hext tail
  rw [extend, hr, List.append_assoc, List.append_assoc] at h
  exact h

theorem character_line {ds : List Char} {l : Lexeme} (h : character (ds ++ ['\n']) = .ok l) :
    InLine character ds l := by
  obtain ⟨inner, hcs, -, -⟩ := character_ok h
  exact inLine_quoted (by decide) hcs.symm (character_extend h)

theorem string_line {ds : List Char} {l : Lexeme} (h : string (ds ++ ['\n']) = .ok l) :
    InLine string ds l := by
  obtain ⟨text, ht, -⟩ := string_ok h
  obtain ⟨body, rfl⟩ := (stringTail_sound ht).last
  have hcs := stringTail_append ht
  rw [List.append_assoc] at hcs
  exact inLine_quoted (by decide) hcs (string_extend h)

theorem scan_line {a : Char} {ds : List Char} {l : Lexeme} (h : scan a (ds ++ ['\n']) = .ok l) :
    InLine (scan a) ds l := by
  have hhead := fun tail => head?_any_keeps (Text.keepsLines_append tail) (p := isDigit) ⟨rfl, rfl⟩ ds
  unfold scan at h
  rw [hhead] at h
  show ∃ r, _ ∧ ∀ tail, scan a (ds ++ '\n' :: tail) = _
  unfold scan
  simp only [hhead]
  split at h
  · next h1 =>
    simp only [if_pos h1]
    exact @identifier_line (a :: ds) l h
  · next h1 =>
    simp only [if_neg h1]
    split at h
    · next h2 =>
      simp only [if_pos h2]
      exact @number_line (a :: ds) l h
    · next h2 =>
      simp only [if_neg h2]
      split at h
      · next h3 =>
        simp only [if_pos h3]
        exact character_line h
      · next h3 =>
        simp only [if_neg h3]
        split at h
        · next h4 =>
          simp only [if_pos h4]
          exact string_line h
        · next h4 =>
          simp only [if_neg h4]
          obtain rfl := Except.ok.inj h
          refine ⟨(symbol a ds).rest, ?_, ?_⟩
          · rw [symbol_line]
            rfl
          · intro tail
            rw [symbol_line, symbol_line]
            rfl

end Lexeme

/-! ## gap pieces -/

namespace GapPiece

/-- A piece in front of a line feed is found whatever follows; it may end with the line feed. -/
theorem next?_line {ds rest : List Char} {p : GapPiece}
    (h : next? (ds ++ ['\n']) = .ok (some (p, rest))) :
    (rest = [] ∧ ∀ tail, next? (ds ++ '\n' :: tail) = .ok (some (p, tail))) ∨
      ∃ r, rest = r ++ ['\n'] ∧
        ∀ tail, next? (ds ++ '\n' :: tail) = .ok (some (p, r ++ '\n' :: tail)) := by
  have htext := next?_eq h
  have hstands := next?_stands h
  rcases List.eq_nil_or_concat rest with rfl | ⟨r, b, rfl⟩
  · refine .inl ⟨rfl, ?_⟩
    intro tail
    rw [List.append_nil] at htext
    have hlast : p.text.getLast? = some '\n' := by
      rw [← htext]
      exact List.getLast?_concat
    have hp : p.Stands tail := by
      cases p with
      | newline => trivial
      | continuation cr => trivial
      | blank c =>
        obtain rfl : c = '\n' := Option.some.inj hlast
        exact absurd (show isLineBlank '\n' = true from hstands) (by decide)
      | lineComment body =>
        have hmem : '\n' ∈ '/' :: '/' :: body := List.mem_of_getLast? hlast
        simp [hstands.1] at hmem
      | blockComment body => exact hstands
    have := next?_text hp
    rwa [← htext, List.append_assoc] at this
  · rw [List.concat_eq_append] at htext hstands ⊢
    rw [← List.append_assoc] at htext
    obtain ⟨rfl, hb⟩ := List.append_inj' htext rfl
    obtain rfl : '\n' = b := (List.cons.inj hb).1
    refine .inr ⟨r, rfl, ?_⟩
    intro tail
    rw [List.append_assoc]
    refine next?_text (hstands.congr_head ?_)
    rw [List.head?_append, List.head?_append]
    rfl

theorem next?_line_none {a : Char} {ds : List Char} (h : next? (a :: (ds ++ ['\n'])) = .ok none)
    (tail : List Char) : next? (a :: (ds ++ '\n' :: tail)) = .ok none := by
  obtain ⟨hb, h1, h2, h3, h4, h5, h6⟩ := next?_none_iff.1 h
  refine next?_none_iff.2 ⟨hb, h1, ?_, ?_, ?_, ?_, ?_⟩
  -- the opening marks have two or three characters, and a line feed only at their end
  all_goals
    intro r ha hr
    rcases ds with _ | ⟨b, _ | ⟨c, ds⟩⟩ <;> simp_all
end GapPiece

end HeaderLex
