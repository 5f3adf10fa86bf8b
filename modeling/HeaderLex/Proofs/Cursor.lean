import HeaderLex.Lexer.Basic
import HeaderLex.Proofs.Gap

/-!
# The cursor inside its source

What one look ahead does to the cursor, said once for all later modules.

* `Cursor.Within`       the texts on both sides of the cursor make up the source, and the position
                        counts what is before it;
* `Lexeme.scan_class`   what a scan does, and from it what holds of every lexeme;
* `Lexer.skipGap_row`   the cursor after a gap;
* `Lexer.lexAt_ok`      the token at the cursor, and the cursor after it.
-/

namespace HeaderLex

/-! ## the invariant of a cursor -/

/-- The cursor stands inside a source.  Line feeds in character literals are not counted, so the
line is only bounded. -/
structure Cursor.Within (c : Cursor) (source : List Char) : Prop where
  text : c.before.reverse ++ c.rest = source
  offset : c.position.offset = Text.byteLength c.before
  line : c.position.line ≤ Text.newlines c.before + 1

theorem Text.newlines_reverse (cs : List Char) : newlines cs.reverse = newlines cs :=
  List.count_reverse

theorem Cursor.Within.ofText (text : List Char) : (Cursor.ofText text).Within text :=
  ⟨rfl, rfl, Nat.le_refl 1⟩

/-- Stepping over a text keeps the cursor inside the source. -/
theorem Cursor.Within.advance {c : Cursor} {source text rest : List Char} {lines : Nat}
    (h : c.Within source) (htext : c.rest = text ++ rest) (hlines : lines ≤ Text.newlines text) :
    (c.advance text rest lines).Within source where
  text := by
    show (text.reverse ++ c.before).reverse ++ rest = source
    rw [List.reverse_append, List.reverse_reverse, List.append_assoc, ← htext, h.text]
  offset := by
    show c.position.offset + Text.byteLength text = Text.byteLength (text.reverse ++ c.before)
    rw [Text.byteLength_append, Text.byteLength_reverse, h.offset, Nat.add_comm]
  line := by
    show c.position.line + lines ≤ Text.newlines (text.reverse ++ c.before) + 1
    rw [Text.newlines_append, Text.newlines_reverse]
    have := h.line
    omega

/-! ## lexemes -/

namespace Lexeme

/-- The rest of a string literal: its text with the closing quote, the text after it and the lines
that end in it. -/
inductive StringTail : Nat → List Char → List Char → List Char → Nat → Prop
  | close {used : Nat} {rest : List Char} :
      used ≤ maxText → StringTail used ('"' :: rest) ['"'] rest 0
  | escape {used : Nat} {c : Char} {cs text rest : List Char} {lines : Nat} :
      used ≤ maxText → StringTail (used + 1 + c.utf8Size) cs text rest lines →
      StringTail used ('\\' :: c :: cs) ('\\' :: c :: text) rest
        (lines + if c = '\n' then 1 else 0)
  | plain {used : Nat} {c : Char} {cs text rest : List Char} {lines : Nat} :
      used ≤ maxText → c ≠ '\n' → c ≠ '"' → c ≠ '\\' →
      StringTail (used + c.utf8Size) cs text rest lines →
      StringTail used (c :: cs) (c :: text) rest lines

theorem stringTail_sound {used : Nat} {cs text rest : List Char} {lines : Nat}
    (h : stringTail used cs = .ok (text, rest, lines)) : StringTail used cs text rest lines := by
  fun_induction stringTail used cs generalizing text lines with
  | case1 => cases h
  | case2 => cases h
  | case3 => cases h
  | case4 used hle rest' =>
    cases h
    exact .close (Nat.le_of_not_lt hle)
  | case5 => cases h
  | case6 => cases h
  | case7 used hle c cs ih =>
    cases hr : stringTail (used + 1 + c.utf8Size) cs with
    | error e => simp [hr, bind, Except.bind] at h
    | ok r =>
      obtain ⟨t, r', l⟩ := r
      simp only [hr, bind, Except.bind, pure, Except.pure, Except.ok.injEq, Prod.mk.injEq] at h
      obtain ⟨rfl, rfl, rfl⟩ := h
      exact .escape (Nat.le_of_not_lt hle) (ih hr)
  | case8 used hle c cs hn hq hb hb' ih =>
    have hc : c ≠ '\\' := by
      rintro rfl
      cases cs with
      | nil => exact hb rfl rfl
      | cons d ds => exact hb' d ds rfl rfl
    cases hr : stringTail (used + c.utf8Size) cs with
    | error e => simp [hr, bind, Except.bind] at h
    | ok r =>
      obtain ⟨t, r', l⟩ := r
      simp only [hr, bind, Except.bind, pure, Except.pure, Except.ok.injEq, Prod.mk.injEq] at h
      obtain ⟨rfl, rfl, rfl⟩ := h
      exact .plain (Nat.le_of_not_lt hle) hn hq hc (ih hr)

theorem StringTail.complete {used : Nat} {cs text rest : List Char} {lines : Nat}
    (h : StringTail used cs text rest lines) : stringTail used cs = .ok (text, rest, lines) := by
  induction h with
  | close hle =>
    rw [stringTail, if_neg (Nat.not_lt_of_le hle)]
  | escape hle _ ih =>
    rw [stringTail, if_neg (Nat.not_lt_of_le hle)]
    simp only [ih, bind, Except.bind, pure, Except.pure]
  | plain hle hn hq hb _ ih =>
    rw [stringTail, if_neg (Nat.not_lt_of_le hle)]
    · simp only [ih, bind, Except.bind, pure, Except.pure]
    · exact hn
    · exact hq
    · exact fun h _ => hb h
    · exact fun _ _ h _ => hb h

theorem StringTail.lines_eq {used : Nat} {cs text rest : List Char} {lines : Nat}
    (h : StringTail used cs text rest lines) : lines = Text.newlines text := by
  induction h with
  | close => rfl
  | @escape used c cs text rest lines _ _ ih =>
    rw [ih]
    show List.count '\n' text + _ = List.count '\n' ('\\' :: c :: text)
    rw [List.count_cons_of_ne (by decide), List.count_cons]
    simp only [beq_iff_eq]
  | @plain used c cs text rest lines _ hn _ _ _ ih =>
    rw [ih]
    show List.count '\n' text = List.count '\n' (c :: text)
    rw [List.count_cons_of_ne hn]

/-- What a scan does, by the class of the first character. -/
theorem scan_class {c : Char} {cs : List Char} {r : Except Cause Lexeme} (h : scan c cs = r) :
    (isNameStart c = true ∧ identifier (c :: cs) = r) ∨
      ((Number.isDigit c || ((isSign c || c == '.') && cs.head?.any Number.isDigit)) = true ∧
        number (c :: cs) = r) ∨
      (c = '\'' ∧ character cs = r) ∨ (c = '"' ∧ string cs = r) ∨ .ok (symbol c cs) = r := by
  unfold scan at h
  split at h
  · next hc => exact .inl ⟨hc, h⟩
  split at h
  · next hc => exact .inr (.inl ⟨hc, h⟩)
  split at h
  · next hc => exact .inr (.inr (.inl ⟨hc, h⟩))
  split at h
  · next hc => exact .inr (.inr (.inr (.inl ⟨hc, h⟩)))
  · exact .inr (.inr (.inr (.inr h)))

theorem identifier_ok {cs : List Char} {l : Lexeme} (h : identifier cs = .ok l) :
    Text.byteLength (cs.takeWhile isNameChar) ≤ maxName ∧
      l = ⟨.identifier, cs.takeWhile isNameChar, cs.dropWhile isNameChar, 0⟩ := by
  unfold identifier at h
  dsimp only at h
  split at h
  · simp at h
  · next hle => exact ⟨Nat.le_of_not_lt hle, (Except.ok.inj h).symm⟩

theorem number_ok {cs : List Char} {l : Lexeme} (h : number cs = .ok l) :
    Text.byteLength (numberText cs).2.1 ≤ maxNumber ∧
      l = ⟨(numberText cs).1, (numberText cs).2.1, (numberText cs).2.2, 0⟩ := by
  unfold number at h
  dsimp only at h
  split at h
  · simp at h
  · next hle => exact ⟨Nat.le_of_not_lt hle, (Except.ok.inj h).symm⟩

/-- A character literal, with its quotes, holds one character or one escape. -/
theorem character_ok {cs : List Char} {l : Lexeme} (h : character cs = .ok l) :
    ∃ inner, cs = inner ++ '\'' :: l.rest ∧ l = ⟨.charConst, '\'' :: (inner ++ ['\'']), l.rest, 0⟩ ∧
      ((∃ c, inner = ['\\', c]) ∨ ∃ c, inner = [c] ∧ c ≠ '\\' ∧ c ≠ '\n' ∧ c ≠ '\'') := by
  unfold character at h
  split at h
  · next c rest =>
    obtain rfl := Except.ok.inj h
    exact ⟨['\\', c], rfl, rfl, .inl ⟨c, rfl⟩⟩
  · next c rest _ =>
    split at h
    · simp at h
    · next hc =>
      obtain rfl := Except.ok.inj h
      simp only [not_or] at hc
      exact ⟨[c], rfl, rfl, .inr ⟨c, rfl, hc.1, hc.2.1, hc.2.2⟩⟩
  · simp at h

theorem string_ok {cs : List Char} {l : Lexeme} (h : string cs = .ok l) :
    ∃ text, stringTail 1 cs = .ok (text, l.rest, l.lines) ∧
      l = ⟨.stringConst, '"' :: text, l.rest, l.lines⟩ := by
  unfold string at h
  cases hr : stringTail 1 cs with
  | error e => simp [hr, bind, Except.bind] at h
  | ok r =>
    obtain ⟨text, rest, lines⟩ := r
    simp only [hr, bind, Except.bind, pure, Except.pure, Except.ok.injEq] at h
    subst h
    exact ⟨text, rfl, rfl⟩

theorem identifier_error {cs : List Char} {cause : Cause} (h : identifier cs = .error cause) :
    maxName < Text.byteLength (cs.takeWhile isNameChar) ∧ cause = .identifierTooLong maxName := by
  unfold identifier at h
  dsimp only at h
  split at h
  · next hlong => exact ⟨hlong, (Except.error.inj h).symm⟩
  · cases h

theorem number_error {cs : List Char} {cause : Cause} (h : number cs = .error cause) :
    maxNumber < Text.byteLength (numberText cs).2.1 ∧ cause = .numberTooLong maxNumber := by
  unfold number at h
  dsimp only at h
  split at h
  · next hlong => exact ⟨hlong, (Except.error.inj h).symm⟩
  · cases h

/-- A character literal fails in one way only. -/
theorem character_error {cs : List Char} {cause : Cause} (h : character cs = .error cause) :
    cause = .unterminatedChar := by
  unfold character at h
  split at h
  · cases h
  · split at h
    · exact (Except.error.inj h).symm
    · cases h
  · exact (Except.error.inj h).symm

theorem symbol_eq (c : Char) (cs : List Char) : ∃ text rest, symbol c cs = ⟨.symbol, text, rest, 0⟩ := by
  unfold symbol
  split
  · exact ⟨_, _, rfl⟩
  · split <;> exact ⟨_, _, rfl⟩

theorem numberText_kind (cs : List Char) : (numberText cs).1 = .hexConst ∨
    (numberText cs).1 = .decimalConst ∨ (numberText cs).1 = .floatConst := by
  unfold numberText
  dsimp only
  split
  · exact .inl rfl
  · split
    · split
      · exact .inr (.inr rfl)
      · split
        · exact .inr (.inl rfl)
        · exact .inr (.inr rfl)
    · split
      · exact .inr (.inl rfl)
      · exact .inr (.inr rfl)

/-- A lexeme is no end mark. -/
theorem scan_kind {c : Char} {cs : List Char} {l : Lexeme} (h : scan c cs = .ok l) :
    l.kind.isEnd = false := by
  rcases scan_class h with ⟨-, h⟩ | ⟨-, h⟩ | ⟨-, h⟩ | ⟨-, h⟩ | h
  · rw [(identifier_ok h).2]
    rfl
  · rw [(number_ok h).2]
    rcases numberText_kind (c :: cs) with h | h | h <;>
    · rw [h]
      rfl
  · obtain ⟨inner, -, hl, -⟩ := character_ok h
    rw [hl]
    rfl
  · obtain ⟨text, -, hl⟩ := string_ok h
    rw [hl]
    rfl
  · obtain ⟨text, rest, hs⟩ := symbol_eq c cs
    rw [← Except.ok.inj h, hs]
    rfl

/-- A lexeme counts no more lines than it has line feeds. -/
theorem scan_lines {c : Char} {cs : List Char} {l : Lexeme} (h : scan c cs = .ok l) :
    l.lines ≤ Text.newlines l.text := by
  rcases scan_class h with ⟨-, h⟩ | ⟨-, h⟩ | ⟨-, h⟩ | ⟨-, h⟩ | h
  · rw [(identifier_ok h).2]
    exact Nat.zero_le _
  · rw [(number_ok h).2]
    exact Nat.zero_le _
  · obtain ⟨inner, -, hl, -⟩ := character_ok h
    rw [hl]
    exact Nat.zero_le _
  · obtain ⟨text, ht, hl⟩ := string_ok h
    rw [hl]
    show l.lines ≤ List.count '\n' ('"' :: text)
    rw [List.count_cons_of_ne (by decide)]
    exact Nat.le_of_eq (stringTail_sound ht).lines_eq
  · obtain ⟨text, rest, hs⟩ := symbol_eq c cs
    rw [← Except.ok.inj h, hs]
    exact Nat.zero_le _

end Lexeme

/-! ## one look ahead -/

namespace Lexer

theorem skipGap_row (lx : Lexer) : ∃ row, IsRow row lx.skipGap.2.cursor.rest ∧
    lx.cursor.rest = rowText row ++ lx.skipGap.2.cursor.rest ∧
    lx.skipGap.2.cursor = lx.cursor.advance (rowText row) lx.skipGap.2.cursor.rest (rowLines row) :=
  Margin.skip_row ⟨lx.cursor, lx.comments, lx.metrics.comments⟩

/-- What a look at the text under the cursor finds: the end of the source, or a lexeme. -/
theorem lexAt_ok {lx : Lexer} {unget : Position} {t : Token} (h : (lx.lexAt unget).1 = .ok t) :
    (lx.cursor.rest = [] ∧ t = ⟨.endOfFile, "", lx.cursor.position, unget⟩ ∧
      (lx.lexAt unget).2 = lx) ∨
    ∃ c cs l, lx.cursor.rest = c :: cs ∧ Lexeme.scan c cs = .ok l ∧
      t = ⟨l.kind, String.ofList l.text, lx.cursor.position, unget⟩ ∧
      (lx.lexAt unget).2 = { lx with cursor := lx.cursor.advance l.text l.rest l.lines } := by
  unfold lexAt at h ⊢
  split at h
  · next hr =>
    simp only [hr]
    exact .inl ⟨trivial, (Except.ok.inj h).symm, trivial⟩
  · next c cs hr =>
    split at h
    · simp at h
    · next l hl =>
      simp only [hr]
      exact .inr ⟨c, cs, l, rfl, hl, (Except.ok.inj h).symm, rfl⟩

theorem within_skipGap {lx : Lexer} {source : List Char} (h : lx.cursor.Within source) :
    lx.skipGap.2.cursor.Within source := by
  obtain ⟨row, hrow, htext, hcur⟩ := lx.skipGap_row
  rw [hcur]
  exact h.advance htext (Nat.le_of_eq (rowLines_eq hrow))

theorem within_scan {cur : Cursor} {source : List Char} (h : cur.Within source) {c : Char}
    {cs : List Char} {l : Lexeme} (hr : cur.rest = c :: cs) (hl : Lexeme.scan c cs = .ok l) :
    (cur.advance l.text l.rest l.lines).Within source :=
  h.advance (hr.trans (Lexeme.scan_append hl).symm) (Lexeme.scan_lines hl)

end Lexer

end HeaderLex
