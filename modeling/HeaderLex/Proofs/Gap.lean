import HeaderLex.Lexer.Gap

/-!
# What a gap is made of

`GapPiece.next?` takes one piece after the other from a text.  Here the rows of pieces that it can
take are described without it.

* `GapPiece.Stands`   a piece is complete where it stands: a line comment runs up to the end of its
                      line, a block comment up to its first closing mark;
* `next?_text`        a complete piece is what is taken where it stands;
* `IsRow`             a row of complete pieces in front of a text;
* `IsGap`             a text that is such a row;
* `Margin.skip_row`   skipping steps over a row, counts its lines, and stops where no piece begins.
-/

namespace HeaderLex

/-! ## pieces -/

namespace GapPiece

/-- The piece is complete in front of the text `after`. -/
def Stands : GapPiece → List Char → Prop
  | newline, _ => True
  | blank c, _ => isLineBlank c = true
  | continuation _, _ => True
  | lineComment body, after => '\n' ∉ body ∧ ∀ c ∈ after.head?, c = '\n'
  | blockComment body, _ => ¬ ['*', '/'] <:+: body

instance : (p : GapPiece) → (after : List Char) → Decidable (p.Stands after)
  | newline, _ => inferInstanceAs (Decidable True)
  | blank c, _ => inferInstanceAs (Decidable (isLineBlank c = true))
  | continuation _, _ => inferInstanceAs (Decidable True)
  | lineComment body, after =>
    have : Decidable (∀ c ∈ after.head?, c = '\n') := Option.decidableForallMem _
    inferInstanceAs (Decidable ('\n' ∉ body ∧ ∀ c ∈ after.head?, c = '\n'))
  | blockComment body, _ =>
    have : Decidable (['*', '/'] <:+: body) := List.instDecidableIsInfixOfDecidableEq _ _
    inferInstanceAs (Decidable (¬ ['*', '/'] <:+: body))

/-- The body of a block comment ends at the first closing mark. -/
theorem closeComment?_body {cs body rest : List Char} (h : closeComment? cs = some (body, rest)) :
    ¬ ['*', '/'] <:+: body := by
  fun_induction closeComment? cs generalizing body with
  | case1 => simp at h
  | case2 cs =>
    simp only [Option.some.injEq, Prod.mk.injEq] at h
    rw [← h.1]
    simp
  | case3 c cs hne ih =>
    obtain ⟨⟨b, r⟩, hp, he⟩ := Option.map_eq_some_iff.1 h
    obtain ⟨rfl, rfl⟩ := Prod.mk.inj he
    intro hin
    rcases List.infix_cons_iff.1 hin with hpre | hin
    · -- the mark would stand at the head, where the scan would have stopped
      obtain ⟨hc, hb⟩ := List.cons_prefix_cons.1 hpre
      obtain ⟨t, ht⟩ := hb
      have hcs := closeComment?_eq hp
      have hb : b = '/' :: t := ht.symm
      exact hne (t ++ '*' :: '/' :: r) hc.symm (by rw [hcs, hb, List.cons_append])
    · exact ih hp hin

/-- A piece that is taken from a text is complete in front of what is left. -/
theorem next?_stands {cs rest : List Char} {p : GapPiece} (h : next? cs = .ok (some (p, rest))) :
    p.Stands rest := by
  fun_cases next? cs with
  | case5 cs =>
    simp only [next?, Except.ok.injEq, Option.some.injEq, Prod.mk.injEq] at h
    obtain ⟨rfl, rfl⟩ := h
    constructor
    · intro hn
      have := List.all_eq_true.1 List.all_takeWhile _ hn
      simp at this
    · intro c hc
      have := List.head?_dropWhile_not (· != '\n') cs
      rw [Option.mem_def.1 hc] at this
      simpa using this
  | case6 cs body rest' hb =>
    simp only [next?, hb, Except.ok.injEq, Option.some.injEq, Prod.mk.injEq] at h
    obtain ⟨rfl, rfl⟩ := h
    exact closeComment?_body hb
  | _ => simp_all [next?] <;> (obtain ⟨rfl, rfl⟩ := h; simp_all [Stands])

theorem Stands.congr_head {p : GapPiece} {a b : List Char} (hab : a.head? = b.head?)
    (h : p.Stands a) : p.Stands b := by
  cases p with
  | lineComment body =>
    refine ⟨h.1, ?_⟩
    rw [← hab]
    exact h.2
  | _ => exact h

theorem closeComment?_text {body : List Char} (rest : List Char) (h : ¬ ['*', '/'] <:+: body) :
    closeComment? (body ++ '*' :: '/' :: rest) = some (body, rest) := by
  induction body with
  | nil => rfl
  | cons c cs ih =>
    have hcs : ¬ ['*', '/'] <:+: cs := fun hin => h (List.infix_cons hin)
    rw [List.cons_append, closeComment?, ih hcs]
    · rfl
    · intro x hc hx
      cases cs with
      | nil => cases hx
      | cons d ds =>
        obtain ⟨rfl, -⟩ := List.cons.inj hx
        subst hc
        exact h ⟨[], ds, rfl⟩

/-- A complete piece is taken where it stands. -/
theorem next?_text {p : GapPiece} {rest : List Char} (h : p.Stands rest) :
    next? (p.text ++ rest) = .ok (some (p, rest)) := by
  cases p with
  | newline => rfl
  | blank c =>
    have hc : isLineBlank c = true := h
    have hne : ∀ d, isLineBlank d = false → c ≠ d := by
      intro d hd he
      rw [he, hd] at hc
      cases hc
    show next? (c :: rest) = _
    rw [next?, if_pos hc]
    · exact hne _ (by decide)
    · exact fun _ he _ => hne '\\' (by decide) he
    · exact fun _ he _ => hne '\\' (by decide) he
    · exact fun _ he _ => hne '/' (by decide) he
    · exact fun _ he _ => hne '/' (by decide) he
    · exact fun _ he _ => hne '*' (by decide) he
  | continuation cr => cases cr <;> rfl
  | lineComment body =>
    have hbody : ∀ c ∈ body, (c != '\n') = true := by
      intro c hc
      rw [bne_iff_ne]
      rintro rfl
      exact h.1 hc
    have hrest : rest.takeWhile (· != '\n') = [] ∧ rest.dropWhile (· != '\n') = rest := by
      cases rest with
      | nil => exact ⟨rfl, rfl⟩
      | cons c cs =>
        obtain rfl : c = '\n' := h.2 c rfl
        exact ⟨rfl, rfl⟩
    show next? ('/' :: '/' :: (body ++ rest)) = _
    rw [next?, List.takeWhile_append_of_pos hbody, List.dropWhile_append_of_pos hbody, hrest.1,
      hrest.2, List.append_nil]
  | blockComment body =>
    have hclose := closeComment?_text rest h
    show next? ('/' :: '*' :: ((body ++ ['*', '/']) ++ rest)) = _
    rw [List.append_assoc, next?]
    simp only [List.cons_append, List.nil_append, hclose]

/-- Where no piece begins: the first character is neither blank nor a line feed, and opens neither a
continuation nor a comment. -/
theorem next?_none_iff {a : Char} {cs : List Char} : next? (a :: cs) = .ok none ↔
    isLineBlank a = false ∧ a ≠ '\n' ∧ (∀ r, a = '\\' → cs ≠ '\n' :: r) ∧
      (∀ r, a = '\\' → cs ≠ '\r' :: '\n' :: r) ∧ (∀ r, a = '/' → cs ≠ '/' :: r) ∧
      (∀ r, a = '/' → cs ≠ '*' :: r) ∧ ∀ r, a = '*' → cs ≠ '/' :: r := by
  constructor
  · intro h
    generalize hcs : a :: cs = ds at h
    fun_cases next? ds with
    | case10 c cs' h1 h2 h3 h4 h5 h6 hb =>
      obtain ⟨rfl, rfl⟩ := List.cons.inj hcs
      exact ⟨by simpa using hb, h1, h2, h3, h4, h5, h6⟩
    | _ => simp_all [next?]
  · rintro ⟨hb, h1, h2, h3, h4, h5, h6⟩
    rw [next?, hb]
    · rfl
    · exact h1
    · exact h2
    · exact h3
    · exact h4
    · exact h5
    · exact h6

/-- The lines that a complete piece counts are its line feeds. -/
theorem lines_eq {p : GapPiece} {after : List Char} (h : p.Stands after) :
    p.lines = Text.newlines p.text := by
  cases p with
  | newline => rfl
  | blank c =>
    have hc : c ≠ '\n' := by
      rintro rfl
      have hn : isLineBlank '\n' = true := h
      exact absurd hn (by decide)
    show 0 = List.count '\n' [c]
    rw [List.count_singleton, if_neg (by simpa using hc)]
  | continuation cr => cases cr <;> rfl
  | lineComment body =>
    show 0 = List.count '\n' ('/' :: '/' :: body)
    rw [List.count_cons_of_ne (by decide), List.count_cons_of_ne (by decide),
      List.count_eq_zero_of_not_mem h.1]
  | blockComment body =>
    show List.count '\n' body = List.count '\n' ('/' :: '*' :: (body ++ ['*', '/']))
    rw [List.count_cons_of_ne (by decide), List.count_cons_of_ne (by decide), List.count_append]
    rfl

end GapPiece

/-! ## rows of pieces -/

/-- The text of a row. -/
def rowText : List GapPiece → List Char
  | [] => []
  | p :: ps => p.text ++ rowText ps

/-- Lines that end inside a row. -/
def rowLines : List GapPiece → Nat
  | [] => 0
  | p :: ps => p.lines + rowLines ps

/-- A row of complete pieces in front of the text `after`. -/
def IsRow : List GapPiece → List Char → Prop
  | [], _ => True
  | p :: ps, after => p.Stands (rowText ps ++ after) ∧ IsRow ps after

instance : (row : List GapPiece) → (after : List Char) → Decidable (IsRow row after)
  | [], _ => inferInstanceAs (Decidable True)
  | p :: ps, after =>
    have : Decidable (IsRow ps after) := instDecidableIsRow ps after
    inferInstanceAs (Decidable (p.Stands (rowText ps ++ after) ∧ IsRow ps after))

/-- The text is made of complete pieces in front of the text `after`. -/
def IsGap (text after : List Char) : Prop := ∃ row, text = rowText row ∧ IsRow row after

theorem rowLines_eq {row : List GapPiece} {after : List Char} (h : IsRow row after) :
    rowLines row = Text.newlines (rowText row) := by
  induction row with
  | nil => rfl
  | cons p ps ih =>
    show p.lines + rowLines ps = Text.newlines (p.text ++ rowText ps)
    rw [Text.newlines_append, ih h.2, GapPiece.lines_eq h.1]

/-- Only the first character after a row matters to it. -/
theorem IsRow.congr_head {row : List GapPiece} {a b : List Char} (hab : a.head? = b.head?)
    (h : IsRow row a) : IsRow row b := by
  induction row with
  | nil => trivial
  | cons p ps ih =>
    refine ⟨h.1.congr_head ?_, ih h.2⟩
    rw [List.head?_append, List.head?_append, hab]

theorem rowText_append (row row' : List GapPiece) :
    rowText (row ++ row') = rowText row ++ rowText row' := by
  induction row with
  | nil => rfl
  | cons p ps ih =>
    show p.text ++ rowText (ps ++ row') = (p.text ++ rowText ps) ++ rowText row'
    rw [ih, List.append_assoc]

theorem IsRow.append {row row' : List GapPiece} {cs : List Char}
    (h : IsRow row (rowText row' ++ cs)) (h' : IsRow row' cs) : IsRow (row ++ row') cs := by
  induction row with
  | nil => exact h'
  | cons p ps ih =>
    refine ⟨?_, ih h.2⟩
    show p.Stands (rowText (ps ++ row') ++ cs)
    rw [rowText_append, List.append_assoc]
    exact h.1

/-! ## skipping a gap -/

theorem Cursor.advance_advance (c : Cursor) (s t r₁ r₂ : List Char) (m n : Nat) :
    (c.advance s r₁ m).advance t r₂ n = c.advance (s ++ t) r₂ (m + n) := by
  unfold advance
  simp only [List.reverse_append, List.append_assoc, Text.byteLength_append, Nat.add_assoc]

namespace Margin

theorem skip_none {m : Margin} (h : GapPiece.next? m.cursor.rest = .ok none) :
    m.skip = (none, if m.cursor.rest.isEmpty then m
      else { m with comments := m.comments.reachToken }) := by
  rw [skip]
  split <;> simp_all

theorem skip_piece {m : Margin} {p : GapPiece} {rest : List Char}
    (h : GapPiece.next? m.cursor.rest = .ok (some (p, rest))) : m.skip = (m.pass p rest).skip := by
  rw [skip]
  split <;> simp_all

theorem skip_row (m : Margin) : ∃ row, IsRow row m.skip.2.cursor.rest ∧
    m.cursor.rest = rowText row ++ m.skip.2.cursor.rest ∧
    m.skip.2.cursor = m.cursor.advance (rowText row) m.skip.2.cursor.rest (rowLines row) := by
  fun_induction skip m with
  | case1 m e h => exact ⟨[], trivial, rfl, rfl⟩
  | case2 m h =>
    have hc : (if m.cursor.rest.isEmpty then m
        else { m with comments := m.comments.reachToken }).cursor = m.cursor := by
      split <;> rfl
    dsimp only
    rw [hc]
    exact ⟨[], trivial, rfl, rfl⟩
  | case3 m p rest h ih =>
    obtain ⟨row, hrow, htext, hcur⟩ := ih
    refine ⟨p :: row, ⟨?_, hrow⟩, ?_, ?_⟩
    · rw [← htext]
      exact GapPiece.next?_stands h
    · rw [GapPiece.next?_eq h]
      show _ = (p.text ++ rowText row) ++ _
      rw [List.append_assoc, ← htext]
      rfl
    · rw [hcur]
      exact Cursor.advance_advance ..

/-- Where skipping stops, no piece begins, or the piece there is broken. -/
theorem next?_skip (m : Margin) : GapPiece.next? m.skip.2.cursor.rest = match m.skip.1 with
    | some e => .error e
    | none => .ok none := by
  fun_induction skip m with
  | case1 m e h => exact h
  | case2 m h =>
    show GapPiece.next? (Cursor.rest _) = _
    split <;> exact h
  | case3 m p rest h ih => exact ih

end Margin

end HeaderLex
