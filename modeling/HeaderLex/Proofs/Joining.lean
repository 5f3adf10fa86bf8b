import HeaderLex.Proofs.Locality
import HeaderLex.Proofs.Yield

/-!
# Reading two texts as one

A line feed keeps two texts apart: what stands before it is read as if the text ended there, and
what stands behind it as if the text began there.  The exception is a backslash at the end of the first
text, which takes the line feed with it.

* `Lexeme.scan_before_line`      a lexeme at the beginning of the first text;
* `GapPiece.next?_before_line`   a place without a gap piece in the first text;
* `Yields.join`                  what both texts yield, by induction on the first;
* `tokenize_join`                so the tokens of the two sources stand one behind the other.
-/

namespace HeaderLex

/-! ## lexemes -/

namespace Lexeme

open Number (isDigit)

theorem identifier_before_line {ds : List Char} {l : Lexeme} (h : identifier ds = .ok l)
    (tail : List Char) : identifier (ds ++ '\n' :: tail) = .ok (l.extend ('\n' :: tail)) := by
  obtain ⟨hle, rfl⟩ := identifier_ok h
  unfold identifier
  rw [takeWhile_line (by decide), dropWhile_line (by decide)]
  exact if_neg (Nat.not_lt_of_le hle)

theorem number_before_line {ds : List Char} {l : Lexeme} (h : number ds = .ok l)
    (tail : List Char) : number (ds ++ '\n' :: tail) = .ok (l.extend ('\n' :: tail)) := by
  obtain ⟨hle, rfl⟩ := number_ok h
  unfold number
  rw [numberText_line]
  exact if_neg (Nat.not_lt_of_le hle)

/-- No scanner looks past a line feed: it finds the lexeme that it finds at the end of the text. -/
theorem scan_before_line {a : Char} {ds : List Char} {l : Lexeme} (h : scan a ds = .ok l)
    (tail : List Char) : scan a (ds ++ '\n' :: tail) = .ok (l.extend ('\n' :: tail)) := by
  have hhead := head?_any_keeps (Text.keepsLines_append tail) (p := isDigit) ⟨rfl, rfl⟩ ds
  unfold scan at h ⊢
  rw [hhead]
  split at h
  · next hname => exact (if_pos hname).trans (identifier_before_line h tail)
  · next hname =>
    rw [if_neg hname]
    split at h
    · next hnumber => exact (if_pos hnumber).trans (number_before_line h tail)
    · next hnumber =>
      rw [if_neg hnumber]
      split at h
      · next hquote => exact (if_pos hquote).trans (character_extend h _)
      · next hquote =>
        rw [if_neg hquote]
        split at h
        · next hquotes => exact (if_pos hquotes).trans (string_extend h _)
        · next hquotes =>
          obtain rfl := Except.ok.inj h
          rw [if_neg hquotes, symbol_line]

end Lexeme

/-! ## gaps -/

/-- The text does not end with a backslash that would take a line feed with it. -/
structure Text.Closed (cs : List Char) : Prop where
  backslash : ¬ ['\\'] <:+ cs
  carriageReturn : ¬ ['\\', '\r'] <:+ cs

theorem Text.Closed.of_append {ds cs : List Char} (h : Closed (ds ++ cs)) : Closed cs where
  backslash hs := h.backslash (hs.trans (List.suffix_append ds cs))
  carriageReturn hs := h.carriageReturn (hs.trans (List.suffix_append ds cs))

theorem GapPiece.next?_before_line {a : Char} {cs : List Char} (h : next? (a :: cs) = .ok none)
    (hclosed : Text.Closed (a :: cs)) (tail : List Char) :
    next? (a :: (cs ++ '\n' :: tail)) = .ok none := by
  obtain ⟨hblank, hline, hcontinued, hcontinued', hcomment, hblock, hclose⟩ := next?_none_iff.1 h
  refine next?_none_iff.2 ⟨hblank, hline, ?_, ?_, ?_, ?_, ?_⟩
  · intro r ha hr
    subst ha
    cases cs with
    | nil => exact hclosed.backslash (List.suffix_refl _)
    | cons c cs =>
      obtain rfl : c = '\n' := (List.cons.inj hr).1
      exact hcontinued cs rfl rfl
  · intro r ha hr
    subst ha
    rcases cs with _ | ⟨c, _ | ⟨d, cs⟩⟩
    · exact absurd (List.cons.inj hr).1 (by decide)
    · obtain rfl : c = '\r' := (List.cons.inj hr).1
      exact hclosed.carriageReturn (List.suffix_refl _)
    · obtain ⟨rfl, htail⟩ := List.cons.inj hr
      obtain rfl : d = '\n' := (List.cons.inj htail).1
      exact hcontinued' cs rfl rfl
  -- the other marks have no line feed
  all_goals
    intro r ha hr
    rcases cs with _ | ⟨c, cs⟩
    · exact absurd (List.cons.inj hr).1 (by decide)
    · obtain ⟨rfl, -⟩ := List.cons.inj hr
      simp_all

theorem GapPiece.Stands.before_line {p : GapPiece} {cs : List Char} (h : p.Stands cs)
    (tail : List Char) : p.Stands (cs ++ '\n' :: tail) := by
  cases p with
  | lineComment body =>
    refine ⟨h.1, ?_⟩
    intro c hc
    cases cs with
    | nil => exact (Option.some.inj hc).symm
    | cons d cs => exact h.2 c hc
  | _ => exact h

theorem IsRow.before_line {row : List GapPiece} {cs : List Char} (h : IsRow row cs)
    (tail : List Char) : IsRow row (cs ++ '\n' :: tail) := by
  induction row with
  | nil => trivial
  | cons p ps ih =>
    refine ⟨?_, ih h.2⟩
    rw [← List.append_assoc]
    exact h.1.before_line tail

namespace IsGap

variable {gap gap' cs : List Char}

theorem before_line (h : IsGap gap cs) (tail : List Char) : IsGap gap (cs ++ '\n' :: tail) := by
  obtain ⟨row, rfl, hrow⟩ := h
  exact ⟨row, rfl, hrow.before_line tail⟩

theorem append (h : IsGap gap (gap' ++ cs)) (h' : IsGap gap' cs) : IsGap (gap ++ gap') cs := by
  obtain ⟨row, rfl, hrow⟩ := h
  obtain ⟨row', rfl, hrow'⟩ := h'
  exact ⟨row ++ row', (rowText_append row row').symm, hrow.append hrow'⟩

theorem newline (cs : List Char) : IsGap ['\n'] cs := ⟨[.newline], rfl, trivial, trivial⟩

end IsGap

/-! ## texts -/

/-- A gap in front of a text makes the first gap of the text longer. -/
theorem Yields.gap {n : Nat} {gap cs : List Char} {ts : List Located} (hgap : IsGap gap cs)
    (h : Yields (n + Text.byteLength gap) cs ts) : Yields n (gap ++ cs) ts := by
  cases h with
  | done hdone =>
    rw [← List.append_nil cs] at hgap
    exact .done (hgap.append hdone)
  | @token _ gap' cs a l ts hgap' hnone hscan htail =>
    have hplace : n + Text.byteLength gap + Text.byteLength gap'
        = n + Text.byteLength (gap ++ gap') := by
      rw [Text.byteLength_append, Nat.add_assoc]
    rw [hplace] at htail ⊢
    rw [← List.append_assoc]
    exact .token (hgap.append hgap') hnone hscan htail

/-- Behind a line feed another text is read as if nothing stood before it. -/
theorem Yields.join {n : Nat} {cs tail : List Char} {ts us : List Located} (h : Yields n cs ts)
    (hclosed : Text.Closed cs) (htail : Yields (n + Text.byteLength cs + 1) tail us) :
    Yields n (cs ++ '\n' :: tail) (ts ++ us) := by
  induction h with
  | @done n gap hgap =>
    have hbefore : IsGap gap (['\n'] ++ tail) := hgap.before_line tail
    have hline : IsGap (gap ++ ['\n']) tail := hbefore.append (.newline tail)
    have hplace : n + Text.byteLength gap + 1 = n + Text.byteLength (gap ++ ['\n']) := by
      rw [Text.byteLength_append, Nat.add_assoc]
      rfl
    rw [hplace] at htail
    rw [List.append_cons]
    exact .gap hline htail
  | @token n gap cs a l ts hgap hnone hscan _ ih =>
    have htext := Lexeme.scan_append hscan
    have hrest : Text.Closed l.rest := by
      rw [← htext, ← List.append_assoc] at hclosed
      exact hclosed.of_append
    have hplace : n + Text.byteLength (gap ++ a :: cs) + 1
        = n + Text.byteLength gap + Text.byteLength l.text + Text.byteLength l.rest + 1 := by
      rw [← htext]
      simp only [Text.byteLength_append, Nat.add_assoc]
    rw [hplace] at htail
    rw [List.append_assoc, List.cons_append, List.cons_append]
    exact @Yields.token n gap _ a (l.extend ('\n' :: tail)) _ (hgap.before_line tail)
      (GapPiece.next?_before_line hnone hclosed.of_append tail)
      (Lexeme.scan_before_line hscan tail) (ih hrest htail)

/-- Reading is local: of two sources with a line feed between them the tokens of the first come first,
and then those of the second, moved by the bytes before it.  The first source does not end with a
backslash or with a backslash before a carriage return. -/
theorem tokenize_join {s t : String} {preferences : LexicalPreferences} {ts us : List Token}
    (hs : (tokenize s preferences).result = .ok ts) (ht : (tokenize t preferences).result = .ok us)
    (hbackslash : ¬ ['\\'] <:+ s.toList) (hreturn : ¬ ['\\', '\r'] <:+ s.toList) :
    ∃ joined, (tokenize (s ++ "\n" ++ t) preferences).result = .ok joined ∧
      joined.map Token.located = ts.map Token.located ++
        us.map fun u => u.located.shift (Text.byteLength s.toList + 1) := by
  have hfirst : Yields 0 s.toList (ts.map Token.located) := tokenize_iff_yields.1 ⟨ts, hs, rfl⟩
  have hsecond : Yields 0 t.toList (us.map Token.located) := tokenize_iff_yields.1 ⟨us, ht, rfl⟩
  have hmoved := hsecond.shift (Text.byteLength s.toList + 1)
  rw [List.map_map, ← Nat.add_assoc] at hmoved
  apply tokenize_iff_yields.2
  rw [String.toList_append, String.toList_append, List.append_assoc]
  exact hfirst.join ⟨hbackslash, hreturn⟩ hmoved

/-- A dangling exponent and a comment at the end of the first source, a sign and a comment at the
beginning of the second. -/
theorem tokenize_join_sample :
    let s := "é = 1e // c\\ "
    let t := "+5 /* d */ x"
    let preferences : LexicalPreferences := ⟨true, false, false, true⟩
    let ts : List Token := [⟨.symbol, "é", ⟨0, 1⟩, ⟨0, 1⟩⟩, ⟨.symbol, "=", ⟨3, 1⟩, ⟨2, 1⟩⟩,
      ⟨.decimalConst, "1", ⟨5, 1⟩, ⟨4, 1⟩⟩, ⟨.identifier, "e", ⟨6, 1⟩, ⟨6, 1⟩⟩]
    let us : List Token := [⟨.decimalConst, "+5", ⟨0, 1⟩, ⟨0, 1⟩⟩, ⟨.identifier, "x", ⟨11, 1⟩, ⟨2, 1⟩⟩]
    (tokenize s preferences).result = .ok ts ∧ (tokenize t preferences).result = .ok us ∧
      ∃ joined, (tokenize (s ++ "\n" ++ t) preferences).result = .ok joined ∧
        joined.map Token.located = [⟨.symbol, "é", 0⟩, ⟨.symbol, "=", 3⟩, ⟨.decimalConst, "1", 5⟩,
          ⟨.identifier, "e", 6⟩, ⟨.decimalConst, "+5", 15⟩, ⟨.identifier, "x", 26⟩] := by
  intro s t preferences ts us
  have hs : (tokenize s preferences).result = .ok ts := ok_of_toOption (by decide +kernel)
  have ht : (tokenize t preferences).result = .ok us := ok_of_toOption (by decide +kernel)
  obtain ⟨joined, hjoined, hlocated⟩ := tokenize_join hs ht (by decide +kernel) (by decide +kernel)
  refine ⟨hs, ht, joined, hjoined, ?_⟩
  rw [hlocated]
  decide +kernel

end HeaderLex
