import HeaderLex.Lexer.Operations
import HeaderLex.Proofs.Cursor

/-!
# String literals and raw text of any length

The scanners of string literals and of raw text test their limit at every step.  All the tests together
come to one: the text up to the end is measured, and if it is not too long, the scan does what it would
do without a limit.

* `limited`              a result, unless a text is too long;
* `Lexeme.literalBody`   a string literal up to its closing quote, and the text behind;
* `stringTail_eq`        the scanner of string literals;
* `scan_literal`         literals with their closing quote;
* `RawText.scanAll`      raw text without a limit;
* `RawText.scan_eq`      the scanner of raw text.
-/

namespace HeaderLex

/-! ## the limit -/

/-- The result, unless the text has more than `maxText` bytes. -/
def limited {α : Type} (bytes : Nat) (r : Except Cause α) : Except Cause α :=
  if maxText < bytes then .error (.stringTooLong maxText) else r

section

variable {α β : Type} {bytes : Nat}

theorem limited_of_lt (h : maxText < bytes) (r : Except Cause α) :
    limited bytes r = .error (.stringTooLong maxText) := if_pos h

theorem limited_of_not_lt (h : ¬ maxText < bytes) (r : Except Cause α) : limited bytes r = r := if_neg h

theorem limited_bind (r : Except Cause α) (f : α → Except Cause β) :
    limited bytes r >>= f = limited bytes (r >>= f) := by
  unfold limited
  split <;> rfl

theorem limited_map (f : α → β) (r : Except Cause α) :
    (limited bytes r).map f = limited bytes (r.map f) := by
  unfold limited
  split <;> rfl

theorem limited_ok {r : Except Cause α} {a : α} (h : limited bytes r = .ok a) :
    bytes ≤ maxText ∧ r = .ok a := by
  unfold limited at h
  split at h
  · cases h
  · next hle => exact ⟨Nat.le_of_not_lt hle, h⟩

end

/-! ## string literals -/

namespace Lexeme

/-- A string literal, after its opening quote, up to its closing quote or to where it breaks off, and
the text behind. -/
def literalBody : List Char → List Char × List Char
  | [] => ([], [])
  | '\n' :: cs => ([], '\n' :: cs)
  | '"' :: cs => ([], '"' :: cs)
  | ['\\'] => (['\\'], [])
  | '\\' :: c :: cs => ('\\' :: c :: (literalBody cs).1, (literalBody cs).2)
  | c :: cs => (c :: (literalBody cs).1, (literalBody cs).2)

/-- The rest of a string literal with this body, if its closing quote stands behind. -/
def closed (body : List Char) : List Char → Except Cause (List Char × List Char × Nat)
  | '"' :: rest => .ok (body ++ ['"'], rest, Text.newlines body)
  | _ => .error .unterminatedString

theorem closed_escape (c : Char) (body behind : List Char) :
    (do
      let (text, rest, lines) ← closed body behind
      return ('\\' :: c :: text, rest, lines + if c = '\n' then 1 else 0))
      = closed ('\\' :: c :: body) behind := by
  unfold closed
  split
  · have hlines : Text.newlines ('\\' :: c :: body) = Text.newlines body + if c = '\n' then 1 else 0 := by
      show List.count '\n' ('\\' :: c :: body) = _
      rw [List.count_cons_of_ne (by decide), List.count_cons]
      simp only [beq_iff_eq]
      rfl
    rw [hlines]
    rfl
  · rfl

theorem closed_plain {c : Char} (hc : c ≠ '\n') (body behind : List Char) :
    (do
      let (text, rest, lines) ← closed body behind
      return (c :: text, rest, lines)) = closed (c :: body) behind := by
  unfold closed
  split
  · have hlines : Text.newlines (c :: body) = Text.newlines body := List.count_cons_of_ne hc
    rw [hlines]
    rfl
  · rfl

/-- A string literal is too long, or is closed or not. -/
theorem stringTail_eq (used : Nat) (cs : List Char) :
    stringTail used cs = limited (used + Text.byteLength (literalBody cs).1)
      (closed (literalBody cs).1 (literalBody cs).2) := by
  fun_induction stringTail used cs with
  | case1 used cs hlong => rw [limited_of_lt (by omega)]
  | case2 used hle | case3 used hle | case4 used hle => exact (limited_of_not_lt hle _).symm
  | case5 used hle hlong => exact (limited_of_lt hlong _).symm
  | case6 used hle hlong => exact (limited_of_not_lt hlong _).symm
  | case7 used hle c cs ih =>
    have hbytes : used + Text.byteLength ('\\' :: c :: (literalBody cs).1)
        = used + 1 + c.utf8Size + Text.byteLength (literalBody cs).1 := by
      rw [Text.byteLength_cons, Text.byteLength_cons, ← Nat.add_assoc, ← Nat.add_assoc]
      rfl
    rw [literalBody, ih, limited_bind, closed_escape, hbytes]
  | case8 used hle c cs hn hq hb hb' ih =>
    have hbytes : used + Text.byteLength (c :: (literalBody cs).1)
        = used + c.utf8Size + Text.byteLength (literalBody cs).1 := by
      rw [Text.byteLength_cons, ← Nat.add_assoc]
    rw [literalBody, ih, limited_bind, closed_plain hn, hbytes]
    · exact hn
    · exact hq
    · exact hb
    · exact hb'

theorem string_error {cs : List Char} {cause : Cause} (h : string cs = .error cause) :
    (maxText < 1 + Text.byteLength (literalBody cs).1 ∧ cause = .stringTooLong maxText) ∨
      cause = .unterminatedString := by
  unfold string at h
  rw [stringTail_eq] at h
  unfold limited closed at h
  split at h
  · next hlong => exact .inl ⟨hlong, (Except.error.inj h).symm⟩
  · split at h
    · cases h
    · exact .inr (Except.error.inj h).symm

theorem literalBody_plain {c : Char} (cs : List Char) (hn : c ≠ '\n') (hq : c ≠ '"') (hb : c ≠ '\\') :
    literalBody (c :: cs) = (c :: (literalBody cs).1, (literalBody cs).2) := by
  rw [literalBody]
  · exact hn
  · exact hq
  · exact fun h _ => hb h
  · exact fun _ _ h _ => hb h

theorem literalBody_letters {body : List Char} (h : ∀ c ∈ body, c ≠ '\n' ∧ c ≠ '"' ∧ c ≠ '\\')
    (rest : List Char) : literalBody (body ++ '"' :: rest) = (body, '"' :: rest) := by
  induction body with
  | nil => rfl
  | cons c cs ih =>
    obtain ⟨hn, hq, hb⟩ := h c List.mem_cons_self
    rw [List.cons_append, literalBody_plain _ hn hq hb, ih fun d hd => h d (List.mem_cons_of_mem _ hd)]

/-- A literal with its closing quote is scanned as a whole, or is too long. -/
theorem scan_literal {body rest : List Char}
    (h : literalBody (body ++ '"' :: rest) = (body, '"' :: rest)) :
    scan '"' (body ++ '"' :: rest) = limited (1 + Text.byteLength body)
      (.ok ⟨.stringConst, '"' :: (body ++ ['"']), rest, Text.newlines body⟩) := by
  have hstring : scan '"' (body ++ '"' :: rest) = string (body ++ '"' :: rest) := rfl
  rw [hstring, string, stringTail_eq, h, limited_bind]
  rfl

end Lexeme

/-! ## raw text -/

namespace RawText

/-- The raw text at the beginning of a source, of any length. -/
def scanAll (terminator : Char) (respectQuotes : Bool) (inQuotes : Bool) : List Char → RawText
  | [] => ⟨[], [], false, inQuotes⟩
  | '\n' :: cs => ⟨[], '\n' :: cs, false, inQuotes⟩
  | ['\\'] => ⟨['\\'], [], false, inQuotes⟩
  | '\\' :: c :: cs => (scanAll terminator respectQuotes inQuotes cs).prepend ['\\', c]
  | c :: cs =>
    let quote := c == '"' && respectQuotes
    if !quote && c == terminator && !inQuotes then ⟨[], c :: cs, true, false⟩
    else (scanAll terminator respectQuotes (inQuotes != quote) cs).prepend [c]

variable {terminator : Char} {respectQuotes : Bool}

theorem byteLength_prepend (front : List Char) (r : RawText) :
    Text.byteLength (r.prepend front).text = Text.byteLength front + Text.byteLength r.text :=
  Text.byteLength_append front r.text

section

variable {used bytes : Nat} {front : List Char}

/-- Text in front counts as text that was read before. -/
theorem limited_prepend (hbytes : used + Text.byteLength front = bytes) (r : RawText) :
    limited (used + Text.byteLength (r.prepend front).text) (.ok (r.prepend front)) =
      (limited (bytes + Text.byteLength r.text) (.ok r)).map (prepend front) := by
  rw [limited_map, byteLength_prepend, ← Nat.add_assoc, hbytes]
  rfl

theorem limited_prepend_of_lt (hbytes : used + Text.byteLength front = bytes) (h : maxText < bytes)
    (r : RawText) : limited (used + Text.byteLength (r.prepend front).text) (.ok (r.prepend front)) =
      .error (.stringTooLong maxText) := by
  rw [byteLength_prepend, limited_of_lt (by omega)]

end

theorem bytes_escape (used : Nat) (c : Char) :
    used + Text.byteLength ['\\', c] = used + 1 + c.utf8Size := by
  rw [Text.byteLength_cons, Text.byteLength_cons, ← Nat.add_assoc]
  rfl

/-- Raw text is too long, or is what it would be without a limit. -/
theorem scan_eq {used : Nat} (h : used ≤ maxText) (inQuotes : Bool) (cs : List Char) :
    scan terminator respectQuotes used inQuotes cs =
      limited (used + Text.byteLength (scanAll terminator respectQuotes inQuotes cs).text)
        (.ok (scanAll terminator respectQuotes inQuotes cs)) := by
  fun_induction scan terminator respectQuotes used inQuotes cs with
  | case1 used | case2 used => exact (limited_of_not_lt (Nat.not_lt_of_le h) _).symm
  | case3 used _ hlong => exact (limited_of_lt hlong _).symm
  | case4 used _ hle => exact (limited_of_not_lt hle _).symm
  | case5 used _ c cs bytes hlong =>
    exact (limited_prepend_of_lt (bytes_escape used c) hlong _).symm
  | case6 used _ c cs bytes hle ih =>
    rw [ih (Nat.le_of_not_lt hle), scanAll, limited_prepend (bytes_escape used c)]
  | case7 used inQuotes c cs hn hb hb' quote hstop =>
    rw [scanAll, if_pos hstop]
    · exact (limited_of_not_lt (Nat.not_lt_of_le h) _).symm
    · exact hn
    · exact hb
    · exact hb'
  | case8 used inQuotes c cs hn hb hb' quote hgo bytes hlong =>
    rw [scanAll, if_neg hgo]
    · exact (limited_prepend_of_lt rfl hlong _).symm
    · exact hn
    · exact hb
    · exact hb'
  | case9 used inQuotes c cs hn hb hb' quote hgo bytes hle ih =>
    rw [scanAll, if_neg hgo, ih (Nat.le_of_not_lt hle)]
    · exact (limited_prepend rfl _).symm
    · exact hn
    · exact hb
    · exact hb'

end RawText

end HeaderLex
