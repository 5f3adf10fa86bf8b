import HeaderLex.Proofs.Condition
import HeaderLex.Proofs.Gap
import HeaderLex.Proofs.LineNumbers

/-!
# Line endings

What the scanners make of a text whose lines end with a carriage return and a line feed, compared with
the same text without the carriage returns.

* `Text.crlf`               a carriage return before every line feed;
* `GapPiece.next?_crlf_*`   gaps: a line end becomes two pieces;
* `Lexeme.touchesLine`      a literal comes to the end of its line, by an escaped line feed or with no
                            byte to spare;
* `Lexeme.scan_crlf`        any other lexeme stays what it is;
* `Lexeme.scan_of_crlf`     a lexeme between the new line ends was one before;
* `DirectiveLine.read_crlf` a directive without a continuation stays what it is.
-/

set_option linter.unusedVariables false

namespace HeaderLex

namespace Text

/-- The text with a carriage return before every line feed. -/
def crlf : List Char → List Char
  | [] => []
  | '\n' :: cs => '\r' :: '\n' :: crlf cs
  | c :: cs => c :: crlf cs

variable {c : Char} {cs ds : List Char}

theorem crlf_cons_of_ne (hc : c ≠ '\n') (cs : List Char) : crlf (c :: cs) = c :: crlf cs := by
  rw [crlf]
  exact hc

theorem keepsLines_crlf : KeepsLines crlf where
  cons hc := crlf_cons_of_ne hc _
  stop {cs} h a ha := by
    cases cs with
    | nil => cases ha
    | cons c cs =>
      obtain rfl : c = '\n' := h c rfl
      exact .inr (Option.some.inj ha).symm

theorem crlf_append (cs ds : List Char) : crlf (cs ++ ds) = crlf cs ++ crlf ds := by
  induction cs with
  | nil => rfl
  | cons c cs ih =>
    by_cases hc : c = '\n'
    · subst hc
      show '\r' :: '\n' :: crlf (cs ++ ds) = _
      rw [ih]
      rfl
    · rw [List.cons_append, crlf_cons_of_ne hc, crlf_cons_of_ne hc, ih]
      rfl

/-- A text without line feeds stays as it is. -/
theorem crlf_eq_self (h : '\n' ∉ cs) : crlf cs = cs := by
  induction cs with
  | nil => rfl
  | cons c cs ih =>
    have hc : c ≠ '\n' := fun heq => h (heq ▸ List.mem_cons_self)
    rw [crlf_cons_of_ne hc, ih fun hmem => h (List.mem_cons_of_mem _ hmem)]

theorem newlines_crlf (cs : List Char) : newlines (crlf cs) = newlines cs := by
  induction cs with
  | nil => rfl
  | cons c cs ih =>
    by_cases hc : c = '\n'
    · subst hc
      show List.count '\n' ('\r' :: '\n' :: crlf cs) = List.count '\n' ('\n' :: cs)
      rw [List.count_cons_of_ne (by decide), List.count_cons_self, List.count_cons_self]
      exact congrArg (· + 1) ih
    · show List.count '\n' (crlf (c :: cs)) = List.count '\n' (c :: cs)
      rw [crlf_cons_of_ne hc, List.count_cons_of_ne hc, List.count_cons_of_ne hc]
      exact ih

/-- How a text with the new line ends begins. -/
theorem crlf_eq_cons {ds : List Char} (h : crlf cs = c :: ds) :
    (c = '\r' ∧ ∃ rest, cs = '\n' :: rest ∧ ds = '\n' :: crlf rest) ∨
      c ≠ '\n' ∧ ∃ rest, cs = c :: rest ∧ ds = crlf rest := by
  cases cs with
  | nil => cases h
  | cons d cs =>
    by_cases hd : d = '\n'
    · subst hd
      obtain ⟨rfl, rfl⟩ := List.cons.inj h
      exact .inl ⟨rfl, cs, rfl, rfl⟩
    · rw [crlf_cons_of_ne hd] at h
      obtain ⟨rfl, rfl⟩ := List.cons.inj h
      exact .inr ⟨hd, cs, rfl, rfl⟩

/-- The two texts are at the same place; it may be between a carriage return and its line feed. -/
def Mirrors (cs ds : List Char) : Prop :=
  ds = crlf cs ∨ ∃ rest, cs = '\n' :: rest ∧ ds = '\n' :: crlf rest

/-- The rest of a line, and what follows it. -/
theorem mirrors_dropWhile (cs : List Char) :
    Mirrors (cs.dropWhile (· != '\n')) ((crlf cs).dropWhile (· != '\n')) := by
  induction cs with
  | nil => exact .inl rfl
  | cons c cs ih =>
    by_cases hc : c = '\n'
    · subst hc
      exact .inr ⟨cs, rfl, rfl⟩
    · rw [crlf_cons_of_ne hc, List.dropWhile_cons_of_pos (by simpa using hc),
        List.dropWhile_cons_of_pos (by simpa using hc)]
      exact ih

end Text

open Text

/-! ## gaps -/

namespace GapPiece

theorem closeComment?_cons {c : Char} {cs : List Char} (h : ¬ (c = '*' ∧ cs.head? = some '/')) :
    closeComment? (c :: cs) = (closeComment? cs).map fun p => (c :: p.1, p.2) := by
  rw [closeComment?]
  intro rest hc hrest
  subst hc
  subst hrest
  exact h ⟨rfl, rfl⟩

/-- The end of a block comment is found at the same place. -/
theorem closeComment?_crlf (cs : List Char) :
    closeComment? (crlf cs) = (closeComment? cs).map fun p => (crlf p.1, crlf p.2) := by
  fun_induction closeComment? cs with
  | case1 => rfl
  | case2 cs => rfl
  | case3 c cs hne ih =>
    have hmap : ∀ (f : List Char → List Char), (∀ body, crlf (c :: body) = f (crlf body)) →
        ((closeComment? (crlf cs)).map fun p => (f p.1, p.2))
          = ((closeComment? cs).map fun p => (c :: p.1, p.2)).map fun p => (crlf p.1, crlf p.2) := by
      intro f hf
      rw [ih, Option.map_map, Option.map_map]
      congr 1
      funext p
      show (f (crlf p.1), crlf p.2) = (crlf (c :: p.1), crlf p.2)
      rw [hf]
    by_cases hc : c = '\n'
    · subst hc
      show closeComment? ('\r' :: '\n' :: crlf cs) = _
      rw [closeComment?_cons (by simp), closeComment?_cons (by simp), Option.map_map]
      exact hmap (fun body => '\r' :: '\n' :: body) fun body => rfl
    · rw [crlf_cons_of_ne hc, closeComment?_cons ?_]
      · exact hmap (c :: ·) fun body => crlf_cons_of_ne hc body
      · rintro ⟨rfl, hhead⟩
        cases hcs : crlf cs with
        | nil =>
          rw [hcs] at hhead
          cases hhead
        | cons d ds =>
          rw [hcs] at hhead
          obtain rfl : d = '/' := Option.some.inj hhead
          obtain ⟨hd, -⟩ | ⟨-, rest, rfl, -⟩ := crlf_eq_cons hcs
          · cases hd
          · exact hne rest rfl rfl

/-- A gap is broken in the same way. -/
theorem next?_crlf_error {cs : List Char} {cause : Cause} (h : next? cs = .error cause) :
    next? (crlf cs) = .error cause := by
  fun_cases next? cs with
  | case7 cs hclose =>
    simp only [next?, hclose] at h
    have hclose' := closeComment?_crlf cs
    rw [hclose] at hclose'
    show next? ('/' :: '*' :: crlf cs) = _
    simp only [next?, hclose', Option.map_none]
    exact h
  | case8 cs => exact h
  | _ => simp_all [next?]

/-- Where no piece begins, none begins with the new line ends. -/
theorem next?_crlf_none {cs : List Char} (hcr : '\r' ∉ cs) (h : next? cs = .ok none) :
    next? (crlf cs) = .ok none := by
  cases cs with
  | nil => rfl
  | cons a cs =>
    obtain ⟨hblank, hline, hcontinued, -, hslashes, hopen, hclose⟩ := next?_none_iff.1 h
    have hsame : ∀ {c : Char} {r : List Char}, c ≠ '\r' → crlf cs = c :: r → ∃ rest, cs = c :: rest := by
      intro c r hc heq
      obtain ⟨hc', -⟩ | ⟨-, rest, hrest, -⟩ := crlf_eq_cons heq
      · exact absurd hc' hc
      · exact ⟨rest, hrest⟩
    rw [crlf_cons_of_ne hline]
    refine next?_none_iff.2 ⟨hblank, hline, ?_, ?_, ?_, ?_, ?_⟩
    · intro r ha heq
      obtain ⟨rest, hrest⟩ := hsame (by decide) heq
      exact hcontinued rest ha hrest
    · intro r ha heq
      obtain ⟨-, rest, hrest, -⟩ | ⟨-, rest, hrest, -⟩ := crlf_eq_cons heq
      · exact hcontinued rest ha hrest
      · exact hcr (by rw [hrest]; exact List.mem_cons_of_mem _ List.mem_cons_self)
    · intro r ha heq
      obtain ⟨rest, hrest⟩ := hsame (by decide) heq
      exact hslashes rest ha hrest
    · intro r ha heq
      obtain ⟨rest, hrest⟩ := hsame (by decide) heq
      exact hopen rest ha hrest
    · intro r ha heq
      obtain ⟨rest, hrest⟩ := hsame (by decide) heq
      exact hclose rest ha hrest

/-- Any piece but a line end becomes one piece; a line comment takes the carriage return along. -/
theorem next?_crlf_piece {cs rest : List Char} {p : GapPiece} (hcr : '\r' ∉ cs)
    (h : next? cs = .ok (some (p, rest))) (hp : p ≠ newline) :
    ∃ q ds, next? (crlf cs) = .ok (some (q, ds)) ∧ q.lines = p.lines ∧ Mirrors rest ds := by
  have hstands := next?_stands h
  obtain rfl := next?_eq h
  cases p with
  | newline => exact absurd rfl hp
  | blank c =>
    have hblank : isLineBlank c = true := hstands
    have hc : c ≠ '\n' := by
      rintro rfl
      exact absurd hblank (by decide)
    refine ⟨blank c, crlf rest, ?_, rfl, .inl rfl⟩
    have hnext := @next?_text (blank c) (crlf rest) hblank
    show next? (crlf (c :: rest)) = _
    rw [crlf_cons_of_ne hc]
    exact hnext
  | continuation carriageReturn =>
    cases carriageReturn with
    | true => exact absurd (List.mem_append_left _ (by decide)) hcr
    | false => exact ⟨continuation true, crlf rest, rfl, rfl, .inl rfl⟩
  | lineComment body =>
    have hbody : crlf ('/' :: '/' :: (body ++ rest)) = '/' :: '/' :: (body ++ crlf rest) := by
      rw [crlf_cons_of_ne (by decide), crlf_cons_of_ne (by decide), crlf_append, crlf_eq_self hstands.1]
    cases rest with
    | nil =>
      refine ⟨lineComment body, [], ?_, rfl, .inl rfl⟩
      show next? (crlf ('/' :: '/' :: (body ++ []))) = _
      rw [hbody]
      exact next?_text hstands
    | cons a rest =>
      obtain rfl : a = '\n' := hstands.2 a rfl
      refine ⟨lineComment (body ++ ['\r']), '\n' :: crlf rest, ?_, rfl, .inr ⟨rest, rfl, rfl⟩⟩
      have hstands' : (lineComment (body ++ ['\r'])).Stands ('\n' :: crlf rest) := by
        refine ⟨?_, fun c hc => (Option.some.inj hc).symm⟩
        rw [List.mem_append]
        rintro (hmem | hmem)
        · exact hstands.1 hmem
        · exact absurd (List.mem_singleton.1 hmem) (by decide)
      have hnext := next?_text hstands'
      show next? (crlf ('/' :: '/' :: (body ++ '\n' :: rest))) = _
      rw [hbody]
      rw [text, List.cons_append, List.cons_append, List.append_assoc] at hnext
      exact hnext
  | blockComment body =>
    have hclose := closeComment?_crlf (body ++ '*' :: '/' :: rest)
    rw [closeComment?_text rest hstands] at hclose
    refine ⟨blockComment (crlf body), crlf rest, ?_, newlines_crlf body, .inl rfl⟩
    show next? ('/' :: '*' :: crlf ((body ++ ['*', '/']) ++ rest)) = _
    rw [List.append_assoc]
    simp only [next?, List.cons_append, List.nil_append, hclose, Option.map_some]

end GapPiece

namespace Margin

/-- Skipping a gap comes to the same place, counts the same lines and is broken in the same way. -/
theorem skip_crlf {m n : Margin} (hcr : '\r' ∉ m.cursor.rest) (h : Mirrors m.cursor.rest n.cursor.rest)
    (hline : n.cursor.position.line = m.cursor.position.line) :
    n.skip.1 = m.skip.1 ∧ n.skip.2.cursor.rest = crlf m.skip.2.cursor.rest ∧
      n.skip.2.cursor.position.line = m.skip.2.cursor.position.line := by
  fun_induction skip m generalizing n with
  | case1 m cause hn =>
    obtain h | ⟨rest, hrest, -⟩ := h
    · have hn' := GapPiece.next?_crlf_error hn
      rw [← h] at hn'
      have hskip : n.skip = (some cause, n) := by
        rw [skip]
        split <;> simp_all
      rw [hskip]
      exact ⟨rfl, h, hline⟩
    · rw [hrest] at hn
      cases hn
  | case2 m hn =>
    obtain h | ⟨rest, hrest, -⟩ := h
    · have hn' := GapPiece.next?_crlf_none hcr hn
      rw [← h] at hn'
      rw [skip_none hn']
      refine ⟨rfl, ?_⟩
      dsimp only
      split <;> split <;> exact ⟨h, hline⟩
    · rw [hrest] at hn
      cases hn
  | case3 m p rest hn ih =>
    have hcr' : '\r' ∉ rest := by
      intro hmem
      rw [GapPiece.next?_eq hn] at hcr
      exact hcr (List.mem_append_right _ hmem)
    have hpassed : ∀ {q : GapPiece} {ds : List Char},
        GapPiece.next? n.cursor.rest = .ok (some (q, ds)) → q.lines = p.lines → Mirrors rest ds →
        n.skip.1 = (m.pass p rest).skip.1 ∧
          n.skip.2.cursor.rest = crlf (m.pass p rest).skip.2.cursor.rest ∧
          n.skip.2.cursor.position.line = (m.pass p rest).skip.2.cursor.position.line := by
      intro q ds hq hlines hmirrors
      rw [skip_piece hq]
      refine @ih (n.pass q ds) hcr' hmirrors ?_
      show n.cursor.position.line + q.lines = m.cursor.position.line + p.lines
      rw [hlines, hline]
    obtain h | ⟨rest', hrest, h⟩ := h
    · by_cases hp : p = .newline
      · -- the carriage return is a blank in front of the line feed
        subst hp
        have htext := GapPiece.next?_eq hn
        have hblank : GapPiece.next? n.cursor.rest = .ok (some (.blank '\r', '\n' :: crlf rest)) := by
          rw [h, htext]
          rfl
        rw [skip_piece hblank]
        have hfeed : GapPiece.next? (n.pass (.blank '\r') ('\n' :: crlf rest)).cursor.rest
            = .ok (some (.newline, crlf rest)) := rfl
        rw [skip_piece hfeed]
        apply ih hcr' (.inl rfl)
        show n.cursor.position.line + 0 + 1 = m.cursor.position.line + 1
        rw [hline]
      · obtain ⟨q, ds, hq, hlines, hmirrors⟩ := GapPiece.next?_crlf_piece hcr hn hp
        exact hpassed (h ▸ hq) hlines hmirrors
    · rw [hrest] at hn
      obtain ⟨rfl, rfl⟩ : GapPiece.newline = p ∧ rest' = rest := by
        cases hn
        exact ⟨rfl, rfl⟩
      exact @hpassed .newline (crlf rest') (by rw [h]; rfl) rfl (.inl rfl)

end Margin

/-! ## lexemes -/

namespace Lexeme

open Number (isDigit)

/-- A string literal of which `used` bytes were read comes to the end of its line: by an escaped line
feed, or with no byte to spare. -/
def stringTouches (used : Nat) (cs : List Char) : Bool :=
  if maxText < used then false
  else
    match cs with
    | [] => false
    | '\n' :: _ => used == maxText
    | '"' :: _ => false
    | ['\\'] => false
    | '\\' :: c :: cs => c == '\n' || stringTouches (used + 1 + c.utf8Size) cs
    | c :: cs => stringTouches (used + c.utf8Size) cs

/-- A character literal, after its opening quote, is an escaped line feed. -/
def characterTouches : List Char → Bool
  | '\\' :: '\n' :: '\'' :: _ => true
  | _ => false

/-- The literal at the beginning of a text comes to the end of its line. -/
def touchesLine (c : Char) (cs : List Char) : Bool :=
  if c = '\'' then characterTouches cs else if c = '"' then stringTouches 1 cs else false

/-- The lexeme with the new line ends behind it. -/
def crlf (l : Lexeme) : Lexeme := { l with rest := Text.crlf l.rest }

theorem stringTail_crlf {used : Nat} {cs : List Char} (h : stringTouches used cs = false) :
    stringTail used (Text.crlf cs) = (stringTail used cs).map fun r => (r.1, Text.crlf r.2.1, r.2.2) := by
  fun_induction stringTail used cs with
  | case1 used cs hlong =>
    rw [stringTail.eq_def, if_pos hlong]
    rfl
  | case2 used hle =>
    rw [Text.crlf, stringTail, if_neg hle]
    rfl
  | case3 used hle cs =>
    -- the carriage return takes one byte
    have hspare : ¬ maxText < used + '\r'.utf8Size := by
      rw [stringTouches, if_neg hle] at h
      have hne : used ≠ maxText := by simpa using h
      have hsize : '\r'.utf8Size = 1 := by decide
      omega
    show stringTail used ('\r' :: '\n' :: Text.crlf cs) = .error .unterminatedString
    have hline : stringTail (used + '\r'.utf8Size) ('\n' :: Text.crlf cs) = .error .unterminatedString := by
      rw [stringTail, if_neg hspare]
    rw [stringTail, if_neg hle]
    · simp only [hline, bind, Except.bind]
    · decide
    · decide
    · exact fun heq _ => absurd heq (by decide)
    · exact fun _ _ heq _ => absurd heq (by decide)
  | case4 used hle rest =>
    show stringTail used ('"' :: Text.crlf rest) = _
    rw [stringTail, if_neg hle]
    rfl
  | case5 used hle hlong =>
    show stringTail used ['\\'] = _
    rw [stringTail, if_neg hle, if_pos hlong]
    rfl
  | case6 used hle hlong =>
    show stringTail used ['\\'] = _
    rw [stringTail, if_neg hle, if_neg hlong]
    rfl
  | case7 used hle c cs ih =>
    rw [stringTouches, if_neg hle] at h
    obtain ⟨hc, hrest⟩ := Bool.or_eq_false_iff.1 h
    have hc : c ≠ '\n' := by simpa using hc
    rw [Text.crlf_cons_of_ne (by decide), Text.crlf_cons_of_ne hc, stringTail, if_neg hle, ih hrest]
    cases stringTail (used + 1 + c.utf8Size) cs <;> rfl
  | case8 used hle c cs hn hq hb hb' ih =>
    have hrest : stringTouches (used + c.utf8Size) cs = false := by
      rw [stringTouches, if_neg hle] at h
      · exact h
      · exact hn
      · exact hq
      · exact hb
      · exact hb'
    have hc : c ≠ '\\' := by
      rintro rfl
      cases cs with
      | nil => exact hb rfl rfl
      | cons d ds => exact hb' d ds rfl rfl
    rw [Text.crlf_cons_of_ne hn, stringTail, if_neg hle, ih hrest]
    · cases stringTail (used + c.utf8Size) cs <;> rfl
    · exact hn
    · exact hq
    · exact fun heq _ => hc heq
    · exact fun _ _ heq _ => hc heq

/-- A closed string without a line feed stays within its line. -/
theorem StringTail.stringTouches {used : Nat} {cs text rest : List Char} {lines : Nat}
    (h : StringTail used cs text rest lines) (htext : '\n' ∉ text) : stringTouches used cs = false := by
  induction h with
  | close hle => rw [Lexeme.stringTouches, if_neg (Nat.not_lt_of_le hle)]
  | @escape used c cs text rest lines hle _ ih =>
    have hc : (c == '\n') = false := beq_false_of_ne fun heq =>
      htext (heq ▸ List.mem_cons_of_mem _ List.mem_cons_self)
    rw [Lexeme.stringTouches, if_neg (Nat.not_lt_of_le hle), hc, Bool.false_or]
    exact ih fun hmem => htext (List.mem_cons_of_mem _ (List.mem_cons_of_mem _ hmem))
  | @plain used c cs text rest lines hle hn hq hb _ ih =>
    rw [Lexeme.stringTouches, if_neg (Nat.not_lt_of_le hle)]
    · exact ih fun hmem => htext (List.mem_cons_of_mem _ hmem)
    · exact hn
    · exact hq
    · exact fun heq _ => hb heq
    · exact fun _ _ heq _ => hb heq

/-- A string that is closed with the new line ends was closed in its line before. -/
theorem StringTail.of_crlf {used : Nat} {cs text rest : List Char} {lines : Nat}
    (h : StringTail used (Text.crlf cs) text rest lines) :
    '\n' ∉ text ∧ ∃ rest', StringTail used cs text rest' lines := by
  have hline : ∀ {used : Nat} {ds text rest : List Char} {lines : Nat},
      ¬ StringTail used ('\n' :: ds) text rest lines := by
    intro used ds text rest lines hs
    cases hs with
    | plain _ hn => exact hn rfl
  generalize hds : Text.crlf cs = ds at h
  induction h generalizing cs with
  | close hle =>
    obtain ⟨hc, -⟩ | ⟨-, rest', rfl, -⟩ := Text.crlf_eq_cons hds
    · cases hc
    · exact ⟨by decide, rest', .close hle⟩
  | @escape used c ds text rest lines hle hs ih =>
    obtain ⟨hc, -⟩ | ⟨-, cs, rfl, hcs⟩ := Text.crlf_eq_cons hds
    · cases hc
    · obtain ⟨rfl, rest', -, rfl⟩ | ⟨hc, cs, rfl, rfl⟩ := Text.crlf_eq_cons hcs.symm
      · exact absurd hs hline
      · obtain ⟨htext, rest', hs'⟩ := ih rfl
        refine ⟨?_, rest', .escape hle hs'⟩
        simp only [List.mem_cons, not_or]
        exact ⟨by decide, fun heq => hc heq.symm, htext⟩
  | @plain used c ds text rest lines hle hn hq hb hs ih =>
    obtain ⟨rfl, rest', -, rfl⟩ | ⟨hc, cs, rfl, rfl⟩ := Text.crlf_eq_cons hds
    · exact absurd hs hline
    · obtain ⟨htext, rest', hs'⟩ := ih rfl
      refine ⟨?_, rest', .plain hle hn hq hb hs'⟩
      simp only [List.mem_cons, not_or]
      exact ⟨fun heq => hc heq.symm, htext⟩

theorem string_crlf {cs : List Char} (h : stringTouches 1 cs = false) :
    string (Text.crlf cs) = (string cs).map crlf := by
  unfold string
  rw [stringTail_crlf h]
  cases stringTail 1 cs <;> rfl

theorem character_plain {c : Char} (hb : c ≠ '\\') (hn : c ≠ '\n') (hq : c ≠ '\'') (rest : List Char) :
    character (c :: '\'' :: rest) = .ok ⟨.charConst, ['\'', c, '\''], rest, 0⟩ := by
  rw [character, if_neg (by simp [hb, hn, hq])]
  exact fun _ heq _ => hb heq

theorem character_crlf_ok {cs : List Char} {l : Lexeme} (h : character cs = .ok l)
    (htouch : characterTouches cs = false) : character (Text.crlf cs) = .ok l.crlf := by
  obtain ⟨inner, hcs, hl, ⟨c, rfl⟩ | ⟨c, rfl, hb, hn, hq⟩⟩ := character_ok h
  · have hc : c ≠ '\n' := by
      rintro rfl
      rw [hcs] at htouch
      cases htouch
    have hcrlf : Text.crlf cs = '\\' :: c :: '\'' :: Text.crlf l.rest := by
      rw [hcs]
      show Text.crlf ('\\' :: c :: '\'' :: l.rest) = _
      rw [Text.crlf_cons_of_ne (by decide), Text.crlf_cons_of_ne hc, Text.crlf_cons_of_ne (by decide)]
    rw [hcrlf, crlf, hl]
    rfl
  · have hcrlf : Text.crlf cs = c :: '\'' :: Text.crlf l.rest := by
      rw [hcs]
      show Text.crlf (c :: '\'' :: l.rest) = _
      rw [Text.crlf_cons_of_ne hn, Text.crlf_cons_of_ne (by decide)]
    rw [hcrlf, character_plain hb hn hq, crlf, hl]
    rfl

/-- A character literal with the new line ends behind it was one before. -/
theorem character_of_crlf {cs : List Char} {l : Lexeme} (h : character (Text.crlf cs) = .ok l) :
    characterTouches cs = false ∧ ∃ l', character cs = .ok l' := by
  obtain ⟨inner, hcs, -, ⟨c, rfl⟩ | ⟨c, rfl, hb, hn, hq⟩⟩ := character_ok h
  · obtain ⟨hc, -⟩ | ⟨-, cs, rfl, hds⟩ := Text.crlf_eq_cons hcs
    · cases hc
    · obtain ⟨-, rest, -, hrest⟩ | ⟨hc, cs, rfl, hes⟩ := Text.crlf_eq_cons hds.symm
      · cases hrest
      · obtain ⟨hc', -⟩ | ⟨-, rest, rfl, -⟩ := Text.crlf_eq_cons hes.symm
        · cases hc'
        · refine ⟨?_, _, rfl⟩
          unfold characterTouches
          split
          · next heq => exact absurd (List.cons.inj (List.cons.inj heq).2).1 hc
          · rfl
  · obtain ⟨-, rest, -, hrest⟩ | ⟨hc, cs, rfl, hds⟩ := Text.crlf_eq_cons hcs
    · cases hrest
    · obtain ⟨hc', -⟩ | ⟨-, rest, rfl, -⟩ := Text.crlf_eq_cons hds.symm
      · cases hc'
      · refine ⟨?_, _, character_plain hb hn hq rest⟩
        unfold characterTouches
        split
        · next heq => exact absurd (List.cons.inj heq).1 hb
        · rfl

theorem character_crlf {cs : List Char} (h : characterTouches cs = false) :
    character (Text.crlf cs) = (character cs).map crlf := by
  cases hc : character cs with
  | ok l => exact character_crlf_ok hc h
  | error cause =>
    cases hc' : character (Text.crlf cs) with
    | ok l =>
      obtain ⟨-, l', hl'⟩ := character_of_crlf hc'
      rw [hc] at hl'
      cases hl'
    | error cause' =>
      rw [character_error hc, character_error hc']
      rfl

theorem identifier_crlf (cs : List Char) : identifier (Text.crlf cs) = (identifier cs).map crlf := by
  obtain ⟨htake, hdrop⟩ := takeWhile_keeps Text.keepsLines_crlf (p := isNameChar) ⟨rfl, rfl⟩ cs
  unfold identifier
  dsimp only
  rw [htake, hdrop]
  split <;> rfl

theorem number_crlf (cs : List Char) : number (Text.crlf cs) = (number cs).map crlf := by
  unfold number
  rw [numberText_keeps Text.keepsLines_crlf]
  dsimp only
  split <;> rfl

/-- A lexeme that does not come to the end of its line is the same with the new line ends, and so is
the reason why there is none. -/
theorem scan_crlf {c : Char} {cs : List Char} (hc : c ≠ '\n') (h : touchesLine c cs = false) :
    scan c (Text.crlf cs) = (scan c cs).map crlf := by
  have hany := head?_any_keeps Text.keepsLines_crlf (p := isDigit) ⟨rfl, rfl⟩ cs
  unfold scan
  rw [hany, ← Text.crlf_cons_of_ne hc]
  split
  · exact identifier_crlf (c :: cs)
  · split
    · exact number_crlf (c :: cs)
    · split
      · next hquote =>
        rw [touchesLine, if_pos hquote] at h
        exact character_crlf h
      · next hquote =>
        rw [touchesLine, if_neg hquote] at h
        split
        · next hdouble =>
          rw [if_pos hdouble] at h
          exact string_crlf h
        · exact congrArg Except.ok (symbol_keeps Text.keepsLines_crlf c cs)

theorem StringTail.newline_not_mem {used : Nat} {cs text rest : List Char} {lines : Nat}
    (h : StringTail used cs text rest lines) (htouch : Lexeme.stringTouches used cs = false) :
    '\n' ∉ text := by
  induction h with
  | close => decide
  | @escape used c cs text rest lines hle _ ih =>
    rw [Lexeme.stringTouches, if_neg (Nat.not_lt_of_le hle)] at htouch
    obtain ⟨hc, hrest⟩ := Bool.or_eq_false_iff.1 htouch
    have hc : c ≠ '\n' := by simpa using hc
    simp only [List.mem_cons, not_or]
    exact ⟨by decide, fun heq => hc heq.symm, ih hrest⟩
  | @plain used c cs text rest lines hle hn hq hb _ ih =>
    rw [Lexeme.stringTouches, if_neg (Nat.not_lt_of_le hle)] at htouch
    · simp only [List.mem_cons, not_or]
      exact ⟨fun heq => hn heq.symm, ih htouch⟩
    · exact hn
    · exact hq
    · exact fun heq _ => hb heq
    · exact fun _ _ heq _ => hb heq

/-- A lexeme holds a line feed only if it comes to the end of its line. -/
theorem newline_not_mem_scan {c : Char} {cs : List Char} {l : Lexeme} (hc : c ≠ '\n')
    (hl : scan c cs = .ok l) (h : touchesLine c cs = false) : '\n' ∉ l.text := by
  have hnone : ∀ {ds : List Char}, Text.newlines ds = 0 → '\n' ∉ ds := fun hds => List.count_eq_zero.1 hds
  rcases scan_class hl with ⟨-, h'⟩ | ⟨-, h'⟩ | ⟨rfl, h'⟩ | ⟨rfl, h'⟩ | ⟨⟨⟩⟩
  · rw [(identifier_ok h').2]
    exact hnone (DirectiveLine.newlines_takeWhile (by decide) _)
  · rw [(number_ok h').2]
    exact hnone (newlines_numberText _)
  · have htouch : characterTouches cs = false := h
    obtain ⟨inner, hcs, hl', ⟨d, rfl⟩ | ⟨d, rfl, -, hn, -⟩⟩ := character_ok h'
    · have hd : d ≠ '\n' := by
        rintro rfl
        rw [hcs] at htouch
        cases htouch
      rw [hl']
      simp [Ne.symm hd]
    · rw [hl']
      simp [Ne.symm hn]
  · have htouch : stringTouches 1 cs = false := h
    obtain ⟨text, ht, hl'⟩ := string_ok h'
    have htext := (stringTail_sound ht).newline_not_mem htouch
    rw [hl']
    simp [htext]
  · exact hnone (newlines_symbol hc cs)

/-- A lexeme that is scanned with the new line ends did not come to the end of its line. -/
theorem touchesLine_of_crlf {c : Char} {cs : List Char} {l : Lexeme}
    (h : scan c (Text.crlf cs) = .ok l) : touchesLine c cs = false := by
  unfold touchesLine
  split
  · next hquote =>
    subst hquote
    have hchar : character (Text.crlf cs) = .ok l := h
    exact (character_of_crlf hchar).1
  · split
    · next hdouble =>
      subst hdouble
      have hstring : string (Text.crlf cs) = .ok l := h
      obtain ⟨text, ht, -⟩ := string_ok hstring
      obtain ⟨htext, rest, hs⟩ := (stringTail_sound ht).of_crlf
      exact hs.stringTouches htext
    · rfl

/-- A lexeme without a line feed does not come to the end of its line. -/
theorem touchesLine_of_ok {c : Char} {cs : List Char} {l : Lexeme} (h : scan c cs = .ok l)
    (htext : '\n' ∉ l.text) : touchesLine c cs = false := by
  unfold touchesLine
  split
  · next hquote =>
    subst hquote
    have hchar : character cs = .ok l := h
    obtain ⟨inner, hcs, hl, -⟩ := character_ok hchar
    unfold characterTouches
    split
    · next rest =>
      obtain rfl : l = ⟨.charConst, ['\'', '\\', '\n', '\''], rest, 0⟩ := (Except.ok.inj hchar).symm
      exact absurd (List.mem_cons_of_mem _ (List.mem_cons_of_mem _ List.mem_cons_self)) htext
    · rfl
  · split
    · next hdouble =>
      subst hdouble
      have hstring : string cs = .ok l := h
      obtain ⟨text, ht, hl⟩ := string_ok hstring
      rw [hl] at htext
      exact (stringTail_sound ht).stringTouches fun hmem => htext (List.mem_cons_of_mem _ hmem)
    · rfl

end Lexeme

/-! ## directives -/

namespace DirectiveLine

/-- What the new line ends do to the arguments of a directive: they take the carriage return along. -/
def ArgumentsTurn (a b : List Char × List Char × Nat) : Prop :=
  (∃ rest, a.2.1 = '\n' :: rest ∧ b.1 = a.1 ++ ['\r'] ∧ b.2.1 = '\n' :: Text.crlf rest) ∨
    (∀ c ∈ a.2.1.head?, c ≠ '\n') ∧ b.1 = a.1 ∧ b.2.1 = Text.crlf a.2.1

theorem ArgumentsTurn.prepend {a b : List Char × List Char × Nat} (h : ArgumentsTurn a b)
    (front : List Char) : ArgumentsTurn (front ++ a.1, a.2.1, a.2.2) (front ++ b.1, b.2.1, b.2.2) := by
  obtain ⟨rest, hrest, htext, hleft⟩ | ⟨hhead, htext, hleft⟩ := h
  · refine .inl ⟨rest, hrest, ?_, hleft⟩
    dsimp only
    rw [htext, List.append_assoc]
  · refine .inr ⟨hhead, ?_, hleft⟩
    dsimp only
    rw [htext]

theorem arguments_crlf {quoted : Bool} {cs : List Char} (h : '\n' ∉ (arguments quoted cs).1) :
    ArgumentsTurn (arguments quoted cs) (arguments quoted (Text.crlf cs)) := by
  fun_induction arguments quoted cs with
  | case1 quoted => cases quoted <;> exact .inr ⟨fun a ha => (by cases ha), rfl, rfl⟩
  | case2 quoted cs => cases quoted <;> exact .inl ⟨cs, rfl, rfl, rfl⟩
  | case3 cs => exact .inr ⟨fun a ha => (by cases ha; decide), rfl, rfl⟩
  | case4 cs => exact .inr ⟨fun a ha => (by cases ha; decide), rfl, rfl⟩
  | case5 cs text rest lines heq ih =>
    exact absurd (List.mem_cons_of_mem _ List.mem_cons_self) h
  | case6 cs => exact .inl ⟨cs, rfl, rfl, rfl⟩
  | case7 c cs hc text rest lines heq ih =>
    have hn : c ≠ '\n' := by simpa using hc
    rw [heq] at ih
    have htext : '\n' ∉ text := fun hmem => h (List.mem_cons_of_mem _ (List.mem_cons_of_mem _ hmem))
    rw [Text.crlf_cons_of_ne (by decide), Text.crlf_cons_of_ne hn]
    have hturn := (ih htext).prepend ['\\', c]
    rw [arguments]
    · exact hturn
    · exact hc
  | case8 quoted c cs hn hslashes hopen hcontinued hquoted hescape text rest lines heq ih =>
    have hc : c ≠ '\n' := hn
    have hsame : ∀ {d : Char} {r : List Char}, d ≠ '\r' → Text.crlf cs = d :: r → ∃ r', cs = d :: r' := by
      intro d r hd hcs
      obtain ⟨hd', -⟩ | ⟨-, r', hr', -⟩ := Text.crlf_eq_cons hcs
      · exact absurd hd' hd
      · exact ⟨r', hr'⟩
    rw [heq] at ih
    have hturn := (ih fun hmem => h (List.mem_cons_of_mem _ hmem)).prepend [c]
    rw [Text.crlf_cons_of_ne hc, arguments]
    · exact hturn
    · exact hc
    · intro r hq hslash hr
      obtain ⟨r', hr'⟩ := hsame (by decide) hr
      exact hslashes r' hq hslash hr'
    · intro r hq hslash hr
      obtain ⟨r', hr'⟩ := hsame (by decide) hr
      exact hopen r' hq hslash hr'
    · intro r hq hslash hr
      obtain ⟨r', hr'⟩ := hsame (by decide) hr
      exact hcontinued r' hq hslash hr'
    · intro r hq hslash hr
      obtain ⟨r', hr'⟩ := hsame (by decide) hr
      exact hquoted r' hq hslash hr'
    · intro d r hq hslash hr
      cases cs with
      | nil => cases hr
      | cons d' r' => exact hescape d' r' hq hslash rfl

/-- A directive line without a continuation is read alike with the new line ends. -/
theorem read_crlf {cs : List Char} (h : '\n' ∉ argumentsOf cs) :
    nameOf (Text.crlf cs) = nameOf cs ∧
      Text.trim (argumentsOf (Text.crlf cs)) = Text.trim (argumentsOf cs) ∧
      left (Text.crlf cs) = Text.crlf (left cs) ∧
      Text.newlines (taken (Text.crlf cs)) = Text.newlines (taken cs) := by
  have hinner : inner (Text.crlf cs) = Text.crlf (inner cs) :=
    (takeWhile_keeps Text.keepsLines_crlf (p := isInnerBlank) ⟨rfl, rfl⟩ cs).2
  obtain ⟨hname, htail⟩ := takeWhile_keeps Text.keepsLines_crlf (p := isNameChar) ⟨rfl, rfl⟩ (inner cs)
  rw [← hinner] at hname htail
  have htail : tailOf (Text.crlf cs) = Text.crlf (tailOf cs) := htail
  have hturn := @arguments_crlf false (tailOf cs) h
  rw [← htail] at hturn
  have hleft : left (Text.crlf cs) = Text.crlf (left cs) := by
    unfold left stopOf
    obtain ⟨rest, hrest, -, hstop⟩ | ⟨hhead, -, hstop⟩ := hturn
    · rw [hrest, hstop]
      rfl
    · rw [hstop]
      generalize (arguments false (tailOf cs)).2.1 = ds at hhead
      cases ds with
      | nil => rfl
      | cons d ds =>
        have hd : d ≠ '\n' := hhead d rfl
        have hsplit : ∀ es, splitNewline (d :: es) = ([], d :: es) := by
          intro es
          unfold splitNewline
          split
          · next heq => exact absurd (List.cons.inj heq).1 hd
          · rfl
        rw [Text.crlf_cons_of_ne hd, hsplit, hsplit, Text.crlf_cons_of_ne hd]
  refine ⟨hname, ?_, hleft, ?_⟩
  · unfold argumentsOf
    obtain ⟨rest, -, htext, -⟩ | ⟨-, htext, -⟩ := hturn
    · rw [htext]
      have hblank : Text.Blanks ['\r'] := by
        intro c hc
        rw [List.mem_singleton.1 hc]
        rfl
      exact @Text.trim_spaced [] _ _ (fun c hc => absurd hc List.not_mem_nil) hblank
    · rw [htext]
  · have hwhole := congrArg Text.newlines (taken_append_left (Text.crlf cs))
    have hwhole' := congrArg Text.newlines (taken_append_left cs)
    rw [Text.newlines_append, hleft, Text.newlines_crlf, Text.newlines_crlf] at hwhole
    rw [Text.newlines_append] at hwhole'
    omega

end DirectiveLine

end HeaderLex
