import HeaderLex.Lexer.RawText
import HeaderLex.Proofs.ByteLexemes
import HeaderLex.Proofs.DirectiveLine

/-!
# Reading by bytes: lines

Directive lines, raw lines and raw text by bytes.  Inside quotes on a directive line two bytes are
skipped after a backslash, which may lead into a character or beyond the end of the source; no
text is cut out there.

* `quotedEnd`, `argumentsEnd`   the loops over the arguments of a directive;
* `quotedEnd_eq`      they come out of the quotes between two characters;
* `directive_eq`      a directive line is read without failure;
* `placeAtLineEnd_eq`, `rawEnd_eq`   so are the rest of a line and raw text.
-/

namespace HeaderLex

open Text

namespace Bytewise

open DirectiveLine (isInnerBlank arguments arguments_append arguments_lines inner nameOf tailOf argumentsOf
  stopOf splitNewline)

/-! ## directive lines -/

/-- Where quotes end that were opened before an offset. -/
def quotedEnd (source : List Char) : Nat → Nat → Except Fault Nat
  | 0, _ => .error .stalled
  | fuel + 1, i =>
    -- an escape at the end of the source leads beyond it
    if byteLength source ≤ i then .ok (byteLength source)
    else if byteAt source i = '\n' then .ok i
    else if byteAt source i = '\\' ∧ byteAt source (i + 1) ≠ '\n' then quotedEnd source fuel (i + 2)
    else if byteAt source i = '"' then .ok (i + 1)
    else quotedEnd source fuel (i + 1)

/-- Where the arguments of a directive end, and the lines that end in them. -/
def argumentsEnd (source : List Char) : Nat → Nat → Nat → Except Fault (Nat × Nat)
  | 0, _, _ => .error .stalled
  | fuel + 1, i, lines =>
    if byteLength source ≤ i then .ok (i, lines)
    else if byteAt source i = '\n' then .ok (i, lines)
    else if byteAt source i = '/' ∧ byteAt source (i + 1) = '/' then .ok (i, lines)
    else if byteAt source i = '/' ∧ byteAt source (i + 1) = '*' then .ok (i, lines)
    else if byteAt source i = '\\' ∧ byteAt source (i + 1) = '\n' then
      argumentsEnd source fuel (i + 2) (lines + 1)
    else if byteAt source i = '"' then do
      argumentsEnd source fuel (← quotedEnd source (byteLength source + 1) (i + 1)) lines
    else argumentsEnd source fuel (i + 1) lines

/-- The cursor after the line end at an offset, if there is one. -/
def placeAfterNewline (source : List Char) (i line : Nat) : Except Fault Cursor :=
  if byteAt source i = '\n' then place source (i + 1) (line + 1) else place source i line

/-- The directive after its `#` token, and the cursor after its line. -/
def directive (source : List Char) (hash : Token) (p : Position) :
    Except Fault (Directive × Cursor) := do
  let nameStart := runFrom source isInnerBlank p.offset
  let nameStop := runFrom source isNameChar nameStart
  let name ← slice source nameStart nameStop
  let (stop, lines) ← argumentsEnd source (byteLength source + 1) nameStop 0
  let text ← slice source nameStop stop
  let cursor ← placeAfterNewline source stop (p.line + lines)
  return (⟨hash, String.ofList name, String.ofList (trim text)⟩, cursor)

variable {source cs : List Char} {i : Nat}

theorem quotedEnd_wide (fuel j : Nat) (h : 128 ≤ (byteAt source j).toNat) :
    quotedEnd source (fuel + 1) j = quotedEnd source fuel (j + 1) := by
  have hlt := lt_of_wide h
  rw [quotedEnd, if_neg (by omega), if_neg (wide_ne h (by decide)),
    if_neg (fun hescape => wide_ne h (by decide) hescape.1), if_neg (wide_ne h (by decide))]

theorem argumentsEnd_wide (lines fuel j : Nat) (h : 128 ≤ (byteAt source j).toNat) :
    argumentsEnd source (fuel + 1) j lines = argumentsEnd source fuel (j + 1) lines := by
  have hlt := lt_of_wide h
  have hne : ∀ {d e : Char}, d.toNat < 128 → ¬ (byteAt source j = d ∧ byteAt source (j + 1) = e) :=
    fun hd hpair => wide_ne h hd hpair.1
  rw [argumentsEnd, if_neg (by omega), if_neg (wide_ne h (by decide)), if_neg (hne (by decide)),
    if_neg (hne (by decide)), if_neg (hne (by decide)), if_neg (wide_ne h (by decide))]

/-- An escape is stepped over with the character after the backslash, however wide it is. -/
theorem quotedEnd_escape {c : Char} (h : At source i ('\\' :: c :: cs)) (hc : c ≠ '\n') (fuel : Nat) :
    quotedEnd source (fuel + c.utf8Size) i = quotedEnd source fuel (i + 1 + c.utf8Size) := by
  have hafter := h.step (by decide)
  have hpos := c.utf8Size_pos
  have hbyte := (h.byte_iff (a := '\\') (by decide)).2 rfl
  have hnext : byteAt source (i + 1) ≠ '\n' := by
    rw [ne_eq, hafter.byte_iff (by decide)]
    simpa using hc
  obtain ⟨n, hn⟩ : ∃ n, c.utf8Size = n + 1 := ⟨c.utf8Size - 1, by omega⟩
  have hstep : quotedEnd source (fuel + c.utf8Size) i = quotedEnd source (fuel + n) (i + 1 + 1) := by
    rw [hn, ← Nat.add_assoc, quotedEnd, if_neg h.lt, if_neg (by rw [hbyte]; decide),
      if_pos ⟨hbyte, hnext⟩]
  rw [hstep]
  by_cases hnarrow : c.toNat < 128
  · have hsize := utf8Size_narrow hnarrow
    obtain rfl : n = 0 := by omega
    rw [hsize]
    rfl
  · exact At.walk quotedEnd_wide hafter (Nat.not_lt.1 hnarrow) fuel (by omega)

/-- A backslash at the end of the source leads beyond it and back. -/
theorem quotedEnd_dangling (h : At source i ['\\']) (fuel : Nat) :
    quotedEnd source (fuel + 2) i = .ok (i + 1) := by
  have hafter := h.step (by decide)
  have hend : i + 1 + 0 = byteLength source := hafter.le
  have hbyte := (h.byte_iff (a := '\\') (by decide)).2 rfl
  have hnext : byteAt source (i + 1) ≠ '\n' := by
    rw [ne_eq, hafter.byte_iff (by decide)]
    simp
  rw [quotedEnd, if_neg h.lt, if_neg (by rw [hbyte]; decide), if_pos ⟨hbyte, hnext⟩, quotedEnd,
    if_pos (by omega), ← hend]

theorem quotedEnd_plain {c : Char} (h : At source i (c :: cs)) (hline : c ≠ '\n') (hquote : c ≠ '"')
    (hescape : c = '\\' → cs.head? = some '\n') (fuel : Nat) :
    quotedEnd source (fuel + c.utf8Size) i = quotedEnd source fuel (i + c.utf8Size) := by
  by_cases hnarrow : c.toNat < 128
  · have hbyte : byteAt source i = c := by rw [h.byteAt, firstByte_narrow hnarrow]
    have hnot : ¬ (c = '\\' ∧ byteAt source (i + 1) ≠ '\n') := by
      rintro ⟨hc, hnext⟩
      exact hnext (((h.step hnarrow).byte_iff (by decide)).2 (hescape hc))
    rw [utf8Size_narrow hnarrow, quotedEnd, if_neg h.lt, hbyte, if_neg hline, if_neg hnot,
      if_neg hquote]
  · exact At.walk quotedEnd_wide h (Nat.not_lt.1 hnarrow) fuel (Nat.zero_add _)

theorem quotedEnd_newline (h : At source i ('\n' :: cs)) (fuel : Nat) :
    quotedEnd source (fuel + 1) i = .ok i := by
  have hbyte := (h.byte_iff (a := '\n') (by decide)).2 rfl
  rw [quotedEnd, if_neg h.lt, if_pos hbyte]

theorem quotedEnd_close (h : At source i ('"' :: cs)) (fuel : Nat) :
    quotedEnd source (fuel + 1) i = .ok (i + 1) := by
  have hbyte := (h.byte_iff (a := '"') (by decide)).2 rfl
  have hnot : ¬ (byteAt source i = '\\' ∧ byteAt source (i + 1) ≠ '\n') := by
    rintro ⟨hescape, -⟩
    rw [hbyte] at hescape
    exact absurd hescape (by decide)
  rw [quotedEnd, if_neg h.lt, if_neg (by rw [hbyte]; decide), if_neg hnot, if_pos hbyte]

/-- Quotes are left between two characters, and the arguments go on from there. -/
def Unquotes (source : List Char) (fuel i : Nat) (cs : List Char) (read : List Char × List Char × Nat) :
    Prop :=
  ∃ text rest, cs = text ++ rest ∧ quotedEnd source fuel i = .ok (i + byteLength text) ∧
    read = (text ++ (arguments false rest).1, (arguments false rest).2)

theorem Unquotes.prepend {fuel fuel' lines : Nat} {front text rest : List Char}
    (h : Unquotes source fuel (i + byteLength front) cs (text, rest, lines))
    (hfront : quotedEnd source fuel' i = quotedEnd source fuel (i + byteLength front)) :
    Unquotes source fuel' i (front ++ cs) (front ++ text, rest, lines) := by
  obtain ⟨quoted, back, rfl, hquotes, hread⟩ := h
  obtain ⟨rfl, hback⟩ := Prod.mk.inj hread
  refine ⟨front ++ quoted, back, (List.append_assoc ..).symm, ?_, ?_⟩
  · rw [hfront, hquotes, byteLength_append, Nat.add_assoc]
  · rw [List.append_assoc, hback]

theorem quotedEnd_eq {fuel : Nat} (h : At source i cs) (hfuel : byteLength source < fuel + i) :
    Unquotes source fuel i cs (arguments true cs) := by
  have hle := h.le
  obtain ⟨fuel, rfl⟩ : ∃ m, fuel = m + 1 := ⟨fuel - 1, by omega⟩
  generalize hquoted : true = quoted
  fun_induction arguments quoted cs generalizing i fuel with
  | case1 quoted =>
    rw [byteLength_nil] at hle
    refine ⟨[], [], rfl, ?_, rfl⟩
    rw [quotedEnd, if_pos (by omega)]
    exact congrArg Except.ok hle.symm
  | case2 quoted cs =>
    refine ⟨[], '\n' :: cs, rfl, quotedEnd_newline h fuel, ?_⟩
    rw [arguments]
    rfl
  | case3 => cases hquoted
  | case4 => cases hquoted
  | case5 => cases hquoted
  | case6 cs =>
    have hstep := h.step (by decide)
    have hlt := hstep.lt
    obtain ⟨fuel, rfl⟩ : ∃ m, fuel = m + 1 := ⟨fuel - 1, by omega⟩
    refine ⟨['\\'], '\n' :: cs, rfl, ?_, ?_⟩
    · exact (quotedEnd_plain h (by decide) (by decide) (fun _ => rfl) (fuel + 1)).trans
        (quotedEnd_newline hstep fuel)
    · rw [arguments]
      rfl
  | case7 c cs hc text rest lines harg ih =>
    have hstep : At source (i + byteLength ['\\', c]) cs := h.advance
    have hend := hstep.le
    have hwidth : byteLength ['\\', c] = 1 + c.utf8Size := rfl
    obtain ⟨fuel, rfl⟩ : ∃ m, fuel = m + c.utf8Size := ⟨fuel - c.utf8Size, by omega⟩
    rw [harg] at ih
    refine (ih hstep hend fuel (by omega) rfl).prepend ?_
    rw [Nat.add_right_comm, quotedEnd_escape h hc, hwidth, Nat.add_assoc]
  | case8 quoted c cs hline _ _ _ _ hescape text rest lines harg ih =>
    subst hquoted
    by_cases hquote : c = '"'
    · subst hquote
      have harg : arguments false cs = (text, rest, lines) := harg
      refine ⟨['"'], cs, rfl, quotedEnd_close h fuel, ?_⟩
      rw [harg]
      rfl
    · by_cases hlast : c = '\\' ∧ cs = []
      · obtain ⟨rfl, rfl⟩ := hlast
        have hlt := h.lt
        obtain ⟨fuel, rfl⟩ : ∃ m, fuel = m + 1 := ⟨fuel - 1, by omega⟩
        obtain ⟨rfl, rfl, rfl⟩ : [] = text ∧ [] = rest ∧ 0 = lines := by simpa [arguments] using harg
        exact ⟨['\\'], [], rfl, quotedEnd_dangling h fuel, rfl⟩
      · have hplain : c = '\\' → cs.head? = some '\n' := by
          rintro rfl
          cases cs with
          | nil => exact absurd ⟨rfl, rfl⟩ hlast
          | cons d cs => exact (hescape d cs rfl rfl rfl).elim
        have hstep : At source (i + byteLength [c]) cs := h.next
        have hend := hstep.le
        have hwidth : byteLength [c] = c.utf8Size := rfl
        obtain ⟨fuel, rfl⟩ : ∃ m, fuel = m + c.utf8Size := ⟨fuel - c.utf8Size, by omega⟩
        rw [harg] at ih
        refine (ih hstep hend fuel (by omega) (by simpa using hquote)).prepend ?_
        rw [Nat.add_right_comm, quotedEnd_plain h hline hquote hplain, hwidth]

/-- One turn over the arguments, by the characters that stand there. -/
theorem argumentsEnd_succ (h : At source i cs) (fuel lines : Nat) :
    argumentsEnd source (fuel + 1) i lines =
      if cs = [] then .ok (i, lines)
      else if cs.head? = some '\n' then .ok (i, lines)
      else if cs.take 2 = ['/', '/'] then .ok (i, lines)
      else if cs.take 2 = ['/', '*'] then .ok (i, lines)
      else if cs.take 2 = ['\\', '\n'] then argumentsEnd source fuel (i + 2) (lines + 1)
      else if cs.head? = some '"' then do
        argumentsEnd source fuel (← quotedEnd source (byteLength source + 1) (i + 1)) lines
      else argumentsEnd source fuel (i + 1) lines := by
  rw [argumentsEnd]
  simp only [h.end_iff, h.byte_iff (a := '\n') (by decide), h.byte_iff (a := '"') (by decide),
    h.pair_iff (a := '/') (b := '/') (by decide) (by decide),
    h.pair_iff (a := '/') (b := '*') (by decide) (by decide),
    h.pair_iff (a := '\\') (b := '\n') (by decide) (by decide)]

theorem argumentsEnd_plain {c : Char} (h : At source i (c :: cs)) (hline : c ≠ '\n') (hquote : c ≠ '"')
    (hslash : (c :: cs).take 2 ≠ ['/', '/']) (hstar : (c :: cs).take 2 ≠ ['/', '*'])
    (hescape : (c :: cs).take 2 ≠ ['\\', '\n']) (fuel lines : Nat) :
    argumentsEnd source (fuel + c.utf8Size) i lines
      = argumentsEnd source fuel (i + c.utf8Size) lines := by
  by_cases hnarrow : c.toNat < 128
  · rw [utf8Size_narrow hnarrow, argumentsEnd_succ h, if_neg (List.cons_ne_nil c cs),
      if_neg (by simpa using hline), if_neg hslash, if_neg hstar, if_neg hescape,
      if_neg (by simpa using hquote)]
  · exact At.walk (F := fun fuel j => argumentsEnd source fuel j lines) (argumentsEnd_wide lines) h
      (Nat.not_lt.1 hnarrow) fuel (Nat.zero_add _)

/-- The arguments of a directive end where they end on characters. -/
theorem argumentsEnd_eq {fuel lines : Nat} (h : At source i cs) (hfuel : byteLength source < fuel + i) :
    argumentsEnd source fuel i lines
      = .ok (i + byteLength (arguments false cs).1, lines + (arguments false cs).2.2) := by
  have hle := h.le
  obtain ⟨fuel, rfl⟩ : ∃ m, fuel = m + 1 := ⟨fuel - 1, by omega⟩
  -- quotes are stepped over as a whole, so the induction is on the length of what is left
  induction hn : cs.length using Nat.strongRecOn generalizing i cs fuel lines with
  | ind n ih =>
    generalize hquoted : false = quoted
    fun_cases arguments quoted cs with
    | case1 =>
      rw [argumentsEnd_succ h, if_pos rfl]
      rfl
    | case2 cs =>
      rw [argumentsEnd_succ h, if_neg (by simp), if_pos (by simp)]
      rfl
    | case3 cs =>
      rw [argumentsEnd_succ h, if_neg (by simp), if_neg (by simp), if_pos (by simp)]
      rfl
    | case4 cs =>
      rw [argumentsEnd_succ h, if_neg (by simp), if_neg (by simp), if_neg (by simp), if_pos (by simp)]
      rfl
    | case5 cs text rest count harg =>
      have hstep : At source (i + 2) cs := (h.step (by decide)).step (by decide)
      have hend := hstep.le
      have hless : cs.length < n := by
        rw [← hn, List.length_cons, List.length_cons]
        omega
      obtain ⟨fuel, rfl⟩ : ∃ m, fuel = m + 1 := ⟨fuel - 1, by omega⟩
      rw [argumentsEnd_succ h, if_neg (by simp), if_neg (by simp), if_neg (by simp), if_neg (by simp),
        if_pos (by simp), ih cs.length hless hstep hend fuel (by omega) rfl, harg]
      show Except.ok (i + 2 + byteLength text, lines + 1 + count)
        = .ok (i + (1 + (1 + byteLength text)), lines + (count + 1))
      congr 2 <;> omega
    | case6 cs => cases hquoted
    | case7 c cs hc text rest lines harg => cases hquoted
    | case8 quoted c cs hline hslash hstar hescape _ _ text rest count harg =>
      subst hquoted
      by_cases hquote : c = '"'
      · subst hquote
        have hstep := h.step (by decide)
        obtain ⟨front, back, rfl, hquotes, hargs⟩ :=
          @quotedEnd_eq _ _ _ (byteLength source + 1) hstep (by omega)
        have hend := hstep.advance.le
        have hless : back.length < n := by
          rw [← hn, List.length_cons, List.length_append]
          omega
        obtain ⟨fuel, rfl⟩ : ∃ m, fuel = m + 1 := ⟨fuel - 1, by omega⟩
        rw [argumentsEnd_succ h, if_neg (by simp), if_neg (by simp), if_neg (by simp), if_neg (by simp),
          if_neg (by simp), if_pos (by simp), hquotes]
        show argumentsEnd source (fuel + 1) (i + 1 + byteLength front) lines = _
        rw [ih back.length hless hstep.advance hend fuel (by omega) rfl]
        obtain ⟨rfl, hback⟩ := Prod.mk.inj (harg.symm.trans hargs)
        have hcount : count = (arguments false back).2.2 := congrArg Prod.snd hback
        show Except.ok (i + 1 + byteLength front + byteLength (arguments false back).1, _)
          = .ok (i + (1 + byteLength (front ++ (arguments false back).1)), lines + count)
        rw [byteLength_append, hcount]
        congr 2
        omega
      · have hend := h.next.le
        have harg : arguments false cs = (text, rest, count) := by
          rw [beq_false_of_ne hquote] at harg
          exact harg
        obtain ⟨fuel, rfl⟩ : ∃ m, fuel = m + c.utf8Size := ⟨fuel - c.utf8Size, by omega⟩
        rw [Nat.add_right_comm, argumentsEnd_plain h hline hquote (take_two_ne fun t => hslash t rfl)
          (take_two_ne fun t => hstar t rfl) (take_two_ne fun t => hescape t rfl),
          ih cs.length (hn ▸ Nat.lt_succ_self _) h.next hend fuel (by omega) rfl, harg]
        show Except.ok (i + c.utf8Size + byteLength text, _) = .ok (i + (c.utf8Size + byteLength text), _)
        rw [Nat.add_assoc]

variable {c : Cursor}

theorem blunt_isInnerBlank : Blunt isInnerBlank false := by
  intro a ha
  have hne : ∀ d : Char, d.toNat < 128 → a ≠ d := fun d hd => wide_ne ha hd
  simp [isInnerBlank, hne ' ' (by decide), hne '\t' (by decide)]

theorem placeAfterNewline_eq (hfew : FewLines source) (h : c.Within source) {text rest : List Char}
    (htext : c.rest = text ++ rest) {lines : Nat} (hlines : lines ≤ newlines text) :
    placeAfterNewline source (c.position.offset + byteLength text) (c.position.line + lines)
      = .ok (c.advance (text ++ (splitNewline rest).1) (splitNewline rest).2
        (lines + (splitNewline rest).1.length)) := by
  have hat : At source (c.position.offset + byteLength text) rest := At.advance (htext ▸ h.at)
  unfold placeAfterNewline
  simp only [hat.byte_iff (a := '\n') (by decide)]
  fun_cases splitNewline rest with
  | case1 rest =>
    have hplace := @place_advance _ _ hfew h (text ++ ['\n']) rest (by simp [htext]) (lines + 1)
      (by rw [newlines_append]; exact Nat.add_le_add_right hlines 1)
    rw [byteLength_append] at hplace
    rw [if_pos (by simp)]
    exact hplace
  | case2 rest hrest =>
    have hne : rest.head? ≠ some '\n' := by
      intro hhead
      obtain ⟨tail, rfl⟩ := List.head?_eq_some_iff.1 hhead
      exact hrest tail rfl
    rw [if_neg hne, List.append_nil]
    exact place_advance hfew h htext hlines

/-- A directive line is read without failure. -/
theorem directive_eq (hfew : FewLines source) (h : c.Within source) (hash : Token) :
    directive source hash c.position = .ok (DirectiveLine.read hash c) := by
  have hinner : nameOf c.rest ++ tailOf c.rest = inner c.rest := List.takeWhile_append_dropWhile
  have htail : argumentsOf c.rest ++ stopOf c.rest = tailOf c.rest := arguments_append false _
  have htext : c.rest = (c.rest.takeWhile isInnerBlank ++ nameOf c.rest ++ argumentsOf c.rest)
      ++ stopOf c.rest := by
    rw [List.append_assoc, List.append_assoc, htail, hinner]
    exact List.takeWhile_append_dropWhile.symm
  have hlines : (arguments false (tailOf c.rest)).2.2
      ≤ newlines (c.rest.takeWhile isInnerBlank ++ nameOf c.rest ++ argumentsOf c.rest) := by
    rw [newlines_append, arguments_lines]
    exact Nat.le_add_left _ _
  have hplace := placeAfterNewline_eq hfew h htext hlines
  rw [byteLength_append, byteLength_append, ← Nat.add_assoc, ← Nat.add_assoc] at hplace
  have hblank : _ ∧ At source _ (inner c.rest) := h.at.run blunt_isInnerBlank
  have hname : _ = _ + byteLength (nameOf c.rest) ∧ At source _ (tailOf c.rest) :=
    hblank.2.run blunt_isNameChar
  have hargs := @argumentsEnd_eq _ _ _ (byteLength source + 1) 0 hname.2 (by omega)
  have hnameSlice := At.slice (hinner ▸ hblank.2)
  have hargsSlice := At.slice (htail ▸ hname.2)
  rw [hname.1] at hargs hargsSlice
  unfold directive
  dsimp only
  rw [hname.1, hnameSlice]
  show (argumentsEnd source _ _ _ >>= _) = _
  rw [hargs]
  show (slice source _ (_ + byteLength (argumentsOf c.rest)) >>= _) = _
  rw [hargsSlice]
  show (placeAfterNewline source (_ + byteLength (argumentsOf c.rest)) (_ + (0 + _)) >>= _) = _
  rw [hblank.1, Nat.zero_add]
  exact congrArg (· >>= _) hplace

/-! ## the rest of a line -/

/-- The cursor at the end of the line. -/
def placeAtLineEnd (source : List Char) (p : Position) : Except Fault Cursor :=
  place source (runFrom source (· != '\n') p.offset) p.line

theorem placeAtLineEnd_eq (hfew : FewLines source) (h : c.Within source) :
    placeAtLineEnd source c.position
      = .ok (c.advance (c.rest.takeWhile (· != '\n')) (c.rest.dropWhile (· != '\n')) 0) := by
  unfold placeAtLineEnd
  rw [(h.at.run blunt_inLine).1]
  exact place_advance hfew h List.takeWhile_append_dropWhile.symm (Nat.zero_le _)

/-! ## raw text -/

/-- One turn of the loop over raw text: it ends, at the terminator or not and in quotes or not, or goes
on at an offset. -/
def rawTurn (source : List Char) (terminator : Char) (respectQuotes : Bool) (i : Nat) (inQuotes : Bool) :
    Except Fault ((Nat × Bool × Bool) ⊕ (Nat × Bool)) := do
  match ← textFrom source i with
  | [] => return .inl (i, false, inQuotes)
  | c :: _ =>
    if c = '\n' then return .inl (i, false, inQuotes)
    else if c = '\\' then
      let escaped ← textFrom source (i + 1)
      return .inr (i + 1 + (escaped.head?.map Char.utf8Size).getD 0, inQuotes)
    else if c = '"' ∧ respectQuotes then return .inr (i + 1, !inQuotes)
    else if c = terminator ∧ !inQuotes then return .inl (i, true, inQuotes)
    else return .inr (i + c.utf8Size, inQuotes)

/-- The loop over raw text that began at `start`. -/
def rawEnd (source : List Char) (terminator : Char) (respectQuotes : Bool) (start : Nat) :
    Nat → Nat → Bool → Except Fault (Except Cause (Nat × Bool × Bool))
  | 0, _, _ => .error .stalled
  | fuel + 1, i, inQuotes => do
    match ← rawTurn source terminator respectQuotes i inQuotes with
    | .inl ended => return .ok ended
    | .inr (stop, inQuotes) =>
      if maxText < stop - start then return .error (.stringTooLong maxText)
      else rawEnd source terminator respectQuotes start fuel stop inQuotes

variable {terminator : Char} {respectQuotes inQuotes : Bool}

theorem rawTurn_escape (h : At source i ('\\' :: cs)) :
    rawTurn source terminator respectQuotes i inQuotes
      = .ok (.inr (i + 1 + byteLength (cs.take 1), inQuotes)) := by
  unfold rawTurn
  rw [textFrom_eq h]
  show (textFrom source (i + 1) >>= _) = _
  rw [textFrom_eq (h.step (by decide))]
  cases cs <;> rfl

theorem rawTurn_plain {a : Char} (h : At source i (a :: cs)) (hline : a ≠ '\n') (hescape : a ≠ '\\') :
    rawTurn source terminator respectQuotes i inQuotes = .ok (
      if !(a == '"' && respectQuotes) && a == terminator && !inQuotes then .inl (i, true, false)
      else .inr (i + a.utf8Size, inQuotes != (a == '"' && respectQuotes))) := by
  unfold rawTurn
  rw [textFrom_eq h]
  show (if a = '\n' then _ else if a = '\\' then _ else _) = _
  rw [if_neg hline, if_neg hescape]
  by_cases hquote : a = '"' ∧ respectQuotes = true
  · obtain ⟨rfl, rfl⟩ := hquote
    rw [if_pos ⟨rfl, rfl⟩]
    cases inQuotes <;> rfl
  · have hnot : (a == '"' && respectQuotes) = false := by simpa using hquote
    rw [if_neg hquote, hnot]
    by_cases hend : a = terminator ∧ (!inQuotes) = true
    · obtain rfl : inQuotes = false := by simpa using hend.2
      rw [if_pos hend, if_pos (by simpa using hend.1)]
      rfl
    · rw [if_neg hend, if_neg (by simpa using hend), Bool.bne_false]
      rfl

theorem rawEnd_nil (h : At source i []) (start fuel : Nat) :
    rawEnd source terminator respectQuotes start (fuel + 1) i inQuotes
      = .ok (.ok (i, false, inQuotes)) := by
  rw [rawEnd, rawTurn, textFrom_eq h]
  rfl

theorem rawEnd_turn {start stop fuel : Nat} {quotes : Bool}
    (h : rawTurn source terminator respectQuotes i inQuotes = .ok (.inr (stop, quotes))) :
    rawEnd source terminator respectQuotes start (fuel + 1) i inQuotes =
      if maxText < stop - start then .ok (.error (.stringTooLong maxText))
      else rawEnd source terminator respectQuotes start fuel stop quotes := by
  rw [rawEnd, h]
  rfl

/-- Raw text ends where it ends on characters. -/
theorem rawEnd_eq {start used fuel : Nat} (h : At source i cs) (hused : i = start + used)
    (hfuel : byteLength source < fuel + i) :
    rawEnd source terminator respectQuotes start fuel i inQuotes
      = .ok ((RawText.scan terminator respectQuotes used inQuotes cs).map fun r =>
        (i + byteLength r.text, r.atTerminator, r.inQuotes)) := by
  have hle := h.le
  obtain ⟨fuel, rfl⟩ : ∃ m, fuel = m + 1 := ⟨fuel - 1, by omega⟩
  fun_induction RawText.scan terminator respectQuotes used inQuotes cs generalizing i fuel with
  | case1 used inQuotes => exact rawEnd_nil h start fuel
  | case2 used inQuotes cs =>
    rw [rawEnd, rawTurn, textFrom_eq h]
    rfl
  | case3 used inQuotes hlimit =>
    rw [rawEnd_turn (rawTurn_escape h), if_pos]
    · rfl
    · show maxText < i + 1 + 0 - start
      omega
  | case4 used inQuotes hlimit =>
    have hlt := h.lt
    obtain ⟨fuel, rfl⟩ : ∃ m, fuel = m + 1 := ⟨fuel - 1, by omega⟩
    rw [rawEnd_turn (rawTurn_escape h), if_neg]
    · exact rawEnd_nil (h.step (by decide)) start fuel
    · show ¬ maxText < i + 1 + 0 - start
      omega
  | case5 used inQuotes c cs total =>
    rename_i hlimit
    replace hlimit : maxText < used + 1 + c.utf8Size := hlimit
    rw [rawEnd_turn (rawTurn_escape h), if_pos]
    · rfl
    · show maxText < i + 1 + c.utf8Size - start
      omega
  | case6 used inQuotes c cs total hlimit =>
    rename_i ih
    replace hlimit : ¬ maxText < used + 1 + c.utf8Size := hlimit
    have hstep := (h.step (by decide)).next
    have hend := hstep.le
    obtain ⟨fuel, rfl⟩ : ∃ m, fuel = m + 1 := ⟨fuel - 1, by omega⟩
    rw [rawEnd_turn (rawTurn_escape h), if_neg]
    · have htotal : i + 1 + c.utf8Size = start + (used + 1 + c.utf8Size) := by omega
      refine (ih hstep htotal hend fuel (by omega)).trans ?_
      apply congrArg Except.ok
      cases RawText.scan terminator respectQuotes (used + 1 + c.utf8Size) inQuotes cs with
      | error cause => rfl
      | ok r =>
        show Except.ok (i + 1 + c.utf8Size + byteLength r.text, _)
          = .ok (i + (1 + (c.utf8Size + byteLength r.text)), _)
        congr 2
        omega
    · show ¬ maxText < i + 1 + c.utf8Size - start
      omega
  | case7 used inQuotes c cs hline hlast hescape quote =>
    rename_i hend
    rw [rawEnd, rawTurn_plain h hline (noEscape hlast hescape), if_pos hend]
    rfl
  | case8 used inQuotes c cs hline hlast hescape quote hend total =>
    rename_i hlimit
    replace hlimit : maxText < used + c.utf8Size := hlimit
    have hturn := @rawTurn_plain _ _ _ terminator respectQuotes inQuotes _ h hline
      (noEscape hlast hescape)
    rw [if_neg hend] at hturn
    rw [rawEnd_turn hturn, if_pos (by omega)]
    rfl
  | case9 used inQuotes c cs hline hlast hescape quote hend total =>
    rename_i hlimit ih
    replace hlimit : ¬ maxText < used + c.utf8Size := hlimit
    have hturn := @rawTurn_plain _ _ _ terminator respectQuotes inQuotes _ h hline
      (noEscape hlast hescape)
    have hafter := h.next.le
    have hpos := c.utf8Size_pos
    obtain ⟨fuel, rfl⟩ : ∃ m, fuel = m + 1 := ⟨fuel - 1, by omega⟩
    rw [if_neg hend] at hturn
    rw [rawEnd_turn hturn, if_neg (by omega)]
    refine (ih h.next (hused ▸ Nat.add_assoc ..) hafter fuel (by omega)).trans ?_
    apply congrArg Except.ok
    cases RawText.scan terminator respectQuotes total (inQuotes != quote) cs with
    | error cause => rfl
    | ok r =>
      show Except.ok (i + c.utf8Size + byteLength r.text, _) = .ok (i + (c.utf8Size + byteLength r.text), _)
      rw [Nat.add_assoc]
      rfl

end Bytewise

end HeaderLex
