import HeaderLex.Proofs.Bytes
import HeaderLex.Proofs.Cursor

/-!
# Reading by bytes: gaps

The readers once more, as they work on the bytes of a source: each gets the source, an offset and a
line number, compares single bytes, and takes texts out of the source by slices that can go wrong.
They do the same as the readers on characters, so no slice goes wrong.

* `place`          the cursor at an offset and a line; the offset may be wrong, the line too large;
* `FewLines`       the line number after the source fits into its word;
* `place_advance`  the cursor after a text;
* `isLineStart`    only blank bytes stand before an offset on its line;
* `gapTurn`, `gap` the loop over a gap;
* `gap_eq`         it steps over the gap, and never fails.
-/

namespace HeaderLex

open Text

/-! ## places -/

namespace Bytewise

/-- The cursor at an offset, on a line. -/
def place (source : List Char) (offset line : Nat) : Except Fault Cursor :=
  match cutAt? offset source with
  | none => .error .badSlice
  | some (before, rest) =>
    if line < Position.lineBound then .ok ⟨before.reverse, rest, ⟨offset, line⟩⟩
    else .error .overflow

/-- The text from an offset on. -/
def textFrom (source : List Char) (i : Nat) : Except Fault (List Char) :=
  slice source i (byteLength source)

/-- Only blank bytes stand before an offset on its line. -/
def isLineStart (source : List Char) (i : Nat) : Bool :=
  lastLineBlank ((bytes source).take (min i (bytes source).length)).reverse

/-- The line number after the source fits into its word. -/
def FewLines (source : List Char) : Prop := newlines source + 1 < Position.lineBound

end Bytewise

open Bytewise

variable {source : List Char} {c : Cursor}

theorem Cursor.Within.at (h : c.Within source) : At source c.position.offset c.rest :=
  ⟨c.before.reverse, h.text, by rw [byteLength_reverse, h.offset]⟩

namespace Bytewise

theorem ok_bind {ε α β : Type} (a : α) (f : α → Except ε β) : (Except.ok a >>= f) = f a := rfl

theorem line_lt (hfew : FewLines source) (h : c.Within source) :
    c.position.line < Position.lineBound := by
  have hcount : newlines c.before + newlines c.rest = newlines source := by
    rw [← h.text, newlines_append, newlines_reverse]
  have hline := h.line
  unfold FewLines at hfew
  omega

theorem place_eq (hfew : FewLines source) (h : c.Within source) :
    place source c.position.offset c.position.line = .ok c := by
  have hline := line_lt hfew h
  obtain ⟨before, rest, ⟨offset, line⟩⟩ := c
  obtain ⟨rfl, hoffset, -⟩ := h
  replace hoffset : offset = byteLength before.reverse := hoffset.trans (byteLength_reverse _).symm
  unfold place
  simp only [hoffset, cutAt?_append, if_pos hline, List.reverse_reverse]

/-- The place after a text that stands at the cursor. -/
theorem place_advance (hfew : FewLines source) (h : c.Within source) {text rest : List Char}
    (htext : c.rest = text ++ rest) {lines : Nat} (hlines : lines ≤ newlines text) :
    place source (c.position.offset + byteLength text) (c.position.line + lines)
      = .ok (c.advance text rest lines) :=
  place_eq hfew (h.advance htext hlines)

-- an offset inside a character, and a line number that does not fit
example : (place ['ß', 'x'] 1 1).isOk = false ∧ (place ['x'] 1 Position.lineBound).isOk = false := by
  decide +kernel

theorem textFrom_eq {i : Nat} {rest : List Char} (h : At source i rest) :
    textFrom source i = .ok rest := h.tail

theorem blunt_isLineBlank : Blunt isLineBlank false := by
  intro a ha
  have hne : ∀ d : Char, d.toNat < 128 → a ≠ d := fun d hd => wide_ne ha hd
  unfold isLineBlank
  simp [hne ' ' (by decide), hne '\t' (by decide), hne '\r' (by decide),
    hne '\x0b' (by decide), hne '\x0c' (by decide)]

theorem blunt_inLine : Blunt (· != '\n') true := by
  intro a ha
  simpa using wide_ne ha (by decide)

/-- The last line of a text is blank if its bytes are. -/
theorem lastLineBlank_bytes (cs : List Char) :
    lastLineBlank (bytes cs.reverse).reverse = lastLineBlank cs := by
  induction cs with
  | nil => rfl
  | cons a cs ih =>
    rw [List.reverse_cons, bytes_append, List.reverse_append, bytes_cons, bytes_nil, List.append_nil]
    by_cases ha : a.toNat < 128
    · rw [charBytes_narrow ha, List.reverse_singleton, List.singleton_append]
      unfold lastLineBlank at ih ⊢
      rw [List.takeWhile_cons, List.takeWhile_cons]
      split
      · rw [List.all_cons, List.all_cons, ih]
      · rfl
    · have hwide := Nat.not_lt.1 ha
      -- a wide character and all its bytes are neither blank nor a line feed
      have hnot : ∀ {b : Char} (bs : List Char), 128 ≤ b.toNat → lastLineBlank (b :: bs) = false := by
        intro b bs hb
        have hin : (b != '\n') = true := blunt_inLine b hb
        unfold lastLineBlank
        rw [List.takeWhile_cons, hin, if_pos rfl, List.all_cons, blunt_isLineBlank b hb, Bool.false_and]
      rw [hnot cs hwide]
      cases hbs : (charBytes a).reverse with
      | nil => exact absurd (List.reverse_eq_nil_iff.1 hbs) (charBytes_ne_nil a)
      | cons b bs =>
        refine hnot _ (charBytes_wide hwide b ?_)
        rw [← List.mem_reverse, hbs]
        exact List.mem_cons_self

theorem isLineStart_eq (h : c.Within source) :
    isLineStart source c.position.offset = c.atLineStart := by
  have hle := h.at.le
  unfold isLineStart
  rw [length_bytes, Nat.min_eq_left (by omega), h.offset, ← h.text, bytes_append,
    ← byteLength_reverse, ← length_bytes, List.take_left]
  exact lastLineBlank_bytes c.before

/-! ## gaps -/

/-- Steps over the line comment at the cursor. -/
def lineComment (source : List Char) (m : Margin) : Except Fault Margin := do
  let i := m.cursor.position.offset
  let stop := runFrom source (· != '\n') i
  let text ← slice source i stop
  let noted := m.collect .line (dropEndWhile (· == '\r') text) !isLineStart source i
  return { noted with cursor := ← place source stop m.cursor.position.line }

/-- Steps over the block comment at the cursor, if it is closed. -/
def blockComment (source : List Char) (m : Margin) : Except Fault (Option Margin) := do
  let i := m.cursor.position.offset
  match GapPiece.closeComment? (← textFrom source (i + 2)) with
  | none => return none
  | some (body, _) =>
    let stop := i + 2 + byteLength body + 2
    let text ← slice source i stop
    -- the number of line feeds is cut to a word before it is added
    let line := m.cursor.position.line + newlines text % Position.lineBound
    return some { m.collect .block text false with cursor := ← place source stop line }

/-- One turn of the loop over a gap: it ends, or steps over a piece. -/
def gapTurn (source : List Char) (m : Margin) :
    Except Fault ((Option Cause × Margin) ⊕ Margin) := do
  let i := m.cursor.position.offset
  let line := m.cursor.position.line
  if byteLength source ≤ i then
    return .inl (none, m)
  else if byteAt source i = '\n' then
    return .inr { m with cursor := ← place source (i + 1) (line + 1), comments := m.comments.newline }
  else if isLineBlank (byteAt source i) then
    return .inr { m with cursor := ← place source (i + 1) line }
  else if byteAt source i = '\\' ∧ byteAt source (i + 1) = '\n' then
    return .inr { m with cursor := ← place source (i + 2) (line + 1) }
  else if byteAt source i = '\\' ∧ byteAt source (i + 1) = '\r' ∧ byteAt source (i + 2) = '\n' then
    return .inr { m with cursor := ← place source (i + 3) (line + 1) }
  else if byteAt source i = '/' ∧ byteAt source (i + 1) = '/' then
    return .inr (← lineComment source m)
  else if byteAt source i = '/' ∧ byteAt source (i + 1) = '*' then
    match ← blockComment source m with
    | none => return .inl (some .unterminatedComment, m)
    | some m => return .inr m
  else if byteAt source i = '*' ∧ byteAt source (i + 1) = '/' then
    return .inl (some .unexpectedCommentClose, m)
  else
    return .inl (none, { m with comments := m.comments.reachToken })

/-- The loop over a gap. -/
def gap (source : List Char) : Nat → Margin → Except Fault (Option Cause × Margin)
  | 0, _ => .error .stalled
  | fuel + 1, m => do
    match ← gapTurn source m with
    | .inl ended => return ended
    | .inr m => gap source fuel m

variable {m : Margin} {cs : List Char}

theorem lineComment_eq (hfew : FewLines source) (h : m.cursor.Within source)
    (hrest : m.cursor.rest = '/' :: '/' :: cs) :
    lineComment source m = .ok (m.pass (.lineComment (cs.takeWhile (· != '\n')))
      (cs.dropWhile (· != '\n'))) := by
  have hat := h.at
  rw [hrest] at hat
  have hrun : runFrom source (· != '\n') m.cursor.position.offset = m.cursor.position.offset +
      byteLength ('/' :: '/' :: cs.takeWhile (· != '\n')) := (hat.run blunt_inLine).1
  have htext : '/' :: '/' :: cs
      = ('/' :: '/' :: cs.takeWhile (· != '\n')) ++ cs.dropWhile (· != '\n') := by
    rw [List.cons_append, List.cons_append, List.takeWhile_append_dropWhile]
  have hplace := @place_advance _ _ hfew h _ _ (hrest.trans htext) 0 (Nat.zero_le _)
  unfold lineComment
  dsimp only
  rw [hrun, At.slice (htext ▸ hat), isLineStart_eq h]
  show (place source _ (_ + 0) >>= _) = _
  rw [hplace]
  rfl

theorem blockComment_eq (hfew : FewLines source) (h : m.cursor.Within source)
    (hrest : m.cursor.rest = '/' :: '*' :: cs) :
    blockComment source m = .ok ((GapPiece.closeComment? cs).map fun p =>
      m.pass (.blockComment p.1) p.2) := by
  have hat := h.at
  rw [hrest] at hat
  have hbody : textFrom source (m.cursor.position.offset + 2) = .ok cs :=
    textFrom_eq ((hat.step (by decide)).step (by decide))
  unfold blockComment
  dsimp only
  rw [hbody, ok_bind]
  cases hclose : GapPiece.closeComment? cs with
  | none => rfl
  | some p =>
    obtain ⟨body, after⟩ := p
    have hnext : GapPiece.next? ('/' :: '*' :: cs) = .ok (some (.blockComment body, after)) := by
      simp [GapPiece.next?, hclose]
    have htext := GapPiece.next?_eq hnext
    have hlines : newlines body = newlines (GapPiece.blockComment body).text :=
      GapPiece.lines_eq (GapPiece.next?_stands hnext)
    have hstop : m.cursor.position.offset + 2 + byteLength body + 2
        = m.cursor.position.offset + byteLength (GapPiece.blockComment body).text := by
      have hlength : byteLength (GapPiece.blockComment body).text = 1 + (1 + (byteLength body + 2)) := by
        show 1 + (1 + byteLength (body ++ ['*', '/'])) = _
        rw [byteLength_append]
        rfl
      omega
    have hword : newlines (GapPiece.blockComment body).text % Position.lineBound = newlines body := by
      rw [← hlines]
      apply Nat.mod_eq_of_lt
      have hsource := h.text
      rw [hrest, htext] at hsource
      unfold FewLines at hfew
      rw [← hsource, newlines_append, newlines_append, ← hlines] at hfew
      omega
    have hplace := @place_advance _ _ hfew h _ _ (hrest.trans htext) _ (Nat.le_of_eq hlines)
    show (slice source _ _ >>= _) = _
    rw [hstop, At.slice (htext ▸ hat)]
    show (place source _ (_ + newlines _ % _) >>= _) = _
    rw [hword, hplace]
    rfl

theorem take_two_ne {a x y : Char} {cs : List Char} (h : ∀ t, a = x → cs = y :: t → False) :
    (a :: cs).take 2 ≠ [x, y] := by
  intro heq
  cases cs with
  | nil => simp at heq
  | cons b t =>
    obtain ⟨rfl, rfl⟩ : a = x ∧ b = y := by simpa using heq
    exact h t rfl rfl

/-- What a turn of the loop does, by the piece at the cursor. -/
def turnOf (m : Margin) : (Option Cause × Margin) ⊕ Margin :=
  match GapPiece.next? m.cursor.rest with
  | .error cause => .inl (some cause, m)
  | .ok none =>
    .inl (none, if m.cursor.rest.isEmpty then m else { m with comments := m.comments.reachToken })
  | .ok (some (p, rest)) => .inr (m.pass p rest)

theorem gapTurn_eq (hfew : FewLines source) (h : m.cursor.Within source) :
    gapTurn source m = .ok (turnOf m) := by
  have hat := h.at
  unfold gapTurn turnOf
  simp only [hat.byte_iff (a := '\n') (by decide), hat.test blunt_isLineBlank (by decide),
    hat.pair_iff (a := '\\') (b := '\n') (by decide) (by decide),
    hat.triple_iff (a := '\\') (b := '\r') (d := '\n') (by decide) (by decide) (by decide),
    hat.pair_iff (a := '/') (b := '/') (by decide) (by decide),
    hat.pair_iff (a := '/') (b := '*') (by decide) (by decide),
    hat.pair_iff (a := '*') (b := '/') (by decide) (by decide)]
  generalize hrest : m.cursor.rest = rest at hat ⊢
  fun_cases GapPiece.next? rest with
  | case1 =>
    have hle : byteLength source ≤ m.cursor.position.offset := Nat.le_of_eq hat.le.symm
    rw [if_pos hle]
    rfl
  | case2 cs =>
    have hplace := @place_advance _ _ hfew h ['\n'] cs hrest 1 (by decide)
    rw [if_neg hat.lt, if_pos (by simp)]
    exact congrArg (· >>= _) hplace
  | case3 cs =>
    have hplace := @place_advance _ _ hfew h ['\\', '\n'] cs hrest 1 (by decide)
    rw [if_neg hat.lt, if_neg (by simp), if_neg (by simp [isLineBlank]), if_pos (by simp)]
    exact congrArg (· >>= _) hplace
  | case4 cs =>
    have hplace := @place_advance _ _ hfew h ['\\', '\r', '\n'] cs hrest 1 (by decide)
    rw [if_neg hat.lt, if_neg (by simp), if_neg (by simp [isLineBlank]), if_neg (by simp),
      if_pos (by simp)]
    exact congrArg (· >>= _) hplace
  | case5 cs =>
    rw [if_neg hat.lt, if_neg (by simp), if_neg (by simp [isLineBlank]), if_neg (by simp),
      if_neg (by simp), if_pos (by simp), lineComment_eq hfew h hrest]
    rfl
  | case6 cs body after hclose =>
    rw [if_neg hat.lt, if_neg (by simp), if_neg (by simp [isLineBlank]), if_neg (by simp),
      if_neg (by simp), if_neg (by simp), if_pos (by simp), blockComment_eq hfew h hrest, hclose]
    rfl
  | case7 cs hclose =>
    rw [if_neg hat.lt, if_neg (by simp), if_neg (by simp [isLineBlank]), if_neg (by simp),
      if_neg (by simp), if_neg (by simp), if_pos (by simp), blockComment_eq hfew h hrest, hclose]
    rfl
  | case8 cs =>
    rw [if_neg hat.lt, if_neg (by simp), if_neg (by simp [isLineBlank]), if_neg (by simp),
      if_neg (by simp), if_neg (by simp), if_neg (by simp), if_pos (by simp)]
    rfl
  | case9 a cs h1 _ _ _ _ _ hblank =>
    have hplace := @place_advance _ _ hfew h [a] cs hrest 0 (Nat.zero_le _)
    rw [byteLength_cons, utf8Size_narrow (blunt_isLineBlank.narrow hblank)] at hplace
    rw [if_neg hat.lt, if_neg (by simpa using h1), if_pos (by simpa using hblank)]
    exact congrArg (· >>= _) hplace
  | case10 a cs h1 h2 h3 h4 h5 h6 hblank =>
    have hthree : (a :: cs).take 3 ≠ ['\\', '\r', '\n'] := by
      intro heq
      obtain ⟨rfl, htake⟩ := List.cons.inj heq
      have hcs : cs = '\r' :: '\n' :: cs.drop 2 := by
        have happend := List.take_append_drop 2 cs
        rw [htake] at happend
        exact happend.symm
      exact h3 _ rfl hcs
    rw [if_neg hat.lt, if_neg (by simpa using h1), if_neg (by simpa using hblank), if_neg (take_two_ne h2),
      if_neg hthree, if_neg (take_two_ne h4), if_neg (take_two_ne h5), if_neg (take_two_ne h6)]
    rfl

/-- A gap is stepped over without failure. -/
theorem gap_eq (hfew : FewLines source) (h : m.cursor.Within source) {fuel : Nat}
    (hfuel : m.cursor.rest.length < fuel) : gap source fuel m = .ok m.skip := by
  induction fuel generalizing m with
  | zero => exact absurd hfuel (Nat.not_lt_zero _)
  | succ fuel ih =>
    unfold gap
    rw [gapTurn_eq hfew h]
    unfold turnOf
    fun_cases Margin.skip m with
    | case1 cause hnext =>
      rw [hnext]
      rfl
    | case2 hnext =>
      rw [hnext]
      rfl
    | case3 p rest hnext =>
      have hpass : (m.pass p rest).cursor.Within source :=
        h.advance (GapPiece.next?_eq hnext)
          (Nat.le_of_eq (GapPiece.lines_eq (GapPiece.next?_stands hnext)))
      have hless := GapPiece.length_of_next? hnext
      rw [hnext]
      exact ih hpass (by rw [Margin.rest_pass]; omega)

end Bytewise

end HeaderLex
