import HeaderLex.Fault

/-!
# Byte lengths and byte cuts of texts

Offsets count UTF-8 bytes, texts are lists of characters.  `byteLength` measures, `cutAt?` cuts.

* `byteLength_append`   lengths add up;
* `cutAt?_append`       a text is cut exactly where a prefix of it ends;
* `cutAt?_eq_some`      a cut loses nothing and its first part has the asked length.
-/

namespace HeaderLex.Text

/-- Number of UTF-8 bytes of a text. -/
def byteLength : List Char → Nat
  | [] => 0
  | c :: cs => c.utf8Size + byteLength cs

@[simp] theorem byteLength_nil : byteLength [] = 0 := rfl

@[simp] theorem byteLength_cons (c : Char) (cs : List Char) :
    byteLength (c :: cs) = c.utf8Size + byteLength cs := rfl

@[simp] theorem byteLength_append (s t : List Char) :
    byteLength (s ++ t) = byteLength s + byteLength t := by
  induction s with
  | nil => simp
  | cons c s ih => simp [ih, Nat.add_assoc]

@[simp] theorem byteLength_reverse (s : List Char) : byteLength s.reverse = byteLength s := by
  induction s with
  | nil => rfl
  | cons c s ih => simp [ih, Nat.add_comm]

theorem byteLength_replicate (n : Nat) (c : Char) :
    byteLength (List.replicate n c) = n * c.utf8Size := by
  induction n with
  | zero => simp
  | succ n ih => rw [List.replicate_succ, byteLength_cons, ih, Nat.succ_mul, Nat.add_comm]

theorem length_le_byteLength (cs : List Char) : cs.length ≤ byteLength cs := by
  induction cs with
  | nil => exact Nat.le_refl 0
  | cons c cs ih =>
    have hpos := c.utf8Size_pos
    rw [List.length_cons, byteLength_cons]
    omega

/-- The two parts of a text on both sides of a byte offset; none if the offset lies beyond the
end or inside a character. -/
def cutAt? : Nat → List Char → Option (List Char × List Char)
  | 0, cs => some ([], cs)
  | _ + 1, [] => none
  | n + 1, c :: cs =>
    if c.utf8Size ≤ n + 1 then
      (cutAt? (n + 1 - c.utf8Size) cs).map fun p => (c :: p.1, p.2)
    else none
termination_by _ cs => cs.length

theorem cutAt?_append (s t : List Char) : cutAt? (byteLength s) (s ++ t) = some (s, t) := by
  induction s with
  | nil => rw [byteLength_nil, List.nil_append, cutAt?]
  | cons c s ih =>
    have hc : 0 < c.utf8Size := c.utf8Size_pos
    obtain ⟨n, hn⟩ : ∃ n, c.utf8Size + byteLength s = n + 1 := ⟨_, (Nat.succ_pred (by omega)).symm⟩
    rw [byteLength_cons, hn, List.cons_append, cutAt?, if_pos (by omega)]
    have : n + 1 - c.utf8Size = byteLength s := by omega
    rw [this, ih]
    rfl

theorem cutAt?_eq_some {n : Nat} {cs s t : List Char} (h : cutAt? n cs = some (s, t)) :
    cs = s ++ t ∧ byteLength s = n := by
  induction cs generalizing n s with
  | nil =>
    cases n with
    | zero => rw [cutAt?] at h; simp_all
    | succ n => rw [cutAt?] at h; simp at h
  | cons c cs ih =>
    cases n with
    | zero => rw [cutAt?] at h; simp_all
    | succ n =>
      rw [cutAt?] at h
      split at h
      · obtain ⟨⟨s', t'⟩, hp, he⟩ := Option.map_eq_some_iff.1 h
        obtain ⟨rfl, rfl⟩ := Prod.mk.inj he
        obtain ⟨h1, h2⟩ := ih hp
        exact ⟨by simp [h1], by simp [h2]; omega⟩
      · simp at h

/-- The part of a text between two byte offsets. -/
def slice (cs : List Char) (start stop : Nat) : Except Fault (List Char) :=
  if start ≤ stop then
    match cutAt? start cs with
    | none => .error .badSlice
    | some (_, rest) =>
      match cutAt? (stop - start) rest with
      | none => .error .badSlice
      | some (piece, _) => .ok piece
  else .error .badSlice

/-- A piece is cut out of the text that surrounds it. -/
theorem slice_append (s t u : List Char) :
    slice (s ++ (t ++ u)) (byteLength s) (byteLength s + byteLength t) = .ok t := by
  have hn : byteLength s + byteLength t - byteLength s = byteLength t := by omega
  rw [slice, if_pos (by omega), cutAt?_append]
  simp only [hn, cutAt?_append]

/-- Number of line feeds in a text. -/
def newlines (cs : List Char) : Nat := cs.count '\n'

@[simp] theorem newlines_append (s t : List Char) :
    newlines (s ++ t) = newlines s + newlines t := List.count_append

end HeaderLex.Text
