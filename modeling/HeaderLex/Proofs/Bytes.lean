import HeaderLex.Lexer.Cursor
import HeaderLex.Text.Utf8

/-!
# The bytes of a text

A source can be read by bytes as well as by characters.  A byte of a text is given here as the
character with its number, so bytes and characters are tested alike: below 128 they are the same, and
all bytes of other characters are from 128 on.

* `Text.bytes`          the UTF-8 bytes of a text;
* `Blunt`               a test that does not tell characters from 128 on apart;
* `At`                  an offset stands before the rest of a text;
* `At.run`              a run of bytes is a run of characters;
* `At.slice`            a slice between two such offsets is never out of range or inside a character.
-/

namespace HeaderLex

namespace Text

/-- The bytes of a character. -/
def charBytes (c : Char) : List Char := (String.utf8EncodeChar c).map fun b => Char.ofNat b.toNat

/-- The bytes of a text. -/
def bytes (cs : List Char) : List Char := cs.flatMap charBytes

@[simp] theorem bytes_nil : bytes [] = [] := rfl

@[simp] theorem bytes_cons (c : Char) (cs : List Char) : bytes (c :: cs) = charBytes c ++ bytes cs :=
  List.flatMap_cons

@[simp] theorem bytes_append (s t : List Char) : bytes (s ++ t) = bytes s ++ bytes t :=
  List.flatMap_append

theorem length_charBytes (c : Char) : (charBytes c).length = c.utf8Size := by
  unfold charBytes
  rw [List.length_map, String.length_utf8EncodeChar]

@[simp] theorem length_bytes (cs : List Char) : (bytes cs).length = byteLength cs := by
  induction cs with
  | nil => rfl
  | cons c cs ih => rw [bytes_cons, List.length_append, length_charBytes, ih, byteLength_cons]

theorem charBytes_ne_nil (c : Char) : charBytes c ≠ [] := by
  intro h
  have hlength := length_charBytes c
  rw [h] at hlength
  exact absurd hlength.symm (Nat.ne_of_gt c.utf8Size_pos)

/-- A narrow character is its only byte. -/
theorem charBytes_narrow {c : Char} (h : c.toNat < 128) : charBytes c = [c] := by
  have hle : c.val.toNat ≤ 127 := Nat.le_of_lt_succ h
  unfold charBytes String.utf8EncodeChar
  dsimp only
  rw [if_pos hle]
  have hbyte : (UInt8.ofNat c.val.toNat).toNat = c.val.toNat := by
    rw [UInt8.toNat_ofNat']
    exact Nat.mod_eq_of_lt (by omega)
  rw [List.map_cons, List.map_nil, hbyte]
  exact congrArg (· :: []) (Char.ofNat_toNat c)

theorem utf8Size_narrow {c : Char} (h : c.toNat < 128) : c.utf8Size = 1 := by
  rw [← length_charBytes, charBytes_narrow h]
  rfl

theorem toNat_ofNat_byte (b : UInt8) : (Char.ofNat b.toNat).toNat = b.toNat := by
  have hb : b.toNat < 256 := b.toNat_lt
  unfold Char.ofNat
  rw [dif_pos (.inl (by omega))]
  rfl

/-- All bytes of a wide character are from 128 on. -/
theorem charBytes_wide {c : Char} (h : 128 ≤ c.toNat) : ∀ b ∈ charBytes c, 128 ≤ b.toNat := by
  have hlow : ¬ c.val.toNat ≤ 127 := by
    have : c.toNat = c.val.toNat := rfl
    omega
  unfold charBytes String.utf8EncodeChar
  dsimp only
  rw [if_neg hlow]
  intro b hb
  obtain ⟨u, hu, rfl⟩ := List.mem_map.1 hb
  rw [toNat_ofNat_byte]
  have hrange : ∀ n, 128 ≤ n → n < 256 → 128 ≤ (UInt8.ofNat n).toNat := by
    intro n hn hn'
    rw [UInt8.toNat_ofNat', Nat.mod_eq_of_lt (by omega)]
    exact hn
  split at hu
  · simp only [List.mem_cons, List.not_mem_nil, or_false] at hu
    rcases hu with rfl | rfl <;> exact hrange _ (by omega) (by omega)
  · split at hu
    · simp only [List.mem_cons, List.not_mem_nil, or_false] at hu
      rcases hu with rfl | rfl | rfl <;> exact hrange _ (by omega) (by omega)
    · simp only [List.mem_cons, List.not_mem_nil, or_false] at hu
      rcases hu with rfl | rfl | rfl | rfl <;> exact hrange _ (by omega) (by omega)

theorem wide_ne {a d : Char} (ha : 128 ≤ a.toNat) (hd : d.toNat < 128) : a ≠ d := by
  rintro rfl
  omega

/-- The first byte of a text, or zero after its end. -/
def firstByte (cs : List Char) : Char := (bytes cs).head?.getD '\x00'

theorem firstByte_narrow {c : Char} (h : c.toNat < 128) (cs : List Char) : firstByte (c :: cs) = c := by
  unfold firstByte
  rw [bytes_cons, charBytes_narrow h]
  rfl

theorem firstByte_wide {c : Char} (h : 128 ≤ c.toNat) (cs : List Char) :
    128 ≤ (firstByte (c :: cs)).toNat := by
  unfold firstByte
  rw [bytes_cons]
  cases hc : charBytes c with
  | nil => exact absurd hc (charBytes_ne_nil c)
  | cons b bs => exact charBytes_wide h b (hc ▸ List.mem_cons_self)

/-- A narrow byte is met where the text begins with that character. -/
theorem firstByte_eq_iff {a : Char} (ha : a.toNat < 128) (hzero : a ≠ '\x00') (cs : List Char) :
    firstByte cs = a ↔ cs.head? = some a := by
  cases cs with
  | nil =>
    constructor
    · intro h
      exact absurd h.symm hzero
    · intro h
      cases h
  | cons c cs =>
    rw [List.head?_cons, Option.some.injEq]
    by_cases hc : c.toNat < 128
    · rw [firstByte_narrow hc]
    · have hwide := firstByte_wide (Nat.not_lt.1 hc) cs
      constructor
      · intro h
        rw [h] at hwide
        omega
      · intro h
        rw [h] at hc
        exact absurd ha hc

/-- The test does not tell wide characters apart. -/
def Blunt (p : Char → Bool) (wide : Bool) : Prop := ∀ c : Char, 128 ≤ c.toNat → p c = wide

/-- What passes a test that no wide character passes is narrow. -/
theorem Blunt.narrow {p : Char → Bool} (hp : Blunt p false) {c : Char} (hc : p c = true) :
    c.toNat < 128 := by
  apply Nat.lt_of_not_le
  intro hwide
  rw [hp c hwide] at hc
  cases hc

theorem takeWhile_bytes {p : Char → Bool} {wide : Bool} (hp : Blunt p wide) (cs : List Char) :
    (bytes cs).takeWhile p = bytes (cs.takeWhile p) := by
  induction cs with
  | nil => rfl
  | cons c cs ih =>
    rw [bytes_cons]
    by_cases hc : c.toNat < 128
    · rw [charBytes_narrow hc]
      cases hpc : p c with
      | true =>
        rw [List.takeWhile_cons_of_pos hpc, bytes_cons, charBytes_narrow hc, List.singleton_append,
          List.takeWhile_cons_of_pos hpc, ih]
        rfl
      | false =>
        rw [List.takeWhile_cons_of_neg (by simp [hpc]), List.singleton_append,
          List.takeWhile_cons_of_neg (by simp [hpc])]
        rfl
    · have hwide := Nat.not_lt.1 hc
      have hall : ∀ b ∈ charBytes c, p b = wide := fun b hb => hp b (charBytes_wide hwide b hb)
      cases wide with
      | true =>
        rw [List.takeWhile_append_of_pos hall, List.takeWhile_cons_of_pos (hp c hwide), bytes_cons, ih]
      | false =>
        rw [List.takeWhile_cons_of_neg (by simp [hp c hwide])]
        cases hbs : charBytes c with
        | nil => exact absurd hbs (charBytes_ne_nil c)
        | cons b bs =>
          have hb : p b = false := hall b (hbs ▸ List.mem_cons_self)
          rw [List.cons_append, List.takeWhile_cons_of_neg (by simp [hb])]
          rfl

/-- A test that no wide character passes, applied to the first byte. -/
theorem test_firstByte {p : Char → Bool} (hp : Blunt p false) (hzero : p '\x00' = false)
    (cs : List Char) : p (firstByte cs) = cs.head?.any p := by
  cases cs with
  | nil => exact hzero
  | cons c cs =>
    rw [List.head?_cons, Option.any_some]
    by_cases hc : c.toNat < 128
    · rw [firstByte_narrow hc]
    · rw [hp c (Nat.not_lt.1 hc)]
      exact hp _ (firstByte_wide (Nat.not_lt.1 hc) cs)

end Text

/-! ## offsets -/

open Text

/-- The offset stands between two characters of the source, before `rest`. -/
def At (source : List Char) (i : Nat) (rest : List Char) : Prop :=
  ∃ before, before ++ rest = source ∧ byteLength before = i

/-- The byte at an offset, or zero beyond the end. -/
def byteAt (source : List Char) (i : Nat) : Char := (bytes source)[i]?.getD '\x00'

theorem lt_of_wide {source : List Char} {i : Nat} (h : 128 ≤ (byteAt source i).toNat) :
    i < byteLength source := by
  rw [← length_bytes]
  apply Nat.lt_of_not_le
  intro hle
  unfold byteAt at h
  rw [List.getElem?_eq_none hle] at h
  exact absurd h (by decide)

/-- The first offset from `i` on whose byte does not pass the test. -/
def runFrom (source : List Char) (p : Char → Bool) (i : Nat) : Nat :=
  i + (((bytes source).drop i).takeWhile p).length

namespace At

variable {source rest text : List Char} {i : Nat}

theorem drop (h : At source i rest) : (bytes source).drop i = bytes rest := by
  obtain ⟨before, rfl, rfl⟩ := h
  rw [bytes_append, ← length_bytes, List.drop_left]

theorem le (h : At source i rest) : i + byteLength rest = byteLength source := by
  obtain ⟨before, rfl, rfl⟩ := h
  rw [byteLength_append]

theorem advance (h : At source i (text ++ rest)) : At source (i + byteLength text) rest := by
  obtain ⟨before, rfl, rfl⟩ := h
  exact ⟨before ++ text, List.append_assoc .., byteLength_append ..⟩

/-- The offset after a text. -/
theorem reach {cs : List Char} {j : Nat} (h : At source i cs) (hcs : text ++ rest = cs)
    (hj : j = i + byteLength text) : At source j rest := by
  subst hcs hj
  exact h.advance

theorem cutAt? (h : At source i rest) : (Text.cutAt? i source).map Prod.snd = some rest := by
  obtain ⟨before, rfl, rfl⟩ := h
  rw [cutAt?_append]
  rfl

theorem slice (h : At source i (text ++ rest)) :
    Text.slice source i (i + byteLength text) = .ok text := by
  obtain ⟨before, rfl, rfl⟩ := h
  exact slice_append before text rest

theorem tail (h : At source i rest) : Text.slice source i (byteLength source) = .ok rest := by
  rw [← h.le]
  exact slice (by rw [List.append_nil]; exact h)

theorem getElem? (h : At source i rest) (k : Nat) : (bytes source)[i + k]? = (bytes rest)[k]? := by
  rw [← h.drop, List.getElem?_drop]

theorem byteAt (h : At source i rest) : HeaderLex.byteAt source i = firstByte rest := by
  unfold HeaderLex.byteAt firstByte
  rw [← Nat.add_zero i, h.getElem? 0, List.head?_eq_getElem?]

theorem next {c : Char} (h : At source i (c :: rest)) : At source (i + c.utf8Size) rest :=
  @advance source rest [c] i h

/-- A step over a narrow character. -/
theorem step {c : Char} (h : At source i (c :: rest)) (hc : c.toNat < 128) :
    At source (i + 1) rest := by
  have hnext := h.next
  rw [utf8Size_narrow hc] at hnext
  exact hnext

/-- All bytes of a wide character are wide. -/
theorem inside {c : Char} (h : At source i (c :: rest)) (hc : 128 ≤ c.toNat) {k : Nat}
    (hk : k < c.utf8Size) : 128 ≤ (HeaderLex.byteAt source (i + k)).toNat := by
  rw [← length_charBytes] at hk
  unfold HeaderLex.byteAt
  rw [h.getElem? k, bytes_cons, List.getElem?_append_left hk, List.getElem?_eq_getElem hk]
  exact charBytes_wide hc _ (List.getElem_mem hk)

/-- A loop that steps over wide bytes one by one steps over the rest of a wide character. -/
theorem walk {α : Type} {F : Nat → Nat → α}
    (hstep : ∀ fuel j, 128 ≤ (HeaderLex.byteAt source j).toNat → F (fuel + 1) j = F fuel (j + 1))
    {c : Char} (h : At source i (c :: rest)) (hc : 128 ≤ c.toNat) (fuel : Nat) {n k : Nat}
    (hk : k + n = c.utf8Size) : F (fuel + n) (i + k) = F fuel (i + c.utf8Size) := by
  induction n generalizing k with
  | zero =>
    rw [← hk]
    rfl
  | succ n ih =>
    rw [← Nat.add_assoc, hstep _ _ (h.inside hc (by omega))]
    exact ih (k := k + 1) (by omega)

/-! ### tests on bytes

A byte other than zero and below 128 tells which character stands there. -/

theorem byte_iff (h : At source i rest) {a : Char} (ha : a.toNat < 128 ∧ a ≠ '\x00') :
    HeaderLex.byteAt source i = a ↔ rest.head? = some a := by
  rw [h.byteAt, firstByte_eq_iff ha.1 ha.2]

theorem pair_iff (h : At source i rest) {a b : Char} (ha : a.toNat < 128 ∧ a ≠ '\x00')
    (hb : b.toNat < 128 ∧ b ≠ '\x00') :
    HeaderLex.byteAt source i = a ∧ HeaderLex.byteAt source (i + 1) = b ↔ rest.take 2 = [a, b] := by
  rw [h.byte_iff ha]
  cases rest with
  | nil => simp
  | cons c cs =>
    rw [List.head?_cons, Option.some.injEq, List.take_succ_cons, List.cons.injEq]
    refine and_congr_right ?_
    rintro rfl
    rw [(h.step ha.1).byte_iff hb]
    cases cs <;> simp

theorem triple_iff (h : At source i rest) {a b d : Char} (ha : a.toNat < 128 ∧ a ≠ '\x00')
    (hb : b.toNat < 128 ∧ b ≠ '\x00') (hd : d.toNat < 128 ∧ d ≠ '\x00') :
    HeaderLex.byteAt source i = a ∧ HeaderLex.byteAt source (i + 1) = b ∧
      HeaderLex.byteAt source (i + 2) = d ↔ rest.take 3 = [a, b, d] := by
  rw [h.byte_iff ha]
  cases rest with
  | nil => simp
  | cons c cs =>
    rw [List.head?_cons, Option.some.injEq, List.take_succ_cons, List.cons.injEq]
    refine and_congr_right ?_
    rintro rfl
    exact (h.step ha.1).pair_iff hb hd

/-- A test that no wide character passes, at an offset. -/
theorem test (h : At source i rest) {p : Char → Bool} (hp : Blunt p false)
    (hzero : p '\x00' = false) : p (HeaderLex.byteAt source i) = rest.head?.any p := by
  rw [h.byteAt, test_firstByte hp hzero]

theorem lt {c : Char} (h : At source i (c :: rest)) : ¬ byteLength source ≤ i := by
  have hle := h.le
  have hpos := c.utf8Size_pos
  rw [byteLength_cons] at hle
  omega

theorem end_iff (h : At source i rest) : byteLength source ≤ i ↔ rest = [] := by
  cases rest with
  | nil => exact iff_of_true (Nat.le_of_eq h.le.symm) rfl
  | cons c rest => exact iff_of_false h.lt (List.cons_ne_nil c rest)

/-- A run of bytes stops where the run of characters stops. -/
theorem run (h : At source i rest) {p : Char → Bool} {wide : Bool} (hp : Blunt p wide) :
    runFrom source p i = i + byteLength (rest.takeWhile p) ∧
      At source (runFrom source p i) (rest.dropWhile p) := by
  have hrun : runFrom source p i = i + byteLength (rest.takeWhile p) := by
    unfold runFrom
    rw [h.drop, takeWhile_bytes hp, length_bytes]
  refine ⟨hrun, ?_⟩
  rw [hrun]
  apply advance
  rw [List.takeWhile_append_dropWhile]
  exact h

end At

end HeaderLex
