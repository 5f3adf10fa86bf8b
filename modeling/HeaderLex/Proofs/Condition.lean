import HeaderLex.Proofs.Document

/-!
# Conditions

The conditions that are built from names, the literals 0 and 1, negation, parentheses and tests
whether a name is defined; their texts, their truth, and the region that they are given.  A symbol
that begins with `defined` is read as a test of the rest of it.

* `Condition`, `Spelled`           conditions and their texts;
* `Condition.holds`                their truth, under an assignment of the symbols;
* `Conditional.classify_spelled`   the region of a text is the region of its condition;
* `Conditional.agrees_iff`         when exactly a decided region is right under all assignments.
-/

namespace HeaderLex

/-! ## trimming -/

namespace Text

def Blanks (cs : List Char) : Prop := ∀ c ∈ cs, isBlank c = true

theorem dropEndWhile_append_of_pos {p : Char → Bool} {cs tail : List Char}
    (h : ∀ c ∈ tail, p c = true) : dropEndWhile p (cs ++ tail) = dropEndWhile p cs := by
  have htail : ∀ c ∈ tail.reverse, p c = true := fun c hc => h c (List.mem_reverse.1 hc)
  unfold dropEndWhile
  rw [List.reverse_append, List.dropWhile_append_of_pos htail]

/-- Blanks around a text are trimmed away. -/
theorem trim_spaced {before cs after : List Char} (hbefore : Blanks before) (hafter : Blanks after) :
    trim (before ++ (cs ++ after)) = trim cs := by
  unfold trim trimStart
  rw [List.dropWhile_append_of_pos hbefore, List.dropWhile_append]
  split
  · next hempty =>
    have hall := @List.dropWhile_append_of_pos _ _ _ [] hafter
    rw [List.append_nil, List.dropWhile_nil] at hall
    rw [hall, List.isEmpty_iff.1 hempty]
  · exact dropEndWhile_append_of_pos hafter

theorem trimEnd_cons {a : Char} (ha : isBlank a = false) (cs : List Char) :
    trimEnd (a :: cs) = a :: trimEnd cs := by
  have hstays : [a].dropWhile isBlank = [a] := List.dropWhile_cons_of_neg (by rw [ha]; decide)
  unfold trimEnd dropEndWhile
  rw [List.reverse_cons, List.dropWhile_append, hstays]
  split
  · next hempty =>
    rw [List.isEmpty_iff.1 hempty]
    rfl
  · rw [List.reverse_append]
    rfl

theorem trim_trimEnd (cs : List Char) : trim (trimEnd cs) = trim cs := by
  obtain ⟨blanks, hcs, hblanks⟩ := dropEndWhile_append isBlank cs
  have hspaced := @trim_spaced [] (trimEnd cs) blanks (fun _ h => absurd h List.not_mem_nil) hblanks
  rw [List.nil_append] at hspaced
  rw [← hspaced]
  exact congrArg trim hcs.symm

theorem trim_eq_self {cs : List Char} (hhead : cs.head?.any isBlank = false)
    (hlast : cs.getLast?.any isBlank = false) : trim cs = cs := by
  unfold trim trimStart trimEnd dropEndWhile
  rw [dropWhile_eq_self hhead]
  rw [← List.head?_reverse] at hlast
  rw [dropWhile_eq_self hlast, List.reverse_reverse]

theorem dropEndWhile_eq_self {p : Char → Bool} {cs : List Char} (h : cs.getLast?.any p = false) :
    dropEndWhile p cs = cs := by
  unfold dropEndWhile
  rw [← List.head?_reverse] at h
  rw [dropWhile_eq_self h, List.reverse_reverse]

theorem stripEnd?_append (cs e : List Char) : stripEnd? e (cs ++ e) = some cs := by
  have hstrip : strip? e.reverse (cs ++ e).reverse = some cs.reverse :=
    strip?_eq_some.2 List.reverse_append
  unfold stripEnd?
  rw [hstrip, Option.map_some, List.reverse_reverse]

end Text

/-- Letters, digits and underscores, with no digit in front. -/
structure IsName (name : String) : Prop where
  start : name.toList.head?.any isNameStart = true
  chars : ∀ c ∈ name.toList, isNameChar c = true

theorem isBlank_of_isNameChar {c : Char} (h : isNameChar c = true) : Text.isBlank c = false := by
  have hclass : (decide ('A'.val ≤ c.val ∧ c.val ≤ 'Z'.val) || ('a'.val ≤ c.val && c.val ≤ 'z'.val) ||
      ('0'.val ≤ c.val && c.val ≤ '9'.val) || c == '_') = true := h
  have hrange : 48 ≤ c.toNat ∧ c.toNat ≤ 122 := by
    simp only [Bool.or_eq_true, Bool.and_eq_true, decide_eq_true_eq, beq_iff_eq,
      UInt32.le_iff_toNat_le] at hclass
    have hval : c.val.toNat = c.toNat := rfl
    rw [hval] at hclass
    rcases hclass with ((⟨h1, h2⟩ | ⟨h1, h2⟩) | ⟨h1, h2⟩) | rfl
    · exact ⟨Nat.le_trans (by decide) h1, Nat.le_trans h2 (by decide)⟩
    · exact ⟨Nat.le_trans (by decide) h1, Nat.le_trans h2 (by decide)⟩
    · exact ⟨Nat.le_trans (by decide) h1, Nat.le_trans h2 (by decide)⟩
    · decide
  simp only [Text.isBlank, Bool.or_eq_false_iff, Bool.and_eq_false_iff, decide_eq_false_iff_not,
    beq_eq_false_iff_ne]
  omega

/-- A character that the whole text lacks is at neither end of it. -/
theorem any_ends {p : Char → Bool} {cs : List Char} (h : ∀ c ∈ cs, p c = false) :
    cs.head?.any p = false ∧ cs.getLast?.any p = false := by
  constructor
  · cases hc : cs.head? with
    | none => rfl
    | some c => exact h c (List.mem_of_head? hc)
  · cases hc : cs.getLast? with
    | none => rfl
    | some c => exact h c (List.mem_of_getLast? hc)

/-! ## conditions and their texts -/

inductive Condition where
  | literal (value : Bool)
  | symbol (name : String)
  | defined (name : String)
  | not (c : Condition)
deriving DecidableEq, Repr

def literalText (value : Bool) : List Char := [if value then '1' else '0']

open Text (Blanks) in
/-- The texts of a condition.  Blanks and parentheses may stand around every part. -/
inductive Spelled : Condition → List Char → Prop
  | literal (value : Bool) : Spelled (.literal value) (literalText value)
  | symbol {name : String} : IsName name → Spelled (.symbol name) name.toList
  | word {name : String} {blanks : List Char} : IsName name → Blanks blanks → blanks ≠ [] →
      Spelled (.defined name) ("defined".toList ++ (blanks ++ name.toList))
  | call {name : String} {s t u : List Char} : IsName name → Blanks s → Blanks t → Blanks u →
      Spelled (.defined name) ("defined".toList ++ (s ++ '(' :: (t ++ (name.toList ++ u) ++ [')'])))
  | not {c : Condition} {text : List Char} : Spelled c text → Spelled (.not c) ('!' :: text)
  | group {c : Condition} {text : List Char} : Spelled c text → Spelled c ('(' :: (text ++ [')']))
  | spaced {c : Condition} {s text t : List Char} : Blanks s → Spelled c text → Blanks t →
      Spelled c (s ++ (text ++ t))

namespace Condition

/-- The truth of a condition when the symbols have these values. -/
def holds (v : String → Bool) : Condition → Bool
  | literal value => value
  | symbol name => v name
  | defined name => v name
  | not c => !c.holds v

/-- The symbol that a condition is about. -/
def meant : Condition → List Char
  | literal value => literalText value
  | symbol name => name.toList
  | defined name => name.toList
  | not c => c.meant

/-- The symbol that is asked for: behind a `defined` at the beginning of a symbol, the rest of it. -/
def asked : Condition → List Char
  | literal value => literalText value
  | symbol name => (Text.strip? "defined".toList name.toList).getD name.toList
  | defined name => name.toList
  | not c => c.asked

end Condition

namespace Conditional

/-- The region of a condition: that of the symbol asked for, as often inverted as it is negated. -/
def regionOf (c : Conditional) : Condition → Region
  | .not d => (c.regionOf d).inverted
  | d => c.classifySymbol d.asked

theorem trim_chars {cs : List Char} (h : ∀ c ∈ cs, isNameChar c = true) : Text.trim cs = cs := by
  obtain ⟨hhead, hlast⟩ := any_ends fun c hc => isBlank_of_isNameChar (h c hc)
  exact Text.trim_eq_self hhead hlast

theorem classifyAtom_defined (c : Conditional) (rest : List Char) :
    c.classifyAtom ("defined".toList ++ rest) = c.classifySymbol
      (Text.trim (Text.dropEndWhile (· == ')') ((Text.trim rest).dropWhile (· == '(')))) := by
  have hstrip : Text.strip? "defined".toList ("defined".toList ++ rest) = some rest :=
    Text.strip?_eq_some.2 rfl
  unfold classifyAtom
  rw [hstrip]

theorem classifyAtom_other (c : Conditional) {cs : List Char}
    (h : Text.strip? "defined".toList cs = none) : c.classifyAtom cs = c.classifySymbol cs := by
  unfold classifyAtom
  rw [h]

/-- A condition that begins with neither a negation nor a parenthesis. -/
theorem classify_atom (c : Conditional) {cs : List Char}
    (hhead : (Text.trim cs).head?.any (fun a => a == '!' || a == '(') = false) :
    c.classify cs = c.classifyAtom (Text.trim cs) := by
  rw [classify_eq]
  split
  · next rest h =>
    rw [h] at hhead
    cases hhead
  · next rest h =>
    rw [h] at hhead
    cases hhead
  · rfl

theorem no_parenthesis {c : Char} (h : isNameChar c = true ∨ Text.isBlank c = true) :
    (c == '(') = false ∧ (c == ')') = false ∧ (c == '!' || c == '(') = false := by
  have hne : ∀ d, isNameChar d = false → Text.isBlank d = false → (c == d) = false := by
    intro d hname hblank
    rw [beq_eq_false_iff_ne]
    rintro rfl
    rw [hname, hblank] at h
    rcases h with h | h <;> cases h
  rw [hne '!' rfl rfl, hne '(' rfl rfl, hne ')' rfl rfl]
  exact ⟨rfl, rfl, rfl⟩

/-- Around a text without parentheses there are none to take away. -/
theorem unwrap_plain {cs : List Char} (h : ∀ c ∈ cs, isNameChar c = true ∨ Text.isBlank c = true) :
    Text.dropEndWhile (· == ')') (cs.dropWhile (· == '(')) = cs := by
  have hopen := any_ends fun d hd => (no_parenthesis (h d hd)).1
  have hclose := any_ends fun d hd => (no_parenthesis (h d hd)).2.1
  rw [Text.dropWhile_eq_self hopen.1, Text.dropEndWhile_eq_self hclose.2]

theorem unwrap_parentheses {cs : List Char} (h : ∀ c ∈ cs, isNameChar c = true ∨ Text.isBlank c = true) :
    Text.dropEndWhile (· == ')') (('(' :: (cs ++ [')'])).dropWhile (· == '(')) = cs := by
  have hopen : (cs ++ [')']).head?.any (· == '(') = false := by
    refine (any_ends ?_).1
    intro d hd
    rcases List.mem_append.1 hd with hd | hd
    · exact (no_parenthesis (h d hd)).1
    · rw [List.mem_singleton.1 hd]
      rfl
  rw [List.dropWhile_cons_of_pos (by rfl), Text.dropWhile_eq_self hopen]
  unfold Text.dropEndWhile
  rw [List.reverse_append, List.reverse_singleton, List.singleton_append,
    List.dropWhile_cons_of_pos (by rfl), ← Text.dropEndWhile]
  exact Text.dropEndWhile_eq_self (any_ends fun d hd => (no_parenthesis (h d hd)).2.1).2

theorem classify_chars (c : Conditional) {cs : List Char} (h : ∀ d ∈ cs, isNameChar d = true) :
    c.classify cs = c.classifyAtom cs := by
  have hplain : ∀ d ∈ cs, (d == '!' || d == '(') = false :=
    fun d hd => (no_parenthesis (.inl (h d hd))).2.2
  have htrim := trim_chars h
  rw [classify_atom, htrim]
  rw [htrim]
  exact (any_ends hplain).1

theorem classify_name (c : Conditional) {name : String} (h : IsName name) :
    c.classify name.toList = c.classifySymbol (Condition.symbol name).asked := by
  have hchars := h.chars
  rw [c.classify_chars hchars]
  show _ = c.classifySymbol ((Text.strip? "defined".toList name.toList).getD name.toList)
  cases hstrip : Text.strip? "defined".toList name.toList with
  | none => exact c.classifyAtom_other hstrip
  | some rest =>
    have hname := Text.strip?_eq_some.1 hstrip
    rw [hname] at hchars ⊢
    have hrest : ∀ d ∈ rest, isNameChar d = true := fun d hd => hchars d (List.mem_append_right _ hd)
    rw [classifyAtom_defined, trim_chars hrest, unwrap_plain fun d hd => .inl (hrest d hd),
      trim_chars hrest]
    rfl

/-- A test whether a name is defined, with what stands behind the word. -/
theorem classify_defined (c : Conditional) {rest : List Char}
    (hlast : rest.getLast?.any Text.isBlank = false) : c.classify ("defined".toList ++ rest)
      = c.classifySymbol
        (Text.trim (Text.dropEndWhile (· == ')') ((Text.trim rest).dropWhile (· == '(')))) := by
  have htrim : Text.trim ("defined".toList ++ rest) = "defined".toList ++ rest := by
    refine Text.trim_eq_self rfl ?_
    rw [List.getLast?_append]
    cases hr : rest.getLast? with
    | none => decide
    | some a =>
      rw [hr] at hlast
      exact hlast
  rw [classify_atom, htrim, classifyAtom_defined]
  rw [htrim]
  rfl

/-- The region of a text is the region of the condition that it spells. -/
theorem classify_spelled (c : Conditional) {d : Condition} {text : List Char} (h : Spelled d text) :
    c.classify text = c.regionOf d := by
  induction h with
  | literal value =>
    have hchars : ∀ d ∈ literalText value, isNameChar d = true := by
      apply List.all_eq_true.1
      cases value <;> rfl
    rw [c.classify_chars hchars]
    cases value <;> exact c.classifyAtom_other rfl
  | symbol hname => exact c.classify_name hname
  | @word name blanks hname hblanks _ =>
    have htrim : Text.trim (blanks ++ name.toList) = name.toList := by
      have hspaced := @Text.trim_spaced _ name.toList [] hblanks (fun _ h => absurd h List.not_mem_nil)
      rw [List.append_nil] at hspaced
      rw [hspaced, trim_chars hname.chars]
    rw [classify_defined, htrim, unwrap_plain fun d hd => .inl (hname.chars d hd),
      trim_chars hname.chars]
    · rfl
    · rw [List.getLast?_append]
      have hhead := hname.start
      have hlast := (any_ends fun d hd => isBlank_of_isNameChar (hname.chars d hd)).2
      cases hl : name.toList.getLast? with
      | none =>
        rw [List.getLast?_eq_none_iff.1 hl] at hhead
        cases hhead
      | some a =>
        rw [hl] at hlast
        exact hlast
  | @call name s t u hname hs ht hu =>
    have hinner : ∀ d ∈ t ++ (name.toList ++ u), isNameChar d = true ∨ Text.isBlank d = true := by
      intro d hd
      rcases List.mem_append.1 hd with hd | hd
      · exact .inr (ht d hd)
      · rcases List.mem_append.1 hd with hd | hd
        · exact .inl (hname.chars d hd)
        · exact .inr (hu d hd)
    have htrim : Text.trim (s ++ '(' :: (t ++ (name.toList ++ u) ++ [')']))
        = '(' :: (t ++ (name.toList ++ u) ++ [')']) := by
      have hspaced := @Text.trim_spaced _ ('(' :: (t ++ (name.toList ++ u) ++ [')'])) [] hs
        (fun _ h => absurd h List.not_mem_nil)
      rw [List.append_nil] at hspaced
      rw [hspaced]
      refine Text.trim_eq_self rfl ?_
      rw [← List.cons_append, List.getLast?_concat]
      rfl
    rw [classify_defined, htrim, unwrap_parentheses hinner, Text.trim_spaced ht hu,
      trim_chars hname.chars]
    · rfl
    · rw [← List.cons_append, ← List.append_assoc, List.getLast?_concat]
      rfl
  | @not d text _ ih =>
    have htrim : Text.trim ('!' :: text) = '!' :: Text.trimEnd text := Text.trimEnd_cons rfl text
    rw [classify_eq, htrim]
    show (c.classify (Text.trimEnd text)).inverted = (c.regionOf d).inverted
    rw [← c.classify_trim, Text.trim_trimEnd, c.classify_trim, ih]
  | @group d text _ ih =>
    have htrim : Text.trim ('(' :: (text ++ [')'])) = '(' :: (text ++ [')']) := by
      refine Text.trim_eq_self rfl ?_
      rw [← List.cons_append, List.getLast?_concat]
      rfl
    rw [classify_eq, htrim]
    simp only [Text.stripEnd?_append]
    exact ih
  | @spaced d s text t hs _ ht ih =>
    rw [← c.classify_trim, Text.trim_spaced hs ht, c.classify_trim]
    exact ih

/-! ## decided regions and truth -/

/-- The assignment makes the symbols known to be true true and those known to be false false, and
gives the literals their values. -/
structure Fits (c : Conditional) (v : String → Bool) : Prop where
  knownTrue : ∀ s ∈ c.knownTrue, v s = true
  knownFalse : ∀ s ∈ c.knownFalse, v s = false
  one : v "1" = true
  zero : v "0" = false

/-- No symbol is known to be both, and the literals are known. -/
structure Coherent (c : Conditional) : Prop where
  disjoint : ∀ s ∈ c.knownTrue, s ∉ c.knownFalse
  one : "1" ∈ c.knownTrue
  zero : "0" ∈ c.knownFalse

theorem standard_coherent : standard.Coherent where
  disjoint := by decide
  one := by decide
  zero := by decide

theorem Coherent.define {c : Conditional} (h : c.Coherent) {symbol : String} (hs : symbol ≠ "0") :
    (c.define symbol).Coherent where
  disjoint := by
    intro s hs hfalse
    obtain ⟨hfalse, hne⟩ := List.mem_filter.1 hfalse
    rcases List.mem_cons.1 hs with rfl | hs
    · simp at hne
    · exact h.disjoint s hs hfalse
  one := List.mem_cons_of_mem _ h.one
  zero := List.mem_filter.2 ⟨h.zero, by simpa using hs.symm⟩

theorem Coherent.undefine {c : Conditional} (h : c.Coherent) {symbol : String} (hs : symbol ≠ "1") :
    (c.undefine symbol).Coherent where
  disjoint := by
    intro s htrue hs
    obtain ⟨htrue, hne⟩ := List.mem_filter.1 htrue
    rcases List.mem_cons.1 hs with rfl | hs
    · simp at hne
    · exact h.disjoint s htrue hs
  one := List.mem_filter.2 ⟨h.one, by simpa using hs.symm⟩
  zero := List.mem_cons_of_mem _ h.zero

end Conditional

/-- A decided region says what the truth is. -/
def Region.Agrees : Region → Bool → Prop
  | included, b => b = true
  | silent, b => b = false
  | scanned, _ => True

theorem Region.agrees_inverted (region : Region) (b : Bool) :
    region.inverted.Agrees (!b) ↔ region.Agrees b := by
  cases region <;> cases b <;> simp [Region.inverted, Agrees]

namespace Conditional

variable {c : Conditional} {v : String → Bool} {d : Condition}

theorem Fits.agrees (h : c.Fits v) (symbol : List Char) :
    (c.classifySymbol symbol).Agrees (v (String.ofList symbol)) := by
  unfold classifySymbol
  dsimp only
  split
  · next htrue => exact h.knownTrue _ (List.contains_iff_mem.1 htrue)
  · split
    · next hfalse => exact h.knownFalse _ (List.contains_iff_mem.1 hfalse)
    · trivial

/-- The symbol asked for is not the one that the condition is about: it is decided, and not like
that one. -/
def Misjudges (c : Conditional) (d : Condition) : Prop :=
  c.classifySymbol d.asked ≠ .scanned ∧ c.classifySymbol d.asked ≠ c.classifySymbol d.meant

theorem Fits.literal (h : c.Fits v) (value : Bool) : value = v (String.ofList (literalText value)) := by
  cases value with
  | true => exact h.one.symm
  | false => exact h.zero.symm

/-- A decided region is right under every assignment, unless another symbol is asked for. -/
theorem Fits.sound (h : c.Fits v) (hd : ¬ c.Misjudges d) : (c.regionOf d).Agrees (d.holds v) := by
  -- a negation inverts the region and the truth alike, so the symbol alone decides
  have hatom : ∀ b, b = v (String.ofList d.meant) → (c.classifySymbol d.asked).Agrees b := by
    rintro b rfl
    by_cases hscan : c.classifySymbol d.asked = .scanned
    · rw [hscan]
      trivial
    · have hsame : c.classifySymbol d.asked = c.classifySymbol d.meant :=
        Classical.not_not.1 fun hne => hd ⟨hscan, hne⟩
      rw [hsame]
      exact h.agrees d.meant
  induction d with
  | literal value => exact hatom value (h.literal value)
  | symbol name => exact hatom _ (congrArg v String.ofList_toList.symm)
  | defined name => exact hatom _ (congrArg v String.ofList_toList.symm)
  | not d ih => exact (Region.agrees_inverted _ _).2 (ih hd hatom)

/-- As few symbols as possible are true. -/
def least (c : Conditional) (s : String) : Bool := decide (s ∈ c.knownTrue)

/-- As many symbols as possible are true. -/
def most (c : Conditional) (s : String) : Bool := decide (s ∉ c.knownFalse)

theorem Coherent.least (h : c.Coherent) : c.Fits c.least where
  knownTrue _ hs := decide_eq_true hs
  knownFalse s hs := decide_eq_false fun htrue => h.disjoint s htrue hs
  one := decide_eq_true h.one
  zero := decide_eq_false fun htrue => h.disjoint _ htrue h.zero

theorem Coherent.most (h : c.Coherent) : c.Fits c.most where
  knownTrue s hs := decide_eq_true (h.disjoint s hs)
  knownFalse _ hs := decide_eq_false fun hfalse => hfalse hs
  one := decide_eq_true (h.disjoint _ h.one)
  zero := decide_eq_false fun hfalse => hfalse h.zero

theorem classifySymbol_included {symbol : List Char} :
    c.classifySymbol symbol = .included ↔ String.ofList symbol ∈ c.knownTrue := by
  unfold classifySymbol
  rw [← List.contains_iff_mem]
  dsimp only
  cases c.knownTrue.contains (String.ofList symbol) with
  | true => exact iff_of_true (if_pos rfl) rfl
  | false => cases c.knownFalse.contains (String.ofList symbol) <;> decide

theorem Coherent.classifySymbol_silent (h : c.Coherent) {symbol : List Char} :
    c.classifySymbol symbol = .silent ↔ String.ofList symbol ∈ c.knownFalse := by
  have hdisjoint := h.disjoint (String.ofList symbol)
  rw [← List.contains_iff_mem, ← List.contains_iff_mem] at hdisjoint
  unfold classifySymbol
  rw [← List.contains_iff_mem]
  dsimp only
  cases htrue : c.knownTrue.contains (String.ofList symbol) with
  | true =>
    rw [if_pos rfl]
    exact iff_of_false (by decide) (hdisjoint htrue)
  | false => cases c.knownFalse.contains (String.ofList symbol) <;> decide

/-- A misjudged condition gets a region that is wrong under some assignment. -/
theorem Coherent.unsound (h : c.Coherent) (hd : c.Misjudges d) :
    ∃ v, c.Fits v ∧ ¬ (c.regionOf d).Agrees (d.holds v) := by
  have hatom : ∃ v, c.Fits v ∧ ∀ b, b = v (String.ofList d.meant) →
      ¬ (c.classifySymbol d.asked).Agrees b := by
    obtain ⟨hdecided, hdiffers⟩ := hd
    -- the symbol that is meant is not decided like this, so an extreme assignment has it otherwise
    cases hr : c.classifySymbol d.asked with
    | included =>
      rw [hr] at hdiffers
      have hnot : String.ofList d.meant ∉ c.knownTrue :=
        fun hmem => hdiffers (classifySymbol_included.2 hmem).symm
      refine ⟨c.least, h.least, ?_⟩
      rintro b rfl htrue
      exact hnot (of_decide_eq_true htrue)
    | silent =>
      rw [hr] at hdiffers
      have hnot : String.ofList d.meant ∉ c.knownFalse :=
        fun hmem => hdiffers (h.classifySymbol_silent.2 hmem).symm
      refine ⟨c.most, h.most, ?_⟩
      rintro b rfl hfalse
      exact of_decide_eq_false hfalse hnot
    | scanned => exact absurd hr hdecided
  obtain ⟨v, hfits, hwrong⟩ := hatom
  refine ⟨v, hfits, ?_⟩
  clear hd
  induction d with
  | literal value => exact hwrong value (hfits.literal value)
  | symbol name => exact hwrong _ (congrArg v String.ofList_toList.symm)
  | defined name => exact hwrong _ (congrArg v String.ofList_toList.symm)
  | not d ih => exact fun hagrees => ih hwrong ((Region.agrees_inverted _ _).1 hagrees)

/-- A decided region of a condition is right under all assignments unless the condition is misjudged. -/
theorem agrees_iff (h : c.Coherent) {text : List Char} (hd : Spelled d text) :
    (∀ v, c.Fits v → (c.classify text).Agrees (d.holds v)) ↔ ¬ c.Misjudges d := by
  rw [classify_spelled c hd]
  constructor
  · intro hall hmis
    obtain ⟨v, hfits, hwrong⟩ := h.unsound hmis
    exact hwrong (hall v hfits)
  · intro hno v hfits
    exact hfits.sound hno

/-- An undecided condition can have either truth value, if it is asked for its own symbol. -/
theorem Coherent.either (h : c.Coherent) (hregion : c.regionOf d = .scanned)
    (hown : d.asked = d.meant) (b : Bool) : ∃ v, c.Fits v ∧ d.holds v = b := by
  have hatom : c.classifySymbol d.meant = .scanned →
      ∀ b, ∃ v, c.Fits v ∧ v (String.ofList d.meant) = b := by
    intro hscan b
    cases b with
    | false =>
      refine ⟨c.least, h.least, decide_eq_false fun hmem => ?_⟩
      rw [classifySymbol_included.2 hmem] at hscan
      cases hscan
    | true =>
      refine ⟨c.most, h.most, decide_eq_true fun hmem => ?_⟩
      rw [h.classifySymbol_silent.2 hmem] at hscan
      cases hscan
  induction d generalizing b with
  | literal value =>
    obtain ⟨v, hfits, hv⟩ := hatom hregion b
    exact ⟨v, hfits, (hfits.literal value).trans hv⟩
  | symbol name =>
    have hscan : c.classifySymbol (Condition.symbol name).asked = .scanned := hregion
    rw [hown] at hscan
    obtain ⟨v, hfits, hv⟩ := hatom hscan b
    exact ⟨v, hfits, (congrArg v String.ofList_toList.symm).trans hv⟩
  | defined name =>
    obtain ⟨v, hfits, hv⟩ := hatom hregion b
    exact ⟨v, hfits, (congrArg v String.ofList_toList.symm).trans hv⟩
  | not d ih =>
    have hscan : c.regionOf d = .scanned := by
      have hinv : (c.regionOf d).inverted = .scanned := hregion
      cases hr : c.regionOf d <;> rw [hr] at hinv <;> first | rfl | cases hinv
    obtain ⟨v, hfits, hv⟩ := ih hscan hown (!b) hatom
    refine ⟨v, hfits, ?_⟩
    show (!d.holds v) = b
    rw [hv, Bool.not_not]

end Conditional

end HeaderLex
