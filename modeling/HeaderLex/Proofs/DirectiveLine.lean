import HeaderLex.Proofs.Cursor

/-!
# What a directive line takes

`DirectiveLine.read` as one step of the cursor.

* `DirectiveLine.taken`, `DirectiveLine.left`   the text that a line takes after its `#`, and the
                         text it leaves;
* `read_eq`              the directive is read off the first, and the cursor steps over it;
* `quiet_line`           a line without quotes, backslashes and comments ends at its line feed.
-/

namespace HeaderLex.DirectiveLine

/-! ## the parts of a line -/

/-- The text after the blanks behind the `#`. -/
def inner (cs : List Char) : List Char := cs.dropWhile isInnerBlank

def nameOf (cs : List Char) : List Char := (inner cs).takeWhile isNameChar

/-- The text after the name. -/
def tailOf (cs : List Char) : List Char := (inner cs).dropWhile isNameChar

def argumentsOf (cs : List Char) : List Char := (arguments false (tailOf cs)).1

/-- The text after the arguments. -/
def stopOf (cs : List Char) : List Char := (arguments false (tailOf cs)).2.1

/-- The text that a directive line takes after its `#`. -/
def taken (cs : List Char) : List Char :=
  cs.takeWhile isInnerBlank ++ nameOf cs ++ argumentsOf cs ++ (splitNewline (stopOf cs)).1

/-- The text that a directive line leaves. -/
def left (cs : List Char) : List Char := (splitNewline (stopOf cs)).2

theorem splitNewline_append (cs : List Char) : (splitNewline cs).1 ++ (splitNewline cs).2 = cs := by
  unfold splitNewline
  split <;> rfl

theorem taken_append_left (cs : List Char) : taken cs ++ left cs = cs := by
  unfold taken left
  have hargs : argumentsOf cs ++ stopOf cs = tailOf cs := arguments_append false (tailOf cs)
  have hname : nameOf cs ++ tailOf cs = inner cs := List.takeWhile_append_dropWhile
  rw [List.append_assoc, splitNewline_append, List.append_assoc, hargs, List.append_assoc, hname]
  exact List.takeWhile_append_dropWhile

/-! ## lines that end inside -/

theorem newlines_takeWhile {p : Char → Bool} (hp : p '\n' = false) (cs : List Char) :
    Text.newlines (cs.takeWhile p) = 0 := by
  apply List.count_eq_zero_of_not_mem
  intro hn
  have := List.all_eq_true.1 List.all_takeWhile _ hn
  rw [hp] at this
  cases this

/-- Only continuations end lines inside the arguments. -/
theorem arguments_lines (quoted : Bool) (cs : List Char) :
    (arguments quoted cs).2.2 = Text.newlines (arguments quoted cs).1 := by
  fun_induction arguments quoted cs with
  | case1 => rfl
  | case2 => rfl
  | case3 => rfl
  | case4 => rfl
  | case5 cs text rest lines h ih =>
    rw [h] at ih
    show lines + 1 = List.count '\n' ('\\' :: '\n' :: text)
    rw [List.count_cons_of_ne (by decide), List.count_cons_self]
    exact congrArg (· + 1) ih
  | case6 => rfl
  | case7 c cs hc text rest lines h ih =>
    rw [h] at ih
    show lines = List.count '\n' ('\\' :: c :: text)
    rw [List.count_cons_of_ne (by decide), List.count_cons_of_ne (by simpa using hc)]
    exact ih
  | case8 quoted c cs hn _ _ _ _ _ text rest lines h ih =>
    rw [h] at ih
    show lines = List.count '\n' (c :: text)
    rw [List.count_cons_of_ne (by simpa using hn)]
    exact ih

theorem splitNewline_lines (cs : List Char) :
    (splitNewline cs).1.length = Text.newlines (splitNewline cs).1 := by
  unfold splitNewline
  split <;> rfl

/-- Reading a directive line is one step of the cursor. -/
theorem read_eq (hash : Token) (c : Cursor) :
    read hash c = (⟨hash, String.ofList (nameOf c.rest),
        String.ofList (Text.trim (argumentsOf c.rest))⟩,
      c.advance (taken c.rest) (left c.rest) (Text.newlines (taken c.rest))) := by
  have hlines : Text.newlines (taken c.rest) = (arguments false (tailOf c.rest)).2.2
      + (splitNewline (stopOf c.rest)).1.length := by
    unfold taken
    rw [Text.newlines_append, Text.newlines_append, Text.newlines_append,
      newlines_takeWhile (by decide), ← splitNewline_lines]
    show 0 + Text.newlines ((inner c.rest).takeWhile isNameChar) + _ + _ = _
    rw [newlines_takeWhile (by decide), arguments_lines, argumentsOf]
    omega
  rw [hlines]
  rfl

/-! ## lines without quotes, continuations and comments -/

/-- Nothing in the text needs care: no line feed, no quote, no backslash and no comment. -/
structure Quiet (cs : List Char) : Prop where
  line : '\n' ∉ cs
  quote : '"' ∉ cs
  backslash : '\\' ∉ cs
  lineComment : ¬ ['/', '/'] <:+: cs
  blockComment : ¬ ['/', '*'] <:+: cs

instance (cs : List Char) : Decidable (Quiet cs) :=
  haveI (w : List Char) : Decidable (w <:+: cs) := List.instDecidableIsInfixOfDecidableEq w cs
  decidable_of_iff ('\n' ∉ cs ∧ '"' ∉ cs ∧ '\\' ∉ cs ∧ ¬ ['/', '/'] <:+: cs ∧ ¬ ['/', '*'] <:+: cs)
    ⟨fun ⟨h1, h2, h3, h4, h5⟩ => ⟨h1, h2, h3, h4, h5⟩, fun ⟨h1, h2, h3, h4, h5⟩ => ⟨h1, h2, h3, h4, h5⟩⟩

theorem Quiet.tail {c : Char} {cs : List Char} (h : Quiet (c :: cs)) : Quiet cs where
  line hc := h.line (List.mem_cons_of_mem _ hc)
  quote hc := h.quote (List.mem_cons_of_mem _ hc)
  backslash hc := h.backslash (List.mem_cons_of_mem _ hc)
  lineComment hc := h.lineComment (List.infix_cons hc)
  blockComment hc := h.blockComment (List.infix_cons hc)

/-- Quiet arguments end at the line feed. -/
theorem arguments_quiet {cs : List Char} (h : Quiet cs) (tail : List Char) :
    arguments false (cs ++ '\n' :: tail) = (cs, '\n' :: tail, 0) := by
  induction cs with
  | nil => rfl
  | cons c cs ih =>
    have hn : c ≠ '\n' := fun hc => h.line (hc ▸ List.mem_cons_self)
    have hq : (c == '"') = false := beq_false_of_ne fun hc => h.quote (hc ▸ List.mem_cons_self)
    have hb : c ≠ '\\' := fun hc => h.backslash (hc ▸ List.mem_cons_self)
    -- a comment would open inside the arguments, since it does not open with a line feed
    have hopen : ∀ d, d ≠ '\n' → ¬ ['/', d] <:+: c :: cs → ∀ r, c = '/' → cs ++ '\n' :: tail ≠ d :: r := by
      intro d hd hin r hc hr
      cases cs with
      | nil => exact hd (List.cons.inj hr).1.symm
      | cons e es =>
        obtain ⟨rfl, -⟩ := List.cons.inj hr
        subst hc
        exact hin ⟨[], es, rfl⟩
    rw [List.cons_append, arguments, hq]
    · simp only [bne_self_eq_false, ih h.tail]
    · exact hn
    · exact fun r _ => hopen '/' (by decide) h.lineComment r
    · exact fun r _ => hopen '*' (by decide) h.blockComment r
    · exact fun r _ hc => absurd hc hb
    · exact fun r _ hc => absurd hc hb
    · exact fun d r _ hc => absurd hc hb

/-- A line that has a name and quiet arguments is taken whole. -/
theorem quiet_line {name args : List Char} (hne : name ≠ []) (hname : ∀ c ∈ name, isNameChar c = true)
    (hhead : args.head?.any isNameChar = false) (hq : Quiet args) (tail : List Char) :
    nameOf (name ++ args ++ '\n' :: tail) = name ∧ argumentsOf (name ++ args ++ '\n' :: tail) = args ∧
      taken (name ++ args ++ '\n' :: tail) = name ++ args ++ ['\n'] ∧
      left (name ++ args ++ '\n' :: tail) = tail := by
  rw [List.append_assoc]
  have hblank : (name ++ (args ++ '\n' :: tail)).takeWhile isInnerBlank = [] := by
    cases name with
    | nil => exact absurd rfl hne
    | cons c cs =>
      have hc : isInnerBlank c = false := by
        have hc := hname c List.mem_cons_self
        cases hb : isInnerBlank c with
        | false => rfl
        | true =>
          obtain rfl | rfl : c = ' ' ∨ c = '\t' := by simpa [isInnerBlank] using hb
          · cases hc
          · cases hc
      rw [List.cons_append, List.takeWhile_cons_of_neg (by rw [hc]; decide)]
  have hinner : inner (name ++ (args ++ '\n' :: tail)) = name ++ (args ++ '\n' :: tail) := by
    have := @List.takeWhile_append_dropWhile _ isInnerBlank (name ++ (args ++ '\n' :: tail))
    rwa [hblank] at this
  have hstop : (args ++ '\n' :: tail).takeWhile isNameChar = [] ∧
      (args ++ '\n' :: tail).dropWhile isNameChar = args ++ '\n' :: tail := by
    cases args with
    | nil => exact ⟨rfl, rfl⟩
    | cons a as =>
      have ha : ¬ isNameChar a = true := by
        rw [Bool.not_eq_true]
        exact hhead
      exact ⟨List.takeWhile_cons_of_neg ha, List.dropWhile_cons_of_neg ha⟩
  have hn : nameOf (name ++ (args ++ '\n' :: tail)) = name := by
    rw [nameOf, hinner, List.takeWhile_append_of_pos hname, hstop.1, List.append_nil]
  have ht : tailOf (name ++ (args ++ '\n' :: tail)) = args ++ '\n' :: tail := by
    rw [tailOf, hinner, List.dropWhile_append_of_pos hname, hstop.2]
  have hargs := arguments_quiet hq tail
  have ha : argumentsOf (name ++ (args ++ '\n' :: tail)) = args := by
    rw [argumentsOf, ht, hargs]
  have hs : stopOf (name ++ (args ++ '\n' :: tail)) = '\n' :: tail := by
    rw [stopOf, ht, hargs]
  refine ⟨hn, ha, ?_, ?_⟩
  · rw [taken, hblank, hn, ha, hs]
    rfl
  · rw [left, hs]
    rfl

end HeaderLex.DirectiveLine
