/-!
# Blank characters and trimming

`isBlank` is the Unicode property White_Space.  Trimming removes blanks from the ends of a text;
`dropEndWhile` removes any run from the end.
-/

namespace HeaderLex.Text

/-- The characters with the Unicode property White_Space. -/
def isBlank (c : Char) : Bool :=
  let n := c.toNat
  (0x09 ≤ n && n ≤ 0x0D) || n == 0x20 || n == 0x85 || n == 0xA0 || n == 0x1680 ||
  (0x2000 ≤ n && n ≤ 0x200A) || n == 0x2028 || n == 0x2029 || n == 0x202F || n == 0x205F ||
  n == 0x3000

/-- The text without the longest run of `p` at its end. -/
def dropEndWhile (p : Char → Bool) (cs : List Char) : List Char :=
  (cs.reverse.dropWhile p).reverse

/-- What `dropEndWhile` keeps is a prefix. -/
theorem dropEndWhile_append (p : Char → Bool) (cs : List Char) :
    ∃ t, cs = dropEndWhile p cs ++ t ∧ ∀ c ∈ t, p c = true := by
  refine ⟨(cs.reverse.takeWhile p).reverse, ?_, ?_⟩
  · rw [dropEndWhile, ← List.reverse_append, List.takeWhile_append_dropWhile, List.reverse_reverse]
  · intro c hc
    exact List.all_eq_true.1 List.all_takeWhile c (List.mem_reverse.1 hc)

def trimStart (cs : List Char) : List Char := cs.dropWhile isBlank

def trimEnd (cs : List Char) : List Char := dropEndWhile isBlank cs

def trim (cs : List Char) : List Char := trimEnd (trimStart cs)

/-- The text without a given beginning, if it has it. -/
def strip? : List Char → List Char → Option (List Char)
  | [], cs => some cs
  | _ :: _, [] => none
  | p :: ps, c :: cs => if p = c then strip? ps cs else none

theorem strip?_eq_some {p cs r : List Char} : strip? p cs = some r ↔ cs = p ++ r := by
  induction p generalizing cs with
  | nil => simp [strip?, eq_comm]
  | cons a p ih =>
    cases cs with
    | nil => simp [strip?]
    | cons c cs => by_cases h : a = c <;> simp [strip?, h, ih, eq_comm]

/-- The text without a given ending, if it has it. -/
def stripEnd? (e cs : List Char) : Option (List Char) :=
  (strip? e.reverse cs.reverse).map List.reverse

end HeaderLex.Text
