import HeaderLex.Diagnostic.SourceError
import HeaderLex.Preprocessor.Directive

/-!
# Conditional compilation over known symbols

Conditions are decided from two sets of symbols, those known to be true and those known to be
false; a condition on any other symbol is undecided.

* `Conditional.classify`    the region of a condition;
* `Conditional.effective`   the region of a stack of open conditionals: the outermost exclusion wins;
* `Conditional.answer`      the verdict on a directive, and the stack after it.
-/

set_option linter.unusedVariables false

namespace HeaderLex

/-- One open conditional. -/
structure Frame where
  region : Region
  /-- Some branch was included. -/
  branchTaken : Bool
  /-- Some condition was undecided. -/
  sawUnknown : Bool
deriving DecidableEq, Repr

namespace Frame

/-- The frame of a conditional that opens with a region. -/
def opening (region : Region) : Frame :=
  ⟨region, region.isIncluded, region == .scanned⟩

/-- The frame after an alternative with a condition of its own. -/
def elseIf (frame : Frame) (region : Region) : Frame :=
  if frame.branchTaken then { frame with region := .silent }
  else ⟨region, region.isIncluded, frame.sawUnknown || region == .scanned⟩

/-- The frame after the last alternative. -/
def otherwise (frame : Frame) : Frame :=
  { frame with
    region := if frame.branchTaken then .silent else if frame.sawUnknown then .scanned else .included
    branchTaken := true }

end Frame

structure Conditional where
  knownTrue : List String
  knownFalse : List String
  /-- Open conditionals, innermost first. -/
  stack : List Frame
  /-- Stacks to go back to, newest first. -/
  saved : List (List Frame)
deriving DecidableEq, Repr

namespace Conditional

def standard : Conditional :=
  ⟨["1", "WITH_EDITORONLY_DATA", "WITH_EDITOR"], ["0", "CPP"], [], []⟩

/-- Takes `symbol` for true. -/
def define (c : Conditional) (symbol : String) : Conditional :=
  { c with knownFalse := c.knownFalse.filter (· != symbol), knownTrue := symbol :: c.knownTrue }

/-- Takes `symbol` for false. -/
def undefine (c : Conditional) (symbol : String) : Conditional :=
  { c with knownTrue := c.knownTrue.filter (· != symbol), knownFalse := symbol :: c.knownFalse }

/-- Number of open conditionals. -/
def depth (c : Conditional) : Nat := c.stack.length

/-- The region under a stack of open conditionals: the outermost exclusion wins. -/
def effective : List Frame → Region
  | [] => .included
  | frame :: outer => if (effective outer).isIncluded then frame.region else effective outer

/-! ### Conditions -/

/-- The region of a symbol. -/
def classifySymbol (c : Conditional) (symbol : List Char) : Region :=
  let symbol := String.ofList symbol
  if c.knownTrue.contains symbol then .included
  else if c.knownFalse.contains symbol then .silent
  else .scanned

/-- The region of a condition without negation and outer parentheses: a symbol, or a test whether
a symbol is defined. -/
def classifyAtom (c : Conditional) (condition : List Char) : Region :=
  match Text.strip? "defined".toList condition with
  | some rest =>
    let symbol := Text.dropEndWhile (· == ')') ((Text.trim rest).dropWhile (· == '('))
    c.classifySymbol (Text.trim symbol)
  | none => c.classifySymbol condition

private theorem length_dropWhile_le (p : Char → Bool) (cs : List Char) :
    (cs.dropWhile p).length ≤ cs.length := (List.dropWhile_sublist p).length_le

theorem length_trim_le (cs : List Char) : (Text.trim cs).length ≤ cs.length := by
  unfold Text.trim Text.trimEnd Text.dropEndWhile Text.trimStart
  rw [List.length_reverse]
  refine Nat.le_trans (length_dropWhile_le _ _) ?_
  rw [List.length_reverse]
  exact length_dropWhile_le _ _

theorem length_stripEnd? {e cs r : List Char} (h : Text.stripEnd? e cs = some r) :
    r.length + e.length = cs.length := by
  obtain ⟨s, hs, rfl⟩ := Option.map_eq_some_iff.1 h
  have := congrArg List.length (Text.strip?_eq_some.1 hs)
  simp at this ⊢
  omega

/-- The region of a condition. -/
def classify (c : Conditional) (condition : List Char) : Region :=
  match h : Text.trim condition with
  | '!' :: rest => (classify c rest).inverted
  | '(' :: rest =>
    match hr : Text.stripEnd? [')'] rest with
    | some inner => classify c inner
    | none => c.classifyAtom ('(' :: rest)
  | atom => c.classifyAtom atom
termination_by condition.length
decreasing_by
  all_goals
    have := length_trim_le condition
    rw [h] at this
    simp at this
  · omega
  · have := length_stripEnd? hr
    simp at this
    omega

/-! ### Directives -/

/-- Directives that leave the open conditionals alone. -/
def passive : List String :=
  ["", "include", "pragma", "define", "undef", "error", "warning", "line"]

/-- What a directive does to the open conditionals: the new stack, or why it is refused. -/
def step (c : Conditional) (d : Directive) (isIncluded : Bool) : Except SourceError (List Frame) :=
  let arguments := d.arguments.toList
  let unmatched : Except SourceError (List Frame) :=
    .error ⟨.invalidDirective s!"#{d.name} without matching #if", d.position⟩
  match d.name with
  | "if" => .ok (Frame.opening (c.classify arguments) :: c.stack)
  | "ifdef" => .ok (Frame.opening (c.classifySymbol (Text.trim arguments)) :: c.stack)
  | "ifndef" => .ok (Frame.opening (c.classifySymbol (Text.trim arguments)).inverted :: c.stack)
  | "elif" =>
    match c.stack with
    | frame :: outer => .ok (frame.elseIf (c.classify arguments) :: outer)
    | [] => unmatched
  | "else" =>
    match c.stack with
    | frame :: outer => .ok (frame.otherwise :: outer)
    | [] => unmatched
  | "endif" =>
    match c.stack with
    | _ :: outer => .ok outer
    | [] => unmatched
  | name =>
    if passive.contains name || !isIncluded then .ok c.stack
    else .error ⟨.invalidDirective s!"unknown directive '#{name}'", d.position⟩

/-- The verdict on a directive.  `isIncluded` is false while an excluded region is skipped; then
unknown directives pass. -/
def answer (c : Conditional) (d : Directive) (isIncluded : Bool) :
    Except SourceError Verdict × Conditional :=
  match c.step d isIncluded with
  | .ok stack => (.ok ⟨effective stack, !passive.contains d.name⟩, { c with stack })
  | .error e => (.error e, c)

/-! ### Going back -/

def save (c : Conditional) : Conditional := { c with saved := c.stack :: c.saved }

/-- Goes back to the newest saved stack, if there is one. -/
def restore (c : Conditional) : Conditional :=
  match c.saved with
  | stack :: saved => { c with stack, saved }
  | [] => c

/-- Forgets the newest saved stack. -/
def abandon (c : Conditional) : Conditional := { c with saved := c.saved.tail }

end Conditional

end HeaderLex
