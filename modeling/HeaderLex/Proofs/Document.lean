import HeaderLex.Proofs.Code

/-!
# Conditional compilation of structured documents

A document is code and nested conditionals.  Its text is read by two loops that share a stack of open
conditionals; its meaning is a walk over its tree.  Both deliver the same tokens.

* `Document`, `Branches`     documents, with `render` for their text;
* `Document.codes`           the code texts of a document, each with the regions around it;
* `Document.resumes`         reading the text of a document delivers its included code;
* `tokenizePreprocessed_render`   so does reading a whole source.
-/

namespace HeaderLex

/-! ## conditions do not depend on the blanks around them -/

namespace Text

theorem dropWhile_eq_self {p : Char → Bool} {cs : List Char} (h : cs.head?.any p = false) :
    cs.dropWhile p = cs := by
  cases cs with
  | nil => rfl
  | cons c cs =>
    have hc : p c = false := h
    exact List.dropWhile_cons_of_neg (by rw [hc]; decide)

theorem head?_dropWhile (p : Char → Bool) (cs : List Char) : (cs.dropWhile p).head?.any p = false := by
  have h := List.head?_dropWhile_not p cs
  cases hd : (cs.dropWhile p).head? with
  | none => rfl
  | some c =>
    rw [hd] at h
    exact h

theorem trim_trim (cs : List Char) : trim (trim cs) = trim cs := by
  have hstart : trimStart (trim cs) = trim cs := by
    obtain ⟨t, ht, -⟩ := dropEndWhile_append isBlank (trimStart cs)
    have hhead := head?_dropWhile isBlank cs
    apply dropWhile_eq_self
    show (dropEndWhile isBlank (trimStart cs)).head?.any isBlank = false
    cases he : dropEndWhile isBlank (trimStart cs) with
    | nil => rfl
    | cons a as =>
      rw [he] at ht
      have ht' : cs.dropWhile isBlank = a :: as ++ t := ht
      rw [ht'] at hhead
      exact hhead
  have hend : trimEnd (trim cs) = trim cs := by
    show (List.dropWhile isBlank (List.reverse (List.reverse _))).reverse = _
    rw [List.reverse_reverse, dropWhile_eq_self (head?_dropWhile ..)]
    rfl
  show trimEnd (trimStart (trim cs)) = _
  rw [hstart, hend]

theorem trim_blank (cs : List Char) : trim (' ' :: cs) = trim cs := rfl

end Text

namespace Conditional

theorem classify_eq (c : Conditional) (cs : List Char) : c.classify cs = match Text.trim cs with
    | '!' :: rest => (c.classify rest).inverted
    | '(' :: rest =>
      match Text.stripEnd? [')'] rest with
      | some inner => c.classify inner
      | none => c.classifyAtom ('(' :: rest)
    | atom => c.classifyAtom atom := by
  rw [classify]
  split
  · next rest h =>
    rw [h]
    rfl
  · next rest h =>
    rw [h]
    split
    · next inner hi => simp only [hi]
    · next hi => simp only [hi]
  · next hn ho =>
    split
    · next rest h => exact absurd h (hn rest)
    · next rest h => exact absurd h (ho rest)
    · rfl

theorem classify_trim (c : Conditional) (cs : List Char) : c.classify (Text.trim cs) = c.classify cs := by
  rw [classify_eq, Text.trim_trim, ← classify_eq]

/-- The open conditionals do not matter to a condition. -/
theorem classify_stack (c : Conditional) (stack : List Frame) (cs : List Char) :
    { c with stack }.classify cs = c.classify cs := by
  fun_induction classify c cs with
  | case1 cs rest h ih =>
    rw [classify_eq, h]
    exact congrArg Region.inverted ih
  | case2 cs rest h inner hi ih =>
    rw [classify_eq, h]
    simp only [hi]
    exact ih
  | case3 cs rest h hi =>
    rw [classify_eq, h]
    simp only [hi]
    rfl
  | case4 cs hn ho =>
    rw [classify_eq]
    split
    · next rest h => exact absurd h (hn rest)
    · next rest h => exact absurd h (ho rest)
    · rfl

end Conditional

/-! ## documents -/

/-- The directive that opens a conditional. -/
inductive Opening where
  | condition (text : String)
  | defined (symbol : String)
  | undefined (symbol : String)

mutual

/-- Code and conditionals, in order. -/
inductive Document where
  | empty
  | code (text : String) (after : Document)
  | conditional (opening : Opening) (body : Document) (branches : Branches) (after : Document)

/-- What follows the first branch of a conditional. -/
inductive Branches where
  | close
  | elseIf (condition : String) (body : Document) (more : Branches)
  | otherwise (body : Document)

end

/-- A directive on a line of its own. -/
def directiveText (name : String) (arguments : List Char) : List Char :=
  '#' :: (name.toList ++ arguments ++ ['\n'])

namespace Opening

def name : Opening → String
  | condition _ => "if"
  | defined _ => "ifdef"
  | undefined _ => "ifndef"

def arguments : Opening → String
  | condition text => text
  | defined symbol => symbol
  | undefined symbol => symbol

/-- The verdict on the first branch. -/
def region (c : Conditional) : Opening → Region
  | condition text => c.classify text.toList
  | defined symbol => c.classifySymbol (Text.trim symbol.toList)
  | undefined symbol => (c.classifySymbol (Text.trim symbol.toList)).inverted

def render (o : Opening) : List Char := directiveText o.name (' ' :: o.arguments.toList)

end Opening

mutual

/-- The text of a document. -/
def Document.render : Document → List Char
  | .empty => []
  | .code text after => text.toList ++ after.render
  | .conditional opening body branches after =>
    opening.render ++ (body.render ++ (branches.render ++ after.render))

def Branches.render : Branches → List Char
  | .close => directiveText "endif" []
  | .elseIf condition body more =>
    directiveText "elif" (' ' :: condition.toList) ++ (body.render ++ more.render)
  | .otherwise body => directiveText "else" [] ++ (body.render ++ directiveText "endif" [])

end

/-! ## which code is included -/

/-- The region of a branch, after the verdicts on the earlier conditions of its chain: only the
first condition that holds counts. -/
def branchRegion (earlier : List Region) (own : Region) : Region :=
  if .included ∈ earlier then .silent else own

/-- The region of a last branch without condition: it is included when all conditions before it
were decided, and none held. -/
def lastRegion (earlier : List Region) : Region :=
  if .included ∈ earlier then .silent else if .scanned ∈ earlier then .scanned else .included

mutual

/-- The code texts of a document, each with the regions of the branches around it, outermost
first. -/
def Document.codes (c : Conditional) (path : List Region) : Document → List (List Region × String)
  | .empty => []
  | .code text after => (path, text) :: after.codes c path
  | .conditional opening body branches after =>
    body.codes c (path ++ [opening.region c]) ++
      (branches.codes c path [opening.region c] ++ after.codes c path)

def Branches.codes (c : Conditional) (path earlier : List Region) :
    Branches → List (List Region × String)
  | .close => []
  | .elseIf condition body more =>
    let own := c.classify condition.toList
    body.codes c (path ++ [branchRegion earlier own]) ++ more.codes c path (earlier ++ [own])
  | .otherwise body => body.codes c (path ++ [lastRegion earlier])

end

mutual

/-- The conditions of a document and the symbols it tests. -/
def Document.conditions : Document → List String
  | .empty => []
  | .code _ after => after.conditions
  | .conditional opening body branches after =>
    opening.arguments :: (body.conditions ++ (branches.conditions ++ after.conditions))

def Branches.conditions : Branches → List String
  | .close => []
  | .elseIf condition body more => condition :: (body.conditions ++ more.conditions)
  | .otherwise body => body.conditions

end

/-- The outermost region around a text that leaves it out. -/
def outermostExclusion (path : List Region) : Option Region := path.find? (!·.isIncluded)

/-- The tokens of a text that is read without a preprocessor. -/
def plainContents (preferences : LexicalPreferences) (text : String) : List (TokenKind × String) :=
  match (tokenize text preferences).result with
  | .ok tokens => tokens.map Token.content
  | .error _ => []

/-- Code that may stand in a document: whole lines that are read without failure, with no `#` at the
beginning of a line. -/
structure IsCode (preferences : LexicalPreferences) (text : String) : Prop where
  line : ∃ ds, text.toList = ds ++ ['\n']
  plain : ∃ tokens, (tokenize text preferences).result = .ok tokens ∧
    ∀ t ∈ tokens, (Lexer.ofSource text preferences).hashFirst t = false

/-- Whether a text is code, by reading it. -/
def isCode (preferences : LexicalPreferences) (text : String) : Bool :=
  text.toList.getLast? == some '\n' && match (tokenize text preferences).result with
    | .ok tokens => tokens.all fun t => !(Lexer.ofSource text preferences).hashFirst t
    | .error _ => false

theorem isCode_iff {preferences : LexicalPreferences} {text : String} :
    isCode preferences text = true ↔ IsCode preferences text := by
  unfold isCode
  rw [Bool.and_eq_true, beq_iff_eq, List.getLast?_eq_some_iff]
  constructor
  · rintro ⟨hline, hread⟩
    cases hr : (tokenize text preferences).result with
    | error f =>
      rw [hr] at hread
      cases hread
    | ok tokens =>
      rw [hr] at hread
      refine ⟨hline, tokens, hr, ?_⟩
      intro t ht
      simpa using List.all_eq_true.1 hread t ht
  · rintro ⟨hline, tokens, hr, hhash⟩
    refine ⟨hline, ?_⟩
    rw [hr]
    exact List.all_eq_true.2 fun t ht => by rw [hhash t ht]; rfl

instance (preferences : LexicalPreferences) (text : String) : Decidable (IsCode preferences text) :=
  decidable_of_iff _ isCode_iff

/-- Every text is code, and where it is searched for illegal contents there are none. -/
def Admissible (preferences : LexicalPreferences) (codes : List (List Region × String)) : Prop :=
  ∀ e ∈ codes, IsCode preferences e.2 ∧ (outermostExclusion e.1 = some .scanned →
    ∀ t ∈ plainContents preferences e.2, IsClean t)

instance (preferences : LexicalPreferences) (codes : List (List Region × String)) :
    Decidable (Admissible preferences codes) :=
  inferInstanceAs (Decidable (∀ e ∈ codes, _ ∧ (_ → ∀ t ∈ _, IsClean t)))

/-- The tokens of the texts that stand in included branches only. -/
def includedContents (preferences : LexicalPreferences) (codes : List (List Region × String)) :
    List (TokenKind × String) :=
  (codes.filter fun e => e.1.all Region.isIncluded).flatMap fun e => plainContents preferences e.2

section

variable {preferences : LexicalPreferences}

theorem includedContents_append (xs ys : List (List Region × String)) :
    includedContents preferences (xs ++ ys)
      = includedContents preferences xs ++ includedContents preferences ys := by
  unfold includedContents
  rw [List.filter_append, List.flatMap_append]

theorem Admissible.left {xs ys : List (List Region × String)} (h : Admissible preferences (xs ++ ys)) :
    Admissible preferences xs :=
  fun e he => h e (List.mem_append_left _ he)

theorem Admissible.right {xs ys : List (List Region × String)} (h : Admissible preferences (xs ++ ys)) :
    Admissible preferences ys :=
  fun e he => h e (List.mem_append_right _ he)

/-- Reading code without a preprocessor crosses it. -/
theorem IsCode.crosses {text : String} (h : IsCode preferences text) :
    Crosses [] text.toList (plainContents preferences text) text.toList.reverse [] := by
  obtain ⟨tokens, hok, hhash⟩ := h.plain
  have hd : (Lexer.ofSource text preferences).drain.result = .ok tokens := hok
  have hplain : (Lexer.ofSource text preferences).Plain (Lexer.ofSource text preferences).source :=
    ⟨rfl, rfl, Cursor.Within.ofText text.toList⟩
  obtain ⟨after, hcross⟩ := hplain.crosses hd hhash
  have hafter : after = text.toList.reverse := by
    have htext := hcross.text
    rw [List.append_nil] at htext
    rw [← List.reverse_reverse after, ← htext]
    rfl
  have hcontents : plainContents preferences text = tokens.map Token.content := by
    unfold plainContents
    rw [hok]
  rw [hcontents, ← hafter]
  exact hcross

end

/-! ## the stack of open conditionals follows the tree -/

/-- The regions around the text under a stack, outermost first. -/
def regionsOf (stack : List Frame) : List Region := (stack.map Frame.region).reverse

theorem regionsOf_cons (frame : Frame) (outer : List Frame) :
    regionsOf (frame :: outer) = regionsOf outer ++ [frame.region] := by
  unfold regionsOf
  rw [List.map_cons, List.reverse_cons]

theorem outermostExclusion_some {path : List Region} {region : Region}
    (h : outermostExclusion path = some region) : region.isIncluded = false := by
  have hout := List.find?_some h
  simpa using hout

theorem effective_eq (stack : List Frame) :
    Conditional.effective stack = (outermostExclusion (regionsOf stack)).getD .included := by
  induction stack with
  | nil => rfl
  | cons frame outer ih =>
    rw [regionsOf_cons, Conditional.effective, ih]
    unfold outermostExclusion
    rw [List.find?_append]
    cases hfind : (regionsOf outer).find? (!·.isIncluded) with
    | none => cases hr : frame.region <;> simp [Region.isIncluded]
    | some region =>
      have hout := outermostExclusion_some hfind
      simp only [Option.getD_some, Option.some_or, hout, Bool.false_eq_true, if_false]

/-- Code is delivered exactly when all regions around it include it. -/
theorem keeps_effective (stack : List Frame) (ts : List (TokenKind × String)) :
    (Conditional.effective stack).keeps ts
      = if (regionsOf stack).all Region.isIncluded then ts else [] := by
  rw [effective_eq]
  unfold outermostExclusion Region.keeps
  cases hfind : (regionsOf stack).find? (!·.isIncluded) with
  | none =>
    have hall : (regionsOf stack).all Region.isIncluded = true := by
      rw [List.all_eq_true]
      intro region hmem
      have := List.find?_eq_none.1 hfind region hmem
      simpa using this
    rw [hall]
    rfl
  | some region =>
    have hout := outermostExclusion_some hfind
    have hall : (regionsOf stack).all Region.isIncluded = false := by
      rw [List.all_eq_false]
      exact ⟨region, List.mem_of_find?_eq_some hfind, by rw [hout]; decide⟩
    rw [hall, Option.getD_some, hout]

namespace Frame

/-- The flags of a frame know the verdicts on the conditions of its chain so far. -/
def Tracks (frame : Frame) (earlier : List Region) : Prop :=
  frame.branchTaken = decide (.included ∈ earlier) ∧
    (.included ∉ earlier → frame.sawUnknown = decide (.scanned ∈ earlier))

theorem opening_tracks (region : Region) : (opening region).Tracks [region] := by
  cases region <;> simp [opening, Tracks, Region.isIncluded]

theorem Tracks.elseIf {frame : Frame} {earlier : List Region} (h : frame.Tracks earlier)
    (own : Region) : (frame.elseIf own).Tracks (earlier ++ [own]) ∧
      (frame.elseIf own).region = branchRegion earlier own := by
  obtain ⟨htaken, hunknown⟩ := h
  unfold Frame.elseIf branchRegion
  by_cases hin : .included ∈ earlier
  · rw [htaken, if_pos hin, decide_eq_true hin, if_pos rfl]
    refine ⟨⟨?_, ?_⟩, rfl⟩
    · simp [hin]
    · intro hnot
      exact absurd (List.mem_append_left _ hin) hnot
  · rw [htaken, if_neg hin, decide_eq_false hin, if_neg (by decide), hunknown hin]
    refine ⟨⟨?_, ?_⟩, rfl⟩
    · cases own <;> simp [hin, Region.isIncluded]
    · intro _
      cases own <;> simp

theorem Tracks.otherwise {frame : Frame} {earlier : List Region} (h : frame.Tracks earlier) :
    frame.otherwise.region = lastRegion earlier := by
  obtain ⟨htaken, hunknown⟩ := h
  unfold Frame.otherwise lastRegion
  by_cases hin : .included ∈ earlier
  · simp [htaken, hin]
  · simp [htaken, hin, hunknown hin]

end Frame

/-! ## reading the text of a document -/

/-- Reading on from the beginning of a line delivers tokens, whatever fits the region there. -/
def Resumes (c : Conditional) (stack : List Frame) (before rest : List Char)
    (ts : List (TokenKind × String)) : Prop :=
  LineStart before → ∀ mode : Mode, mode.Fits (Conditional.effective stack) →
    Reads c mode stack before rest ts

theorem LineStart.lastLineBlank {before : List Char} (h : LineStart before) :
    lastLineBlank before = true := by
  rcases h with rfl | ⟨b, rfl⟩ <;> rfl

namespace Resumes

variable {c : Conditional} {stack stack' : List Frame} {before tail : List Char}
  {ts us : List (TokenKind × String)} {preferences : LexicalPreferences}

/-- A directive line changes the open conditionals, and reading goes on under them. -/
theorem directive {name : String} {arguments : List Char}
    (hname : name.toList ≠ [] ∧ name.toList.all isNameChar = true)
    (hhead : arguments.head?.any isNameChar = false) (hquiet : DirectiveLine.Quiet arguments)
    (hstep : ∀ (d : Directive) isIncluded, d.name = name →
      d.arguments = String.ofList (Text.trim arguments) →
      { c with stack }.step d isIncluded = .ok stack')
    (h : Resumes c stack' ((directiveText name arguments).reverse ++ before) tail ts) :
    Resumes c stack before (directiveText name arguments ++ tail) ts := by
  intro hstart mode hfit
  obtain ⟨hn, ha, htaken, hleft⟩ := DirectiveLine.quiet_line hname.1 (List.all_eq_true.1 hname.2)
    hhead hquiet tail
  have htext : directiveText name arguments ++ tail
      = '#' :: (name.toList ++ arguments ++ '\n' :: tail) := by
    show '#' :: (name.toList ++ arguments ++ ['\n'] ++ tail) = _
    rw [List.append_assoc (name.toList ++ arguments)]
    rfl
  have hlines : WholeLines (directiveText name arguments) :=
    .inr ⟨'#' :: (name.toList ++ arguments), rfl⟩
  rw [htext]
  refine @Reads.directive c mode stack stack' before _ Position.start ts hstart.lastLineBlank ?_ ?_
  · apply hstep
    · show String.ofList (DirectiveLine.nameOf _) = _
      rw [hn, String.ofList_toList]
    · show String.ofList (Text.trim (DirectiveLine.argumentsOf _)) = _
      rw [ha]
  · rw [htaken, hleft]
    exact h (LineStart.of_wholeLines hlines hstart) _ (hfit.turn _)

/-- Code is delivered if all regions around it include it. -/
theorem code {text : String} (hcode : IsCode preferences text)
    (hclean : outermostExclusion (regionsOf stack) = some .scanned →
      ∀ t ∈ plainContents preferences text, IsClean t)
    (h : Resumes c stack (text.toList.reverse ++ before) tail us) :
    Resumes c stack before (text.toList ++ tail)
      (includedContents preferences [(regionsOf stack, text)] ++ us) := by
  intro hstart mode hfit
  have hlines : WholeLines text.toList := .inr hcode.line
  have hcross := hcode.crosses.embed hlines hstart tail
  have hkeeps : includedContents preferences [(regionsOf stack, text)]
      = (Conditional.effective stack).keeps (plainContents preferences text) := by
    rw [keeps_effective]
    unfold includedContents
    cases hall : (regionsOf stack).all Region.isIncluded <;> simp [hall]
  have hscan : Conditional.effective stack = .scanned →
      ∀ t ∈ plainContents preferences text, IsClean t := by
    intro he
    apply hclean
    rw [effective_eq] at he
    cases hout : outermostExclusion (regionsOf stack) with
    | none =>
      rw [hout] at he
      cases he
    | some region =>
      rw [hout] at he
      exact congrArg some he
  rw [hkeeps]
  exact hcross.reads hscan (fun mode hfit => h (LineStart.of_wholeLines hlines hstart) mode hfit) hfit

theorem quiet_blank {cs : List Char} (h : DirectiveLine.Quiet cs) : DirectiveLine.Quiet (' ' :: cs) where
  line := by simp [h.line]
  quote := by simp [h.quote]
  backslash := by simp [h.backslash]
  lineComment := by
    rw [List.infix_cons_iff]
    rintro (⟨t, ht⟩ | hin)
    · cases ht
    · exact h.lineComment hin
  blockComment := by
    rw [List.infix_cons_iff]
    rintro (⟨t, ht⟩ | hin)
    · cases ht
    · exact h.blockComment hin

theorem quiet_nil : DirectiveLine.Quiet [] := by
  constructor <;> simp

theorem opening {o : Opening} (hquiet : DirectiveLine.Quiet o.arguments.toList)
    (h : Resumes c (Frame.opening (o.region c) :: stack) (o.render.reverse ++ before) tail ts) :
    Resumes c stack before (o.render ++ tail) ts := by
  refine directive ?_ rfl (quiet_blank hquiet) ?_ h
  · cases o <;> (dsimp only [Opening.name]; decide)
  · intro d isIncluded hn ha
    rw [Text.trim_blank] at ha
    cases o with
    | condition text =>
      have hn : d.name = "if" := hn
      simp only [Conditional.step, hn, ha, String.toList_ofList, Conditional.classify_stack]
      rw [Conditional.classify_trim]
      rfl
    | defined symbol =>
      have hn : d.name = "ifdef" := hn
      simp only [Conditional.step, hn, ha, String.toList_ofList, Text.trim_trim]
      rfl
    | undefined symbol =>
      have hn : d.name = "ifndef" := hn
      simp only [Conditional.step, hn, ha, String.toList_ofList, Text.trim_trim]
      rfl

theorem elseIf {frame : Frame} {condition : String} (hquiet : DirectiveLine.Quiet condition.toList)
    (h : Resumes c (frame.elseIf (c.classify condition.toList) :: stack)
      ((directiveText "elif" (' ' :: condition.toList)).reverse ++ before) tail ts) :
    Resumes c (frame :: stack) before (directiveText "elif" (' ' :: condition.toList) ++ tail) ts := by
  refine directive ⟨by decide, by decide⟩ rfl (quiet_blank hquiet) ?_ h
  intro d isIncluded hn ha
  rw [Text.trim_blank] at ha
  simp only [Conditional.step, hn, ha, String.toList_ofList, Conditional.classify_stack]
  rw [Conditional.classify_trim]

theorem otherwise {frame : Frame}
    (h : Resumes c (frame.otherwise :: stack) ((directiveText "else" []).reverse ++ before) tail ts) :
    Resumes c (frame :: stack) before (directiveText "else" [] ++ tail) ts := by
  refine directive ⟨by decide, by decide⟩ rfl quiet_nil ?_ h
  intro d isIncluded hn _
  simp only [Conditional.step, hn]

theorem close {frame : Frame}
    (h : Resumes c stack ((directiveText "endif" []).reverse ++ before) tail ts) :
    Resumes c (frame :: stack) before (directiveText "endif" [] ++ tail) ts := by
  refine directive ⟨by decide, by decide⟩ rfl quiet_nil ?_ h
  intro d isIncluded hn _
  simp only [Conditional.step, hn]

end Resumes

/-- The text before a place, when two texts are stepped over in turn. -/
theorem reverse_append_append (s t before : List Char) :
    (s ++ t).reverse ++ before = t.reverse ++ (s.reverse ++ before) := by
  rw [List.reverse_append, List.append_assoc]

mutual

/-- Reading the text of a document delivers its included code, and goes on after it. -/
theorem Document.resumes {c : Conditional} {preferences : LexicalPreferences} {stack : List Frame}
    {before tail : List Char} {us : List (TokenKind × String)} (d : Document)
    (hquiet : ∀ s ∈ d.conditions, DirectiveLine.Quiet s.toList)
    (hcodes : Admissible preferences (d.codes c (regionsOf stack)))
    (h : Resumes c stack (d.render.reverse ++ before) tail us) :
    Resumes c stack before (d.render ++ tail)
      (includedContents preferences (d.codes c (regionsOf stack)) ++ us) := by
  match d with
  | .empty => exact h
  | .code text after =>
    have hcodes : Admissible preferences
      ([(regionsOf stack, text)] ++ after.codes c (regionsOf stack)) := hcodes
    obtain ⟨hcode, hclean⟩ := hcodes (regionsOf stack, text) List.mem_cons_self
    have happ := @includedContents_append preferences [(regionsOf stack, text)]
      (after.codes c (regionsOf stack))
    simp only [Document.render, reverse_append_append] at h
    simp only [Document.render, Document.codes, List.append_assoc]
    rw [← List.singleton_append, happ, List.append_assoc]
    exact Resumes.code hcode hclean (after.resumes hquiet hcodes.right h)
  | .conditional opening body branches after =>
    have hpath : regionsOf (Frame.opening (opening.region c) :: stack)
        = regionsOf stack ++ [opening.region c] := regionsOf_cons ..
    simp only [Document.conditions, List.mem_cons, List.mem_append] at hquiet
    simp only [Document.render, reverse_append_append] at h
    simp only [Document.codes, ← hpath] at hcodes ⊢
    simp only [Document.render, List.append_assoc, includedContents_append]
    apply Resumes.opening (hquiet _ (.inl rfl))
    apply body.resumes (fun s hs => hquiet s (.inr (.inl hs))) hcodes.left
    apply branches.resumes (Frame.opening_tracks _) (fun s hs => hquiet s (.inr (.inr (.inl hs))))
      hcodes.right.left
    exact after.resumes (fun s hs => hquiet s (.inr (.inr (.inr hs)))) hcodes.right.right h

/-- So does reading the text of branches, under the frame of their conditional. -/
theorem Branches.resumes {c : Conditional} {preferences : LexicalPreferences} {frame : Frame}
    {stack : List Frame} {earlier : List Region} {before tail : List Char}
    {us : List (TokenKind × String)} (b : Branches) (htracks : frame.Tracks earlier)
    (hquiet : ∀ s ∈ b.conditions, DirectiveLine.Quiet s.toList)
    (hcodes : Admissible preferences (b.codes c (regionsOf stack) earlier))
    (h : Resumes c stack (b.render.reverse ++ before) tail us) :
    Resumes c (frame :: stack) before (b.render ++ tail)
      (includedContents preferences (b.codes c (regionsOf stack) earlier) ++ us) := by
  match b with
  | .close => exact Resumes.close h
  | .elseIf condition body more =>
    obtain ⟨htracks', hregion⟩ := htracks.elseIf (c.classify condition.toList)
    have hpath := regionsOf_cons (frame.elseIf (c.classify condition.toList)) stack
    rw [hregion] at hpath
    simp only [Branches.conditions, List.mem_cons, List.mem_append] at hquiet
    simp only [Branches.render, reverse_append_append] at h
    simp only [Branches.codes, ← hpath] at hcodes ⊢
    simp only [Branches.render, List.append_assoc, includedContents_append]
    apply Resumes.elseIf (hquiet _ (.inl rfl))
    apply body.resumes (fun s hs => hquiet s (.inr (.inl hs))) hcodes.left
    exact more.resumes htracks' (fun s hs => hquiet s (.inr (.inr hs))) hcodes.right h
  | .otherwise body =>
    have hpath := regionsOf_cons frame.otherwise stack
    rw [htracks.otherwise] at hpath
    simp only [Branches.render, reverse_append_append] at h
    simp only [Branches.codes, ← hpath] at hcodes ⊢
    simp only [Branches.render, List.append_assoc]
    apply Resumes.otherwise
    apply body.resumes hquiet hcodes
    exact Resumes.close h

end

/-- Conditional compilation delivers the included code of a document, and nothing else. -/
theorem tokenizePreprocessed_render {d : Document} {preferences : LexicalPreferences}
    (hquiet : ∀ s ∈ d.conditions, DirectiveLine.Quiet s.toList)
    (hcodes : Admissible preferences (d.codes Conditional.standard [])) :
    ∃ tokens, (tokenizePreprocessed (String.ofList d.render) preferences).result = .ok tokens ∧
      tokens.map Token.content
        = includedContents preferences (d.codes Conditional.standard []) := by
  have hend : Resumes Conditional.standard [] (d.render.reverse ++ []) [] [] := by
    intro _ mode hfit
    cases mode with
    | reading => exact .done
    | skipping scan seen =>
      obtain ⟨hr, -⟩ := hfit
      cases scan <;> cases hr
  have hreads := d.resumes hquiet hcodes hend (.inl rfl) .reading rfl
  rw [List.append_nil, List.append_nil] at hreads
  have hstands : ((Lexer.ofSource (String.ofList d.render) preferences).withPreprocessor
      (some (.conditional Conditional.standard))).Stands Conditional.standard [] [] d.render := by
    refine ⟨rfl, ?_, rfl, rfl, rfl⟩
    exact String.toList_ofList
  exact hreads.promise _ hstands

/-- An undecided chain with a nested conditional, and markup in a branch that is not taken. -/
def Document.sample : Document :=
  .code "int a; // #if\n" <|
  .conditional (.condition "FOO") (.code "void b\n" .empty)
    (.elseIf " !0 "
      (.conditional (.undefined "CPP") (.code "c(\"#\\\n\")\n" .empty) (.otherwise (.code "d\n" .empty))
        .empty)
      (.otherwise (.code "UCLASS(\n" .empty))) <|
  .code "e\n" .empty

theorem tokenizePreprocessed_sample :
    ∃ tokens, (tokenizePreprocessed (String.ofList Document.sample.render)
      ⟨true, false, false, true⟩).result = .ok tokens ∧
      tokens.map Token.content = [(.identifier, "int"), (.identifier, "a"), (.symbol, ";"),
        (.identifier, "c"), (.symbol, "("), (.stringConst, "\"#\\\n\""), (.symbol, ")"),
        (.identifier, "e")] := by
  have h := @tokenizePreprocessed_render Document.sample ⟨true, false, false, true⟩
    (by decide +kernel) (by decide +kernel)
  have hcontents : includedContents ⟨true, false, false, true⟩
      (Document.sample.codes Conditional.standard []) = [(.identifier, "int"), (.identifier, "a"),
        (.symbol, ";"), (.identifier, "c"), (.symbol, "("), (.stringConst, "\"#\\\n\""),
        (.symbol, ")"), (.identifier, "e")] := by decide +kernel
  rw [hcontents] at h
  exact h

end HeaderLex
