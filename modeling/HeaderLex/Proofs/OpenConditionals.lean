import HeaderLex.Proofs.Document
import Mathlib.Data.List.Infix

/-!
# Open conditionals under any directives

A row of directives need not be well nested: alternatives may come twice or behind a last one,
closing directives without an opening one, names may be unknown.  What the open conditionals then
are is said here for every row.

* `Directive.role`, `Conditional.Moves`    what an accepted directive does to the stack;
* `Conditional.frameAt?_answer`            what it does to the conditional at one height;
* `Conditional.frameAt?_after`             what a row of directives inside a conditional does to it;
* `conditional_frames_consistent`          depth, refusals, branches and reported regions.
-/

namespace HeaderLex

/-! ## what a directive does -/

/-- The part a directive plays for the open conditionals. -/
inductive Role where
  | opens
  | alternates
  | closes
  | passes
deriving DecidableEq, Repr

def Directive.role (d : Directive) : Role :=
  match d.name with
  | "if" | "ifdef" | "ifndef" => .opens
  | "elif" | "else" => .alternates
  | "endif" => .closes
  | _ => .passes

/-- The frame after an alternative of its conditional, with or without a condition of its own. -/
inductive Frame.Alternative (frame : Frame) : Frame → Prop
  | elseIf (region : Region) : frame.Alternative (frame.elseIf region)
  | otherwise : frame.Alternative frame.otherwise

namespace Conditional

variable {c : Conditional} {d : Directive} {isIncluded : Bool} {height : Nat}

/-- What an accepted directive does to the open conditionals. -/
inductive Moves (d : Directive) : List Frame → List Frame → Prop
  | opens {stack : List Frame} (region : Region) : d.role = .opens →
      Moves d stack (Frame.opening region :: stack)
  | alternates {frame next : Frame} {outer : List Frame} : d.role = .alternates →
      frame.Alternative next → Moves d (frame :: outer) (next :: outer)
  | closes {frame : Frame} {outer : List Frame} : d.role = .closes → Moves d (frame :: outer) outer
  | passes {stack : List Frame} : d.role = .passes → Moves d stack stack

theorem moves_step {stack : List Frame} (h : c.step d isIncluded = .ok stack) :
    Moves d c.stack stack := by
  unfold step at h
  dsimp only at h
  split at h
  · next hname =>
    obtain rfl := Except.ok.inj h
    exact .opens _ (by simp only [Directive.role, hname])
  · next hname =>
    obtain rfl := Except.ok.inj h
    exact .opens _ (by simp only [Directive.role, hname])
  · next hname =>
    obtain rfl := Except.ok.inj h
    exact .opens _ (by simp only [Directive.role, hname])
  · next hname =>
    split at h
    · next frame outer hstack =>
      obtain rfl := Except.ok.inj h
      rw [hstack]
      exact .alternates (by simp only [Directive.role, hname]) (.elseIf _)
    · cases h
  · next hname =>
    split at h
    · next frame outer hstack =>
      obtain rfl := Except.ok.inj h
      rw [hstack]
      exact .alternates (by simp only [Directive.role, hname]) .otherwise
    · cases h
  · next hname =>
    split at h
    · next frame outer hstack =>
      obtain rfl := Except.ok.inj h
      rw [hstack]
      exact .closes (by simp only [Directive.role, hname])
    · cases h
  · next hif hifdef hifndef helif helse hendif =>
    split at h
    · obtain rfl := Except.ok.inj h
      refine .passes ?_
      unfold Directive.role
      split <;> first | rfl | contradiction
    · cases h

/-- An alternative is refused only where no conditional is open. -/
theorem stack_of_refused {e : SourceError} (h : c.step d isIncluded = .error e)
    (hrole : d.role = .alternates) : c.stack = [] := by
  have hname : d.name = "elif" ∨ d.name = "else" := by
    unfold Directive.role at hrole
    split at hrole
    case h_4 hname => exact .inl hname
    case h_5 hname => exact .inr hname
    all_goals cases hrole
  unfold step at h
  rcases hname with hname | hname
  all_goals
    simp only [hname] at h
    split at h
    · cases h
    · assumption

/-- A directive is accepted and moves the stack, or it is refused and leaves the whole preprocessor as
it is. -/
theorem answer_cases (c : Conditional) (d : Directive) (isIncluded : Bool) :
    (∃ stack, Moves d c.stack stack ∧ c.answer d isIncluded =
      (.ok ⟨effective stack, !passive.contains d.name⟩, { c with stack })) ∨
    ∃ e, c.answer d isIncluded = (.error e, c) ∧ (d.role = .alternates → c.stack = []) := by
  unfold answer
  cases hstep : c.step d isIncluded with
  | ok stack => exact .inl ⟨stack, moves_step hstep, rfl⟩
  | error e => exact .inr ⟨e, rfl, stack_of_refused hstep⟩

/-! ## rows of directives -/

/-- The preprocessor after a row of directives, accepted or refused, each with the flag it is handed
over with. -/
def after (c : Conditional) (ds : List (Directive × Bool)) : Conditional :=
  ds.foldl (fun c d => (c.answer d.1 d.2).2) c

/-- The directives of a row that are accepted. -/
def accepted (c : Conditional) : List (Directive × Bool) → List Directive
  | [] => []
  | (d, isIncluded) :: ds =>
    match c.answer d isIncluded with
    | (.ok _, c) => d :: c.accepted ds
    | (.error _, c) => c.accepted ds

theorem after_cons (c : Conditional) (d : Directive × Bool) (ds : List (Directive × Bool)) :
    c.after (d :: ds) = (c.answer d.1 d.2).2.after ds := rfl

theorem after_append (c : Conditional) (ds ds' : List (Directive × Bool)) :
    c.after (ds ++ ds') = (c.after ds).after ds' := List.foldl_append

/-- Opening directives make the stack one higher, closing ones one lower. -/
theorem Moves.length {stack stack' : List Frame} (h : Moves d stack stack') :
    stack'.length + (if d.role = .closes then 1 else 0) =
      stack.length + if d.role = .opens then 1 else 0 := by
  cases h with
  | opens _ hrole => simp [hrole]
  | alternates hrole _ => simp [hrole]
  | closes hrole => simp [hrole]
  | passes hrole => simp [hrole]

theorem depth_after (c : Conditional) (ds : List (Directive × Bool)) :
    (c.after ds).depth + (c.accepted ds).countP (·.role = .closes) =
      c.depth + (c.accepted ds).countP (·.role = .opens) := by
  induction ds generalizing c with
  | nil => rfl
  | cons d ds ih =>
    obtain ⟨d, isIncluded⟩ := d
    rw [after_cons, accepted]
    rcases answer_cases c d isIncluded with ⟨stack, hmoves, hanswer⟩ | ⟨e, hanswer, -⟩
    · have hlength := hmoves.length
      have hrest := ih { c with stack }
      rw [hanswer]
      dsimp only at hrest ⊢
      rw [List.countP_cons, List.countP_cons]
      simp only [decide_eq_true_eq]
      show _ = c.stack.length + _
      have hdepth : ({ c with stack } : Conditional).depth = stack.length := rfl
      omega
    · rw [hanswer]
      exact ih c

/-! ## one conditional among the open ones -/

/-- The frame of the open conditional at a height, counted from the outermost one. -/
def frameAt? (c : Conditional) (height : Nat) : Option Frame := c.stack.reverse[height]?

/-- A row of directives that never closes the conditional at a height. -/
def Inside (c : Conditional) (height : Nat) (ds : List (Directive × Bool)) : Prop :=
  ∀ front, front <+: ds → height < (c.after front).depth

/-- How many alternatives of the conditional at a height are in a row of directives. -/
def alternatives (height : Nat) (c : Conditional) : List (Directive × Bool) → Nat
  | [] => 0
  | d :: ds => (if d.1.role = .alternates ∧ c.depth = height + 1 then 1 else 0) +
      alternatives height (c.answer d.1 d.2).2 ds

instance (c : Conditional) (height : Nat) (ds : List (Directive × Bool)) :
    Decidable (c.Inside height ds) :=
  decidable_of_iff (∀ front ∈ ds.inits, height < (c.after front).depth)
    (forall_congr' fun _ => imp_congr_left (List.mem_inits _ _))

theorem Inside.tail {d : Directive × Bool} {ds : List (Directive × Bool)}
    (h : c.Inside height (d :: ds)) : (c.answer d.1 d.2).2.Inside height ds :=
  fun front hfront => h (d :: front) (List.cons_prefix_cons.2 ⟨rfl, hfront⟩)

theorem Inside.left {ds ds' : List (Directive × Bool)} (h : c.Inside height (ds ++ ds')) :
    c.Inside height ds := fun front hfront => h front (hfront.trans (List.prefix_append ds ds'))

theorem Inside.right {ds ds' : List (Directive × Bool)} (h : c.Inside height (ds ++ ds')) :
    (c.after ds).Inside height ds' := fun front hfront => by
  rw [← after_append]
  exact h (ds ++ front) ((List.prefix_append_right_inj ds).2 hfront)

/-- A directive inside the conditional at a height leaves the frame there alone, unless it is an
alternative of that very conditional. -/
theorem frameAt?_answer (hbefore : height < c.depth)
    (hafter : height < (c.answer d isIncluded).2.depth) :
    if d.role = .alternates ∧ c.depth = height + 1 then
      ∃ frame next, c.frameAt? height = some frame ∧ frame.Alternative next ∧
        (c.answer d isIncluded).2.frameAt? height = some next
    else (c.answer d isIncluded).2.frameAt? height = c.frameAt? height := by
  rcases answer_cases c d isIncluded with ⟨stack, hmoves, hanswer⟩ | ⟨e, hanswer, hrole⟩
  · rw [hanswer] at hafter ⊢
    unfold frameAt? depth at *
    dsimp only at hafter ⊢
    generalize c.stack = old at hmoves hbefore ⊢
    cases hmoves with
    | opens region hrole =>
      rw [if_neg (by simp [hrole]), List.reverse_cons, List.getElem?_append_left (by simpa using hbefore)]
    | @alternates frame next outer hrole halternative =>
      rw [List.length_cons] at hbefore ⊢
      by_cases htop : outer.length = height
      · rw [if_pos ⟨hrole, by omega⟩, List.reverse_cons, List.reverse_cons, ← htop,
          ← List.length_reverse, List.getElem?_concat_length, List.getElem?_concat_length]
        exact ⟨frame, next, rfl, halternative, rfl⟩
      · have hlow : height < outer.reverse.length := by
          rw [List.length_reverse]
          omega
        rw [if_neg (by omega), List.reverse_cons, List.reverse_cons,
          List.getElem?_append_left hlow, List.getElem?_append_left hlow]
    | closes hrole =>
      rw [if_neg (by simp [hrole]), List.reverse_cons, List.getElem?_append_left (by simpa using hafter)]
    | passes hrole =>
      rw [if_neg (by simp [hrole])]
  · have hnot : ¬ (d.role = .alternates ∧ c.depth = height + 1) := by
      rintro ⟨halternates, hdepth⟩
      rw [depth, hrole halternates] at hdepth
      cases hdepth
    rw [if_neg hnot, hanswer]

end Conditional

/-- A frame with an included branch knows that a branch was taken. -/
def Frame.Settled (frame : Frame) : Prop := frame.region = .included → frame.branchTaken = true

theorem Frame.settled_opening (region : Region) : (opening region).Settled := by
  rintro rfl
  rfl

/-- After a branch was taken every alternative is silent. -/
theorem Frame.Alternative.silent {frame next : Frame} (h : frame.Alternative next)
    (htaken : frame.branchTaken = true) : next.branchTaken = true ∧ next.region = .silent := by
  cases h with
  | elseIf region => simp [Frame.elseIf, htaken]
  | otherwise => simp [Frame.otherwise, htaken]

theorem Frame.Alternative.settled {frame next : Frame} (h : frame.Alternative next) :
    next.Settled := by
  intro hregion
  cases h with
  | elseIf region =>
    unfold Frame.elseIf at hregion ⊢
    split
    · assumption
    · next hnot =>
      rw [if_neg hnot] at hregion
      rw [show region = .included from hregion]
      rfl
  | otherwise => rfl

namespace Conditional

variable {c : Conditional} {height : Nat} {frame : Frame}

/-- A row of directives inside a conditional changes its frame only by alternatives of its own, and
after a branch was taken these are silent. -/
theorem frameAt?_after {ds : List (Directive × Bool)} (hinside : c.Inside height ds)
    (hframe : c.frameAt? height = some frame) (hsettled : frame.Settled) :
    ∃ next, (c.after ds).frameAt? height = some next ∧ next.Settled ∧
      (alternatives height c ds = 0 → next = frame) ∧
      (frame.branchTaken = true → next.branchTaken = true ∧
        (alternatives height c ds ≠ 0 → next.region = .silent)) := by
  induction ds generalizing c frame with
  | nil => exact ⟨frame, hframe, hsettled, fun _ => rfl, fun h => ⟨h, fun h => absurd rfl h⟩⟩
  | cons d ds ih =>
    have hbefore : height < c.depth := hinside [] List.nil_prefix
    have hafter := hinside [d] (List.cons_prefix_cons.2 ⟨rfl, List.nil_prefix⟩)
    have hstep := @frameAt?_answer c d.1 d.2 height hbefore hafter
    rw [alternatives, after_cons]
    split at hstep
    · next hown =>
      obtain ⟨frame', middle, hframe', halternative, hmiddle⟩ := hstep
      obtain rfl : frame' = frame := Option.some.inj (hframe'.symm.trans hframe)
      obtain ⟨next, hnext, hsettled', hsame, htaken⟩ := ih hinside.tail hmiddle halternative.settled
      rw [if_pos hown]
      refine ⟨next, hnext, hsettled', fun h => by omega, fun h => ?_⟩
      obtain ⟨hmiddleTaken, hsilent⟩ := halternative.silent h
      obtain ⟨hnextTaken, hlater⟩ := htaken hmiddleTaken
      refine ⟨hnextTaken, fun _ => ?_⟩
      by_cases hnone : alternatives height (c.answer d.1 d.2).2 ds = 0
      · rw [hsame hnone, hsilent]
      · exact hlater hnone
    · next hother =>
      rw [if_neg hother, Nat.zero_add]
      exact ih hinside.tail (hstep.trans hframe) hsettled

/-! ## the outermost exclusion -/

/-- The conditional at a height is the outermost one that leaves its lines out, with this region. -/
structure ExcludedBy (c : Conditional) (height : Nat) (region : Region) : Prop where
  excluded : region.isIncluded = false
  here : (c.frameAt? height).map Frame.region = some region
  below : ∀ i < height, (c.frameAt? i).map Frame.region = some .included

theorem regionsOf_get (c : Conditional) (height : Nat) :
    (regionsOf c.stack)[height]? = (c.frameAt? height).map Frame.region := by
  unfold regionsOf frameAt?
  rw [← List.map_reverse, List.getElem?_map]

/-- The region under the stack is the one of the outermost exclusion. -/
theorem ExcludedBy.effective {region : Region} (h : c.ExcludedBy height region) :
    effective c.stack = region := by
  have hhere := h.here
  rw [← regionsOf_get] at hhere
  obtain ⟨hlt, hget⟩ := List.getElem?_eq_some_iff.1 hhere
  have hfind : outermostExclusion (regionsOf c.stack) = some region := by
    refine List.find?_eq_some_iff_getElem.2 ⟨by rw [h.excluded]; rfl, height, hlt, hget, ?_⟩
    intro i hi
    have hbelow := h.below i hi
    rw [← regionsOf_get] at hbelow
    obtain ⟨_, hincluded⟩ := List.getElem?_eq_some_iff.1 hbelow
    rw [hincluded]
    rfl
  rw [effective_eq, hfind, Option.getD_some]

/-- Without alternatives of its own an exclusion lasts as long as its conditional is open. -/
theorem ExcludedBy.after {region : Region} {ds : List (Directive × Bool)}
    (h : c.ExcludedBy height region) (hinside : c.Inside height ds)
    (hnone : alternatives height c ds = 0) : (c.after ds).ExcludedBy height region := by
  have hkept : ∀ i ≤ height, (c.after ds).frameAt? i = c.frameAt? i := by
    intro i hi
    clear h
    induction ds generalizing c with
    | nil => rfl
    | cons d ds ih =>
      have hbefore : height < c.depth := hinside [] List.nil_prefix
      have hafter := hinside [d] (List.cons_prefix_cons.2 ⟨rfl, List.nil_prefix⟩)
      rw [alternatives, Nat.add_eq_zero_iff] at hnone
      have hstep := @frameAt?_answer c d.1 d.2 i (Nat.lt_of_le_of_lt hi hbefore)
        (Nat.lt_of_le_of_lt hi hafter)
      have hother : ¬ (d.1.role = .alternates ∧ c.depth = i + 1) := by
        rintro ⟨hrole, hdepth⟩
        exact absurd hnone.1 (by rw [if_pos ⟨hrole, by omega⟩]; decide)
      rw [if_neg hother] at hstep
      rw [after_cons, ih hinside.tail hnone.2, hstep]
  refine ⟨h.excluded, ?_, ?_⟩
  · rw [hkept height (Nat.le_refl _)]
    exact h.here
  · intro i hi
    rw [hkept i (Nat.le_of_lt hi)]
    exact h.below i hi

/-- The verdict on an accepted directive is the region under the stack it leaves. -/
theorem region_of_answer {d : Directive} {isIncluded : Bool} {verdict : Verdict}
    (h : (c.answer d isIncluded).1 = .ok verdict) :
    verdict.region = Conditional.effective (c.answer d isIncluded).2.stack := by
  rcases answer_cases c d isIncluded with ⟨stack, -, hanswer⟩ | ⟨e, hanswer, -⟩
  · rw [hanswer] at h ⊢
    rw [← Except.ok.inj h]
  · rw [hanswer] at h
    cases h

/-- An opening directive that is accepted opens a conditional above all others. -/
theorem frameAt?_opening {d : Directive} {isIncluded : Bool} (h : d.role = .opens)
    (hopen : c.depth < (c.answer d isIncluded).2.depth) :
    ∃ region, (c.answer d isIncluded).2.frameAt? c.depth = some (Frame.opening region) := by
  rcases answer_cases c d isIncluded with ⟨stack, hmoves, hanswer⟩ | ⟨e, hanswer, -⟩
  · rw [hanswer]
    unfold frameAt? depth
    dsimp only
    generalize c.stack = old at hmoves ⊢
    cases hmoves with
    | opens region _ =>
      rw [List.reverse_cons, ← List.length_reverse, List.getElem?_concat_length]
      exact ⟨region, rfl⟩
    | alternates hrole _ => cases h.symm.trans hrole
    | closes hrole => cases h.symm.trans hrole
    | passes hrole => cases h.symm.trans hrole
  · rw [hanswer] at hopen
    exact absurd hopen (Nat.lt_irrefl _)

/-- At most one branch of a conditional is included. -/
theorem included_once {d : Directive} {isIncluded : Bool} (h : d.role = .opens)
    {front back : List (Directive × Bool)} {earlier later : Frame}
    (hinside : (c.answer d isIncluded).2.Inside c.depth (front ++ back))
    (hearlier : ((c.answer d isIncluded).2.after front).frameAt? c.depth = some earlier)
    (hlater : ((c.answer d isIncluded).2.after (front ++ back)).frameAt? c.depth = some later)
    (hincluded : earlier.region = .included) (hagain : later.region = .included) :
    alternatives c.depth ((c.answer d isIncluded).2.after front) back = 0 := by
  obtain ⟨region, hopening⟩ := frameAt?_opening h (hinside [] List.nil_prefix)
  obtain ⟨frame, hframe, hsettled, -⟩ :=
    frameAt?_after hinside.left hopening (Frame.settled_opening region)
  obtain rfl : frame = earlier := Option.some.inj (hframe.symm.trans hearlier)
  obtain ⟨next, hnext, -, -, htaken⟩ := frameAt?_after hinside.right hframe hsettled
  rw [← after_append] at hnext
  obtain rfl : next = later := Option.some.inj (hnext.symm.trans hlater)
  refine Decidable.byContradiction fun hsome => ?_
  rw [(htaken (hsettled hincluded)).2 hsome] at hagain
  cases hagain

end Conditional

/-- Open conditionals stay consistent under every row of directives.  The depth counts the accepted
opening directives without the accepted closing ones, and a refused directive changes nothing.  Of the
branches of one conditional at most one is included: if it is included at two times, then no alternative
of it lies between them.  The reported region is the one of the outermost exclusion, and as long as that
conditional is open, only an alternative of its own can change this. -/
theorem conditional_frames_consistent (c : Conditional) :
    (∀ ds, (c.after ds).depth + (c.accepted ds).countP (·.role = .closes) =
      c.depth + (c.accepted ds).countP (·.role = .opens)) ∧
    (∀ d isIncluded e, (c.answer d isIncluded).1 = .error e → (c.answer d isIncluded).2 = c) ∧
    (∀ d isIncluded, d.role = .opens → ∀ front back,
      (c.answer d isIncluded).2.Inside c.depth (front ++ back) → ∀ earlier later,
      ((c.answer d isIncluded).2.after front).frameAt? c.depth = some earlier →
      ((c.answer d isIncluded).2.after (front ++ back)).frameAt? c.depth = some later →
      earlier.region = .included → later.region = .included →
      Conditional.alternatives c.depth ((c.answer d isIncluded).2.after front) back = 0) ∧
    (∀ d isIncluded verdict, (c.answer d isIncluded).1 = .ok verdict → ∀ height region,
      (c.answer d isIncluded).2.ExcludedBy height region → verdict.region = region) ∧
    (∀ height region, c.ExcludedBy height region → ∀ ds d isIncluded,
      c.Inside height (ds ++ [(d, isIncluded)]) →
      Conditional.alternatives height c (ds ++ [(d, isIncluded)]) = 0 → ∀ verdict,
      ((c.after ds).answer d isIncluded).1 = .ok verdict → verdict.region = region) := by
  refine ⟨c.depth_after, ?_, ?_, ?_, ?_⟩
  · intro d isIncluded e herror
    rcases c.answer_cases d isIncluded with ⟨stack, -, hanswer⟩ | ⟨e', hanswer, -⟩
    · rw [hanswer] at herror
      cases herror
    · rw [hanswer]
  · intro d isIncluded hrole front back hinside earlier later hearlier hlater hincluded hagain
    exact Conditional.included_once hrole hinside hearlier hlater hincluded hagain
  · intro d isIncluded verdict hok height region hexcluded
    rw [Conditional.region_of_answer hok, hexcluded.effective]
  · intro height region hexcluded ds d isIncluded hinside hnone verdict hok
    have hafter := hexcluded.after hinside hnone
    rw [Conditional.after_append] at hafter
    rw [Conditional.region_of_answer hok]
    exact hafter.effective

/-- A chain with a second last branch and an alternative behind it, a closing directive too many, and a
conditional inside an excluded one. -/
theorem conditional_frames_consistent_sample :
    let hash : Token := ⟨.symbol, "#", Position.start, Position.start⟩
    let mark (name arguments : String) : Directive × Bool := (⟨hash, name, arguments⟩, true)
    let odd := [mark "if" "1", mark "else" "", mark "else" "", mark "elif" "1", mark "endif" "",
      mark "endif" ""]
    let opened := (Conditional.standard.answer (mark "if" "1").1 true).2
    let nested := [mark "if" "0", mark "endif" ""]
    let excluded := Conditional.standard.after [mark "if" "0"]
    ((Conditional.standard.accepted odd).countP (·.role = .opens) = 1 ∧
      (Conditional.standard.accepted odd).countP (·.role = .closes) = 1 ∧
      (Conditional.standard.after odd).depth = 0) ∧
    (∃ e, (Conditional.standard.answer (mark "endif" "").1 true).1 = .error e ∧
      (Conditional.standard.answer (mark "endif" "").1 true).2 = Conditional.standard) ∧
    (opened.Inside 0 nested ∧ (opened.frameAt? 0).map Frame.region = some .included ∧
      ((opened.after nested).frameAt? 0).map Frame.region = some .included ∧
      Conditional.alternatives 0 opened nested = 0) ∧
    (excluded.ExcludedBy 0 .silent ∧ excluded.Inside 0 [mark "if" "1", mark "else" ""] ∧
      ∃ verdict, ((excluded.after [mark "if" "1"]).answer (mark "else" "").1 true).1 = .ok verdict ∧
        verdict.region = .silent) := by
  intro hash mark odd opened nested excluded
  obtain ⟨hdepth, hrefused, honce, -, -⟩ := conditional_frames_consistent Conditional.standard
  obtain ⟨-, -, -, -, hlasting⟩ := conditional_frames_consistent excluded
  refine ⟨?_, ?_, ?_, ?_⟩
  · have hopens : (Conditional.standard.accepted odd).countP (·.role = .opens) = 1 := by decide +kernel
    have hcloses : (Conditional.standard.accepted odd).countP (·.role = .closes) = 1 := by
      decide +kernel
    have hcount := hdepth odd
    rw [hopens, hcloses] at hcount
    exact ⟨hopens, hcloses, Nat.succ.inj hcount⟩
  · have hanswer : (Conditional.standard.answer (mark "endif" "").1 true).1 =
        .error ⟨.invalidDirective "#endif without matching #if", Position.start⟩ := by decide +kernel
    exact ⟨_, hanswer, hrefused _ _ _ hanswer⟩
  · have hinside : opened.Inside 0 nested := by decide +kernel
    have hearlier : opened.frameAt? 0 = some ⟨.included, true, false⟩ := by decide +kernel
    have hlater : (opened.after nested).frameAt? 0 = some ⟨.included, true, false⟩ := by decide +kernel
    have hnone := honce (mark "if" "1").1 true rfl [] nested hinside _ _ hearlier hlater rfl rfl
    exact ⟨hinside, by rw [hearlier]; rfl, by rw [hlater]; rfl, hnone⟩
  · have hexcluded : excluded.ExcludedBy 0 .silent :=
      ⟨rfl, by decide +kernel, fun i hi => absurd hi (Nat.not_lt_zero i)⟩
    have hinside : excluded.Inside 0 [mark "if" "1", mark "else" ""] := by decide +kernel
    have hanswer : ((excluded.after [mark "if" "1"]).answer (mark "else" "").1 true).1 =
        .ok ⟨.silent, true⟩ := by decide +kernel
    exact ⟨hexcluded, hinside, _, hanswer,
      hlasting 0 .silent hexcluded [mark "if" "1"] _ true hinside (by decide +kernel) _ hanswer⟩

end HeaderLex
