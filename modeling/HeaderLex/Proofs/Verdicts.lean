import HeaderLex.Proofs.Condition
import HeaderLex.Proofs.Exclusion
import Mathlib.Data.List.Forall2

/-!
# Verdicts and truth

Well nested directives stand for chains of conditions, whose branches are active or not once the
symbols have values.  A silent verdict is right under all values.  An including verdict is, unless a
chain was hasty: it included an alternative after a condition that was not decided.

* `Chain`, `Move`               open conditionals, and what a directive does to them;
* `Frame.Follows`               what a frame knows of its chain, kept by every directive;
* `Chain.inactive`, `activated`, `refuted`   from the region of one chain to its truth;
* `verdict_sound_iff`           the verdict after any well nested row of directives.
-/

namespace HeaderLex

/-! ## chains of branches -/

/-- One open conditional: the conditions that were tested before the present branch, and its own one,
which a last branch lacks. -/
structure Chain where
  earlier : List Condition
  own : Option Condition

namespace Chain

def conditions (ch : Chain) : List Condition := ch.earlier ++ ch.own.toList

/-- The present branch is the one that is taken. -/
def Active (v : String → Bool) (ch : Chain) : Prop :=
  (∀ d ∈ ch.earlier, d.holds v = false) ∧ ∀ d ∈ ch.own, d.holds v = true

/-- The region that the verdicts on its conditions give the present branch. -/
def region (c : Conditional) (ch : Chain) : Region :=
  match ch.own with
  | some d => branchRegion (ch.earlier.map c.regionOf) (c.regionOf d)
  | none => lastRegion (ch.earlier.map c.regionOf)

/-- The present branch has a condition of its own, and one before it was not decided. -/
def Hasty (c : Conditional) (ch : Chain) : Prop :=
  ch.own ≠ none ∧ ∃ d ∈ ch.earlier, c.regionOf d = .scanned

end Chain

/-- What a directive does to the open conditionals. -/
inductive Move where
  | opens (d : Condition)
  | elseIf (d : Condition)
  | otherwise
  | close

/-- The open conditionals after a directive, innermost first; none if it does not fit. -/
def Move.step : Move → List Chain → Option (List Chain)
  | opens d, chains => some (⟨[], some d⟩ :: chains)
  | elseIf d, ⟨earlier, some own⟩ :: outer => some (⟨earlier ++ [own], some d⟩ :: outer)
  | otherwise, ⟨earlier, some own⟩ :: outer => some (⟨earlier ++ [own], none⟩ :: outer)
  | close, _ :: outer => some outer
  | _, _ => none

/-- The open conditionals after a row of directives; none if it is not well nested. -/
def nest (chains : List Chain) : List Move → Option (List Chain)
  | [] => some chains
  | m :: ms => (m.step chains).bind (nest · ms)

open Text (Blanks) in
/-- The move that a directive stands for. -/
inductive Directive.Reads (d : Directive) : Move → Prop
  | condition {e : Condition} : d.name = "if" → Spelled e d.arguments.toList → d.Reads (.opens e)
  | defined {name : String} {s t : List Char} : d.name = "ifdef" → IsName name → Blanks s → Blanks t →
      d.arguments.toList = s ++ (name.toList ++ t) → d.Reads (.opens (.defined name))
  | undefined {name : String} {s t : List Char} : d.name = "ifndef" → IsName name → Blanks s →
      Blanks t → d.arguments.toList = s ++ (name.toList ++ t) → d.Reads (.opens (.not (.defined name)))
  | elseIf {e : Condition} : d.name = "elif" → Spelled e d.arguments.toList → d.Reads (.elseIf e)
  | otherwise : d.name = "else" → d.Reads .otherwise
  | close : d.name = "endif" → d.Reads .close

/-! ## the region of a chain and its truth -/

namespace Chain

variable {c : Conditional} {v : String → Bool} {ch : Chain}

/-- No condition of the chain is misjudged. -/
def Judged (c : Conditional) (ch : Chain) : Prop := ∀ d ∈ ch.conditions, ¬ c.Misjudges d

theorem Judged.earlier (h : ch.Judged c) (hv : c.Fits v) {d : Condition} (hd : d ∈ ch.earlier) :
    (c.regionOf d).Agrees (d.holds v) :=
  hv.sound (h d (List.mem_append_left _ hd))

theorem Judged.own (h : ch.Judged c) (hv : c.Fits v) {d : Condition} (hd : ch.own = some d) :
    (c.regionOf d).Agrees (d.holds v) :=
  hv.sound (h d (List.mem_append_right _ (by rw [hd]; exact List.mem_singleton.2 rfl)))

/-- A branch after one that is included for sure is not active. -/
theorem inactive_behind (hv : c.Fits v) (hj : ch.Judged c)
    (hin : .included ∈ ch.earlier.map c.regionOf) : ¬ ch.Active v := by
  intro hactive
  obtain ⟨d, hd, hregion⟩ := List.mem_map.1 hin
  have htrue := hj.earlier hv hd
  rw [hregion] at htrue
  have hfalse := hactive.1 d hd
  rw [show d.holds v = true from htrue] at hfalse
  cases hfalse

theorem inactive (hv : c.Fits v) (hj : ch.Judged c) (h : ch.region c = .silent) : ¬ ch.Active v := by
  by_cases hin : .included ∈ ch.earlier.map c.regionOf
  · exact inactive_behind hv hj hin
  · intro hactive
    unfold region at h
    cases hown : ch.own with
    | some d =>
      rw [hown] at h
      have hd : c.regionOf d = .silent := (if_neg hin).symm.trans h
      have hfalse := hj.own hv hown
      rw [hd] at hfalse
      have htrue := hactive.2 d hown
      rw [show d.holds v = false from hfalse] at htrue
      cases htrue
    | none =>
      rw [hown] at h
      have hlast : (if .scanned ∈ ch.earlier.map c.regionOf then Region.scanned else .included) = .silent :=
        (if_neg hin).symm.trans h
      split at hlast <;> cases hlast

theorem activated (hv : c.Fits v) (hj : ch.Judged c) (h : ch.region c = .included)
    (hpatient : ¬ ch.Hasty c) : ch.Active v := by
  have hin : .included ∉ ch.earlier.map c.regionOf := by
    intro hin
    unfold region branchRegion lastRegion at h
    split at h <;>
    · rw [if_pos hin] at h
      cases h
  have hscan : ∀ d ∈ ch.earlier, c.regionOf d ≠ .scanned := by
    intro d hd hscan
    cases hown : ch.own with
    | some e => exact hpatient ⟨by rw [hown]; exact Option.some_ne_none e, d, hd, hscan⟩
    | none =>
      unfold region at h
      rw [hown] at h
      have hlast : lastRegion (ch.earlier.map c.regionOf) = .included := h
      unfold lastRegion at hlast
      rw [if_neg hin, if_pos (List.mem_map.2 ⟨d, hd, hscan⟩)] at hlast
      cases hlast
  constructor
  · intro d hd
    have hagrees := hj.earlier hv hd
    cases hr : c.regionOf d with
    | included => exact absurd (List.mem_map.2 ⟨d, hd, hr⟩) hin
    | scanned => exact absurd hr (hscan d hd)
    | silent =>
      rw [hr] at hagrees
      exact hagrees
  · intro d hown
    have hagrees := hj.own hv hown
    have hd : c.regionOf d = .included := by
      unfold region at h
      rw [hown] at h
      exact (if_neg hin).symm.trans h
    rw [hd] at hagrees
    exact hagrees

/-- What a hasty chain includes is left out under some assignment. -/
theorem refuted (hc : c.Coherent) (hown : ∀ d ∈ ch.conditions, d.asked = d.meant)
    (hhasty : ch.Hasty c) : ∃ v, c.Fits v ∧ ¬ ch.Active v := by
  obtain ⟨-, d, hd, hscan⟩ := hhasty
  obtain ⟨v, hv, htrue⟩ := hc.either hscan (hown d (List.mem_append_left _ hd)) true
  refine ⟨v, hv, ?_⟩
  intro hactive
  have hfalse := hactive.1 d hd
  rw [htrue] at hfalse
  cases hfalse

end Chain

/-! ## frames follow chains -/

/-- The frame has the region of the chain, and its flags know the conditions so far. -/
structure Frame.Follows (c : Conditional) (frame : Frame) (ch : Chain) : Prop where
  region : frame.region = ch.region c
  tracks : ch.own ≠ none → frame.Tracks (ch.conditions.map c.regionOf)

namespace Frame

variable {c : Conditional} {frame : Frame} {earlier : List Condition} {own : Condition}

theorem follows_opening (d : Condition) : (opening (c.regionOf d)).Follows c ⟨[], some d⟩ :=
  ⟨rfl, fun _ => opening_tracks (c.regionOf d)⟩

theorem Follows.known (h : frame.Follows c ⟨earlier, some own⟩) :
    frame.Tracks ((earlier ++ [own]).map c.regionOf) :=
  h.tracks (Option.some_ne_none own)

theorem Follows.elseIf (h : frame.Follows c ⟨earlier, some own⟩) (d : Condition) :
    (frame.elseIf (c.regionOf d)).Follows c ⟨earlier ++ [own], some d⟩ := by
  obtain ⟨htracks, hregion⟩ := h.known.elseIf (c.regionOf d)
  refine ⟨hregion, fun _ => ?_⟩
  show (frame.elseIf (c.regionOf d)).Tracks ((earlier ++ [own] ++ [d]).map c.regionOf)
  rw [List.map_append]
  exact htracks

theorem Follows.otherwise (h : frame.Follows c ⟨earlier, some own⟩) :
    frame.otherwise.Follows c ⟨earlier ++ [own], none⟩ :=
  ⟨h.known.otherwise, fun hne => absurd rfl hne⟩

end Frame

namespace Conditional

variable {c : Conditional} {stack : List Frame} {chains chains' : List Chain}

/-- A directive that fits is accepted, and the frames follow it. -/
theorem step_follows (h : List.Forall₂ (Frame.Follows c) stack chains) {d : Directive} {m : Move}
    (hreads : d.Reads m) (hstep : m.step chains = some chains') (isIncluded : Bool) :
    ∃ stack', { c with stack }.step d isIncluded = .ok stack' ∧
      List.Forall₂ (Frame.Follows c) stack' chains' := by
  -- an opening pushes a frame and a chain; the others change the innermost ones together
  cases hreads with
  | @condition e hn hspelled =>
    obtain rfl := Option.some.inj hstep
    refine ⟨Frame.opening (c.regionOf e) :: stack, ?_, .cons (Frame.follows_opening e) h⟩
    simp only [Conditional.step, hn, classify_stack, classify_spelled c hspelled]
  | @defined name s t hn hname hs ht harguments =>
    obtain rfl := Option.some.inj hstep
    refine ⟨Frame.opening (c.regionOf (.defined name)) :: stack, ?_, .cons (Frame.follows_opening _) h⟩
    simp only [Conditional.step, hn, harguments, Text.trim_spaced hs ht, trim_chars hname.chars]
    rfl
  | @undefined name s t hn hname hs ht harguments =>
    obtain rfl := Option.some.inj hstep
    refine ⟨Frame.opening (c.regionOf (.not (.defined name))) :: stack, ?_,
      .cons (Frame.follows_opening _) h⟩
    simp only [Conditional.step, hn, harguments, Text.trim_spaced hs ht, trim_chars hname.chars]
    rfl
  | @elseIf e hn hspelled =>
    cases h with
    | nil => cases hstep
    | @cons frame ch outer chains hframe houter =>
      obtain ⟨earlier, _ | own⟩ := ch
      · cases hstep
      · obtain rfl := Option.some.inj hstep
        refine ⟨frame.elseIf (c.regionOf e) :: outer, ?_, .cons (hframe.elseIf e) houter⟩
        simp only [Conditional.step, hn, classify_stack, classify_spelled c hspelled]
  | otherwise hn =>
    cases h with
    | nil => cases hstep
    | @cons frame ch outer chains hframe houter =>
      obtain ⟨earlier, _ | own⟩ := ch
      · cases hstep
      · obtain rfl := Option.some.inj hstep
        refine ⟨frame.otherwise :: outer, ?_, .cons hframe.otherwise houter⟩
        simp only [Conditional.step, hn]
  | close hn =>
    cases h with
    | nil => cases hstep
    | @cons frame ch outer chains hframe houter =>
      obtain rfl := Option.some.inj hstep
      refine ⟨outer, ?_, houter⟩
      simp only [Conditional.step, hn]

/-- The preprocessor after a row of directives, each with the flag it is handed over with; none if one
of them is refused. -/
def follow (c : Conditional) : List (Directive × Bool) → Option Conditional
  | [] => some c
  | (d, isIncluded) :: ds =>
    match c.answer d isIncluded with
    | (.ok _, c) => c.follow ds
    | (.error _, _) => none

theorem answer_of_step {d : Directive} {isIncluded : Bool} {stack' : List Frame}
    (h : { c with stack }.step d isIncluded = .ok stack') :
    { c with stack }.answer d isIncluded
      = (.ok ⟨effective stack', !passive.contains d.name⟩, { c with stack := stack' }) := by
  unfold answer
  rw [h]

/-- So is a row of directives that is well nested. -/
theorem follow_follows (h : List.Forall₂ (Frame.Follows c) stack chains)
    {ds : List (Directive × Bool)} {moves : List Move}
    (hreads : List.Forall₂ (fun d m => d.1.Reads m) ds moves) (hnest : nest chains moves = some chains') :
    ∃ stack', { c with stack }.follow ds = some { c with stack := stack' } ∧
      List.Forall₂ (Frame.Follows c) stack' chains' := by
  induction hreads generalizing stack chains with
  | nil =>
    obtain rfl := Option.some.inj hnest
    exact ⟨stack, rfl, h⟩
  | @cons d m ds moves hread _ ih =>
    obtain ⟨chains₁, hstep, hrest⟩ := Option.bind_eq_some_iff.1 hnest
    obtain ⟨stack₁, hok, hfollows⟩ := step_follows h hread hstep d.2
    obtain ⟨stack', hstack', hfollows'⟩ := ih hfollows hrest
    refine ⟨stack', ?_, hfollows'⟩
    show (match { c with stack }.answer d.1 d.2 with
      | (.ok _, c) => c.follow ds
      | (.error _, _) => none) = _
    rw [answer_of_step hok]
    exact hstack'

/-- A silent region has a silent frame around it. -/
theorem effective_silent (h : effective stack = .silent) : ∃ frame ∈ stack, frame.region = .silent := by
  induction stack with
  | nil => cases h
  | cons frame outer ih =>
    unfold effective at h
    split at h
    · exact ⟨frame, List.mem_cons_self, h⟩
    · obtain ⟨frame', hmem, hsilent⟩ := ih h
      exact ⟨frame', List.mem_cons_of_mem _ hmem, hsilent⟩

end Conditional

theorem Frame.regions_follow {c : Conditional} {stack : List Frame} {chains : List Chain}
    (h : List.Forall₂ (Frame.Follows c) stack chains) :
    stack.map Frame.region = chains.map (Chain.region c) := by
  induction h with
  | nil => rfl
  | cons hframe _ ih => rw [List.map_cons, List.map_cons, ih, hframe.region]

/-! ## verdicts -/

def Live (v : String → Bool) (chains : List Chain) : Prop := ∀ ch ∈ chains, ch.Active v

namespace Conditional

variable {c : Conditional} {stack : List Frame} {chains : List Chain} {v : String → Bool}

theorem region_of_included (h : List.Forall₂ (Frame.Follows c) stack chains)
    (hregion : effective stack = .included) : ∀ ch ∈ chains, ch.region c = .included := by
  intro ch hch
  have hmem := List.mem_map_of_mem (f := Chain.region c) hch
  rw [← Frame.regions_follow h] at hmem
  obtain ⟨frame, hframe, hsame⟩ := List.mem_map.1 hmem
  rw [← hsame]
  exact (effective_eq_included stack).1 hregion frame hframe

theorem not_live_of_silent (h : List.Forall₂ (Frame.Follows c) stack chains) (hv : c.Fits v)
    (hjudged : ∀ ch ∈ chains, ch.Judged c) (hregion : effective stack = .silent) : ¬ Live v chains := by
  obtain ⟨frame, hframe, hsilent⟩ := effective_silent hregion
  have hmem := List.mem_map_of_mem (f := Frame.region) hframe
  rw [Frame.regions_follow h, hsilent] at hmem
  obtain ⟨ch, hch, hsame⟩ := List.mem_map.1 hmem
  intro hlive
  exact Chain.inactive hv (hjudged ch hch) hsame (hlive ch hch)

theorem live_of_included (h : List.Forall₂ (Frame.Follows c) stack chains) (hv : c.Fits v)
    (hjudged : ∀ ch ∈ chains, ch.Judged c) (hregion : effective stack = .included)
    (hpatient : ∀ ch ∈ chains, ¬ ch.Hasty c) : Live v chains := fun ch hch =>
  Chain.activated hv (hjudged ch hch) (region_of_included h hregion ch hch) (hpatient ch hch)

end Conditional

/-- A condition that is asked for its own symbol is not misjudged. -/
theorem Chain.judged_of_own {c : Conditional} {ch : Chain}
    (h : ∀ e ∈ ch.conditions, e.asked = e.meant) : ch.Judged c := by
  rintro e he ⟨-, hdiffers⟩
  exact hdiffers (congrArg c.classifySymbol (h e he))

/-- After every well nested row of directives a verdict is given, and it is about the branches that are
open then.  A silent region is never active, and an included one always is: the first unless a
condition is misjudged, the second unless, besides, a chain is hasty.  Under a hasty chain an included
region is left out by some assignment, as long as every condition is asked for its own symbol; and a
misjudged condition is decided wrongly for some assignment. -/
theorem verdict_sound_iff {c : Conditional} (hempty : c.stack = []) {ds : List (Directive × Bool)}
    {d : Directive} {moves : List Move} {move : Move} {outer chains : List Chain}
    (hreads : List.Forall₂ (fun d m => d.1.Reads m) ds moves) (hnest : nest [] moves = some outer)
    (hread : d.Reads move) (hstep : move.step outer = some chains) (isIncluded : Bool) :
    ∃ c' verdict, c.follow ds = some c' ∧ (c'.answer d isIncluded).1 = .ok verdict ∧
      ((∀ ch ∈ chains, ch.Judged c) → ∀ v, c.Fits v →
        (verdict.region = .silent → ¬ Live v chains) ∧
        (verdict.region = .included → (∀ ch ∈ chains, ¬ ch.Hasty c) → Live v chains)) ∧
      (c.Coherent → (∀ ch ∈ chains, ∀ e ∈ ch.conditions, e.asked = e.meant) →
        verdict.region = .included →
        ((∀ v, c.Fits v → Live v chains) ↔ ∀ ch ∈ chains, ¬ ch.Hasty c)) ∧
      (c.Coherent → ∀ e text, Spelled e text →
        ((∀ v, c.Fits v → (c.classify text).Agrees (e.holds v)) ↔ ¬ c.Misjudges e)) := by
  have hfresh : c = { c with stack := [] } := by
    rw [← hempty]
  obtain ⟨stack, hfollow, hfollows⟩ := Conditional.follow_follows (c := c) .nil hreads hnest
  obtain ⟨stack', hok, hfollows'⟩ := Conditional.step_follows hfollows hread hstep isIncluded
  rw [← hfresh] at hfollow
  refine ⟨_, _, hfollow, congrArg Prod.fst (Conditional.answer_of_step hok), ?_, ?_, ?_⟩
  · intro hjudged v hv
    exact ⟨Conditional.not_live_of_silent hfollows' hv hjudged,
      Conditional.live_of_included hfollows' hv hjudged⟩
  · intro hc hown hregion
    constructor
    · intro hlive ch hch hhasty
      obtain ⟨v, hv, hnot⟩ := Chain.refuted hc (hown ch hch) hhasty
      exact hnot (hlive v hv ch hch)
    · intro hpatient v hv
      have hjudged : ∀ ch ∈ chains, ch.Judged c := fun ch hch => Chain.judged_of_own (hown ch hch)
      exact Conditional.live_of_included hfollows' hv hjudged hregion hpatient
  · exact fun hc e text hspelled => Conditional.agrees_iff hc hspelled

/-- An alternative after an undecided condition is included, although the first branch may be taken; and
`defined1` is taken for true, although it is an unknown symbol. -/
theorem verdict_sound_sample :
    let hash : Token := ⟨.symbol, "#", Position.start, Position.start⟩
    let first : Directive := ⟨hash, "if", "FOO"⟩
    let second : Directive := ⟨hash, "elif", "1"⟩
    let chain : Chain := ⟨[.symbol "FOO"], some (.literal true)⟩
    (∃ c' verdict, Conditional.standard.follow [(first, true)] = some c' ∧
      (c'.answer second false).1 = .ok verdict ∧ verdict.region = .included) ∧
    (¬ ∀ v, Conditional.standard.Fits v → Live v [chain]) ∧
    Conditional.standard.classify "defined1".toList = .included ∧
    ¬ ∀ v, Conditional.standard.Fits v → (Condition.symbol "defined1").holds v = true := by
  intro hash first second chain
  have hfoo : Spelled (.symbol "FOO") "FOO".toList :=
    .symbol ⟨by decide, List.all_eq_true.1 (by decide)⟩
  have hone : Spelled (.literal true) "1".toList := .literal true
  have hbare : Spelled (.symbol "defined1") "defined1".toList :=
    .symbol ⟨by decide, List.all_eq_true.1 (by decide)⟩
  obtain ⟨c', verdict, hfollow, hanswer, -, hexact, hjudge⟩ :=
    @verdict_sound_iff Conditional.standard rfl [(first, true)] second [.opens (.symbol "FOO")]
      (.elseIf (.literal true)) _ [chain] (.cons (.condition rfl hfoo) .nil) rfl (.elseIf rfl hone) rfl
      false
  have hregion : verdict.region = .included := by
    have hcomputed : (Conditional.standard.follow [(first, true)]).bind
        (fun c' => (c'.answer second false).1.toOption.map Verdict.region) = some .included := by
      decide +kernel
    rw [hfollow, Option.bind_some, hanswer] at hcomputed
    exact Option.some.inj hcomputed
  have hcoherent := Conditional.standard_coherent
  have hclassify : Conditional.standard.classify "defined1".toList = .included := by decide +kernel
  refine ⟨⟨c', verdict, hfollow, hanswer, hregion⟩, ?_, hclassify, ?_⟩
  · intro hall
    refine (hexact hcoherent (by decide) hregion).1 hall chain List.mem_cons_self ⟨by decide, ?_⟩
    exact ⟨.symbol "FOO", List.mem_cons_self, by decide⟩
  · intro hall
    refine (hjudge hcoherent _ _ hbare).1 ?_ ⟨by decide, by decide⟩
    rw [hclassify]
    exact hall

end HeaderLex
