import HeaderLex.Proofs.Acceptance
import HeaderLex.Proofs.Extent
import HeaderLex.Proofs.ListForms

/-!
# Balanced groups

A group in brackets is read exactly when the tokens are one: an opening mark, balanced tokens, and
the mark that closes the first one.  Balanced tokens have as many closing marks as opening ones, and
no more of them at any place.

* `Balanced`          the specification, by counts;
* `depthOf_eq_some_iff`   the same by the depth that is counted up and down;
* `IsGroup`           tokens that begin with a group;
* `accepts_skipBalanced`   a group is read, whatever stands behind it;
* `group_or_refused`  a replay begins with a group, or its end mark is refused;
* `skipBalanced_iff`  both together.
-/

namespace HeaderLex

open HeaderLex.Operation HeaderLex.Parser HeaderLex.Grammar

/-! ## balanced tokens -/

/-- How often a mark stands among the tokens. -/
def markCount (c : Char) (ts : List Token) : Nat := ts.countP (·.isMark c)

/-- As many brackets are closed as are opened, and nowhere more of them. -/
structure Balanced (brackets : Char × Char) (ts : List Token) : Prop where
  closed : markCount brackets.2 ts = markCount brackets.1 ts
  opened : ∀ before, before <+: ts → markCount brackets.2 before ≤ markCount brackets.1 before

section

variable {brackets : Char × Char} {ts : List Token} {t : Token} {depth d : Nat}

theorem markCount_snoc (c : Char) (ts : List Token) (t : Token) :
    markCount c (ts ++ [t]) = markCount c ts + if t.isMark c then 1 else 0 := by
  rw [markCount, List.countP_append, List.countP_singleton]
  rfl

theorem depthStep_eq_some_iff (hpair : brackets.1 ≠ brackets.2) :
    depthStep brackets depth t = some d ↔
      depth + (if t.isMark brackets.1 then 1 else 0) = d + if t.isMark brackets.2 then 1 else 0 := by
  unfold depthStep
  by_cases hopen : t.isMark brackets.1 = true
  · have hclose : ¬ t.isMark brackets.2 = true := fun hclose => hpair (Token.eq_of_isMark hopen hclose)
    simp [hopen, hclose]
  · by_cases hclose : t.isMark brackets.2 = true
    · simp only [hopen, hclose, if_true, Bool.false_eq_true, if_false]
      split <;> simp <;> omega
    · simp [hopen, hclose]

/-- The depth is the number of brackets that are opened and not closed, as long as no bracket is
closed that was not opened. -/
theorem depthOf_eq_some_iff (hpair : brackets.1 ≠ brackets.2) :
    depthOf brackets ts = some d ↔ markCount brackets.1 ts = markCount brackets.2 ts + d ∧
      ∀ before, before <+: ts → markCount brackets.2 before ≤ markCount brackets.1 before := by
  induction ts using List.reverseRecOn generalizing d with
  | nil =>
    have hnil : ∀ c, markCount c [] = 0 := fun _ => rfl
    simp only [List.prefix_nil, forall_eq, hnil]
    show some 0 = some d ↔ _
    simp only [Option.some.injEq]
    omega
  | append_singleton ts t ih =>
    simp only [depthOf_snoc, Option.bind_eq_some_iff, depthStep_eq_some_iff hpair, ih, markCount_snoc,
      List.prefix_concat_iff, forall_eq_or_imp]
    constructor
    · rintro ⟨depth, ⟨hcount, hbefore⟩, hstep⟩
      exact ⟨by omega, by omega, hbefore⟩
    · rintro ⟨hcount, hlast, hbefore⟩
      have hfirst := hbefore ts (List.prefix_refl ts)
      exact ⟨markCount brackets.1 ts - markCount brackets.2 ts, ⟨by omega, hbefore⟩, by omega⟩

theorem balanced_iff_depthOf (hpair : brackets.1 ≠ brackets.2) :
    Balanced brackets ts ↔ depthOf brackets ts = some 0 := by
  rw [depthOf_eq_some_iff hpair]
  exact ⟨fun ⟨hclosed, hopened⟩ => ⟨hclosed.symm, hopened⟩,
    fun ⟨hclosed, hopened⟩ => ⟨hclosed.symm, hopened⟩⟩

/-- A bracket is closed that was not opened. -/
theorem depthStep_of_closing (hpair : brackets.1 ≠ brackets.2) (ht : t.isMark brackets.2 = true) :
    depthStep brackets 0 t = none := by
  have hopen : ¬ t.isMark brackets.1 = true := fun hopen => hpair (Token.eq_of_isMark hopen ht)
  rw [depthStep, if_neg hopen, if_pos ht, if_pos rfl]

theorem depthStep_eq_none (h : depthStep brackets depth t = none) :
    depth = 0 ∧ t.isMark brackets.2 = true := by
  unfold depthStep at h
  split at h
  · cases h
  · split at h
    · next hclose =>
      split at h
      · next hzero => exact ⟨hzero, hclose⟩
      · cases h
    · cases h

end

/-- The tokens begin with a group: marks around balanced tokens, with no end mark among them. -/
structure IsGroup (brackets : Char × Char) (ts inner after : List Token) : Prop where
  marks : ∃ o c, ts = o :: (inner ++ c :: after) ∧ o.isMark brackets.1 = true ∧
    c.isMark brackets.2 = true
  content : ∀ t ∈ inner, t.isEnd = false
  balanced : Balanced brackets inner

namespace Grammar

/-! ## one token of a group -/

section

variable {υ : Type} {brackets : Char × Char} {e : SourceError} {acc inner : List Token} {t c : Token}
  {depth d : Nat}

/-- What the reader of a group does at a token; it has `e` for an end mark. -/
def groupStep (brackets : Char × Char) (e : SourceError) (x : List Token × Nat) (t : Token) :
    Parser υ ((List Token × Nat) ⊕ List Token) :=
  if t.isEnd then refuse e
  else if t.isMark brackets.1 then return .inl (x.1 ++ [t], x.2 + 1)
  else if t.isMark brackets.2 then
    if x.2 = 0 then return .inr x.1 else return .inl (x.1 ++ [t], x.2 - 1)
  else return .inl (x.1 ++ [t], x.2)

def groupTurn (brackets : Char × Char) (e : SourceError) (x : List Token × Nat) :
    Parser υ ((List Token × Nat) ⊕ List Token) := next >>= groupStep brackets e x

theorem skipBalanced_eq (opening closing : Char) (context : String) :
    (skipBalanced opening closing context : Parser υ (List Token)) =
      requireMark opening (some context) >>= fun start =>
        loop (groupTurn (opening, closing)
          ⟨.mismatchedDelimiters opening.toString closing.toString (some context), start.start⟩)
          ([], 0) := rfl

/-- The reader of a group keeps the depth, and ends where a bracket is closed that was not opened
inside. -/
theorem groupStep_content (h : t.isEnd = false) :
    (groupStep brackets e (acc, depth) t : Parser υ _) =
      match depthStep brackets depth t with
      | some d => pure (.inl (acc ++ [t], d))
      | none => pure (.inr acc) := by
  unfold groupStep depthStep
  rw [if_neg (by rw [h]; decide)]
  split
  · rfl
  · split
    · split <;> rfl
    · rfl

theorem groupStep_end (h : t.isEnd = true) :
    (groupStep brackets e (acc, depth) t : Parser υ _) = refuse e := if_pos h

theorem accepts_groupTurn {r : (List Token × Nat) ⊕ List Token}
    (h : (groupStep brackets e (acc, depth) t : Parser υ _) = pure r) :
    Accepts (groupTurn brackets e (acc, depth) : Parser υ _) [t] r id fun _ => True :=
  (Accepts.next t).andPure (by rw [h]; exact .pure r)

/-! ## reading a group -/

/-- The turns over the rest of a group, at some depth in it. -/
theorem rounds_group (e : SourceError) (acc : List Token) (hcontent : ∀ t ∈ inner, t.isEnd = false)
    (hc : c.isEnd = false) (hinner : inner.foldlM (depthStep brackets) depth = some d)
    (hclose : depthStep brackets d c = none) :
    Rounds (groupTurn brackets e : _ → Parser υ _) (fun _ => True) (acc, depth) (inner ++ [c])
      (acc ++ inner) id := by
  induction inner generalizing acc depth with
  | nil =>
    obtain rfl : depth = d := Option.some.inj hinner
    rw [List.append_nil]
    exact .last (accepts_groupTurn (by rw [groupStep_content hc, hclose]))
  | cons t inner ih =>
    obtain ⟨ht, hcontent⟩ := List.forall_mem_cons.mp hcontent
    obtain ⟨depth', hstep, hinner⟩ := Option.bind_eq_some_iff.mp hinner
    have hturn : Accepts (groupTurn brackets e (acc, depth) : Parser υ _) [t]
        (.inl (acc ++ [t], depth')) id fun _ => True :=
      accepts_groupTurn (by rw [groupStep_content ht, hstep])
    have hrest := ih (acc ++ [t]) hcontent hinner
    rw [List.append_assoc] at hrest
    exact .more (by simp) hturn hrest fun _ _ => trivial

/-- A group is read, and the tokens in it are given, whatever stands behind it. -/
theorem accepts_skipBalanced (hpair : brackets.1 ≠ brackets.2) {o : Token}
    (ho : o.isMark brackets.1 = true) (hcontent : ∀ t ∈ inner, t.isEnd = false)
    (hinner : Balanced brackets inner) (hc : c.isMark brackets.2 = true) (context : String) :
    Accepts (skipBalanced brackets.1 brackets.2 context : Parser υ _) (o :: (inner ++ [c])) inner id
      fun _ => True := by
  rw [skipBalanced_eq]
  have hend := Token.isEnd_of_isMark hc
  have hall : ∀ t ∈ inner ++ [c], t.isEnd = false := by
    simpa [or_imp, forall_and, hend] using hcontent
  have hloop : ∀ e, Accepts (loop (groupTurn brackets e) ([], 0) : Parser υ _) (inner ++ [c]) inner id
      fun _ => True := fun e =>
    (rounds_group e [] hcontent hend ((balanced_iff_depthOf hpair).mp hinner)
      (depthStep_of_closing hpair hc)).loop hall
  refine (accepts_requireMark ho (some context)).andThen ?_
  exact hloop _

end

/-! ## reading a replay -/

section

variable {υ : Type} {brackets : Char × Char} {context : String} {rest inner after : List Token}
  {saved : List (List Token)} {mark : Token} {arena : Arena} {user : υ}

theorem skipBalanced_unopened {opening closing : Char} (r : Replay)
    (ho : r.peek.isMark opening = false) :
    skipBalanced opening closing context (⟨.replay r, arena, user⟩ : Session υ) = .refuse
      ⟨.unexpectedToken opening.toString r.peek.render (some context), r.peek.start⟩
      ⟨.replay r, arena, user⟩ := by
  have hrequire := requireMark_replay_of_not_mark r arena user (ne_true_of_eq_false ho) (some context)
  rw [skipBalanced_eq, bind_apply, hrequire]
  rfl

/-- A group at the beginning of a replay is taken off it, and the rest is left. -/
theorem skipBalanced_group (hpair : brackets.1 ≠ brackets.2) (hmark : mark.isEnd = true)
    (h : IsGroup brackets rest inner after) :
    (skipBalanced brackets.1 brackets.2 context).Ends
      (⟨.replay ⟨rest, saved, mark⟩, arena, user⟩ : Session υ) inner
      ⟨.replay ⟨after, saved, mark⟩, arena, user⟩ := by
  obtain ⟨⟨o, c, rfl, ho, hc⟩, hcontent, hinner⟩ := h
  have htakes := Stream.takes_replay (o :: (inner ++ [c])) after saved mark
  rw [List.cons_append, List.append_assoc] at htakes
  obtain ⟨z, hends, hz⟩ := accepts_skipBalanced (υ := υ) hpair ho hcontent hinner hc context
    ⟨.replay ⟨_, saved, mark⟩, arena, user⟩ _ _ _ (.refl _) hmark htakes rfl trivial
  obtain rfl := Stream.standsAt_replay.mp hz
  exact hends

/-- The rest of a group stands before a replay, at some depth in it, or its end mark is refused. -/
theorem closed_or_refused (hmark : mark.isEnd = true) (e : SourceError) (rest acc : List Token)
    (depth : Nat) {turns : Nat} (hturns : rest.length < turns) :
    (∃ inner c after, rest = inner ++ c :: after ∧ (∀ t ∈ inner, t.isEnd = false) ∧
      inner.foldlM (depthStep brackets) depth = some 0 ∧ c.isMark brackets.2 = true) ∨
    (repeatFor (groupTurn brackets e) turns (acc, depth)
      (⟨.replay ⟨rest, saved, mark⟩, arena, user⟩ : Session υ)).result = .error (.source e) := by
  induction rest generalizing acc depth turns with
  | nil =>
    obtain ⟨turns, rfl⟩ := Nat.exists_eq_add_one_of_ne_zero (Nat.ne_of_gt hturns)
    right
    apply bind_error
    show (groupStep brackets e (acc, depth) mark _).result = _
    rw [groupStep_end hmark]
    rfl
  | cons t ts ih =>
    obtain ⟨turns, rfl⟩ := Nat.exists_eq_add_one_of_ne_zero (Nat.ne_of_gt (Nat.zero_lt_of_lt hturns))
    cases hend : t.isEnd with
    | true =>
      right
      apply bind_error
      show (groupStep brackets e (acc, depth) t _).result = _
      rw [groupStep_end hend]
      rfl
    | false =>
      cases hstep : depthStep brackets depth t with
      | none =>
        obtain ⟨rfl, hclose⟩ := depthStep_eq_none hstep
        exact .inl ⟨[], t, ts, rfl, by simp, rfl, hclose⟩
      | some depth' =>
        have hturn : groupTurn brackets e (acc, depth)
            (⟨.replay ⟨t :: ts, saved, mark⟩, arena, user⟩ : Session υ)
              = .ok (.inl (acc ++ [t], depth')) ⟨.replay ⟨ts, saved, mark⟩, arena, user⟩ := by
          show groupStep brackets e (acc, depth) t _ = _
          rw [groupStep_content hend, hstep]
          rfl
        rw [repeatFor_more hturn]
        rcases ih (acc ++ [t]) depth' (Nat.lt_of_succ_lt_succ hturns) with
          ⟨inner, c, after, rfl, hcontent, hinner, hc⟩ | hrefused
        · refine .inl ⟨t :: inner, c, after, rfl, List.forall_mem_cons.mpr ⟨hend, hcontent⟩, ?_, hc⟩
          exact Option.bind_eq_some_iff.mpr ⟨depth', hstep, hinner⟩
        · exact .inr hrefused

/-- A replay that begins with an opening mark begins with a group, or its end mark is refused. -/
theorem group_or_refused (hpair : brackets.1 ≠ brackets.2) (r : Replay) (hmark : r.endMark.isEnd = true)
    (ho : r.peek.isMark brackets.1 = true) :
    (∃ inner after, IsGroup brackets r.rest inner after) ∨
      (skipBalanced brackets.1 brackets.2 context (⟨.replay r, arena, user⟩ : Session υ)).result =
        .error (.source ⟨.mismatchedDelimiters brackets.1.toString brackets.2.toString (some context),
          r.peek.start⟩) := by
  obtain ⟨rest, saved, mark⟩ := r
  obtain ⟨o, rest, rfl, ho'⟩ := ListForm.head_of_isMark hmark ho
  rw [skipBalanced_eq, bind_ok (requireMark_replay_of_mark _ arena user ho _)]
  rcases closed_or_refused (υ := υ) hmark _ rest [] 0 (budget_replay ⟨rest, saved, mark⟩) with
    ⟨inner, c, after, rfl, hcontent, hinner, hc⟩ | hrefused
  · exact .inl ⟨inner, after, ⟨o, c, rfl, ho', hc⟩, hcontent, (balanced_iff_depthOf hpair).mpr hinner⟩
  · exact .inr hrefused

/-- What a replay begins with as a group is settled by what its reader does. -/
theorem isGroup_unique (hpair : brackets.1 ≠ brackets.2) {inner' after' : List Token}
    (h : IsGroup brackets rest inner after) (h' : IsGroup brackets rest inner' after') :
    inner = inner' ∧ after = after' := by
  have hmark : Token.isEnd ⟨.endOfFile, "", ⟨0, 1⟩, ⟨0, 1⟩⟩ = true := rfl
  have hends := @skipBalanced_group Unit brackets "" rest inner after [] _ .empty () hpair hmark h
  have hends' := @skipBalanced_group Unit brackets "" rest inner' after' [] _ .empty () hpair hmark h'
  refine ⟨Except.ok.inj (hends.1.symm.trans hends'.1), ?_⟩
  simpa using hends.2.symm.trans hends'.2

end

/-- The tokens of a group are given and the group is consumed exactly where the replay begins with
one, and there is only one way to see it so.  A replay that begins with no opening mark is left as it
is; where the first one is not closed before an end mark, that is refused at its place. -/
theorem skipBalanced_iff {υ : Type} (opening closing : Char) (hpair : opening ≠ closing)
    (context : String) (r : Replay) (hmark : r.endMark.isEnd = true) (arena : Arena) (user : υ) :
    let x : Session υ := ⟨.replay r, arena, user⟩
    let p : Parser υ (List Token) := skipBalanced opening closing context
    (r.peek.isMark opening = false → p x = .refuse
      ⟨.unexpectedToken opening.toString r.peek.render (some context), r.peek.start⟩ x) ∧
    (∀ inner after, p.Ends x inner ⟨.replay { r with rest := after }, arena, user⟩ ↔
      IsGroup (opening, closing) r.rest inner after) ∧
    (∀ inner after inner' after', IsGroup (opening, closing) r.rest inner after →
      IsGroup (opening, closing) r.rest inner' after' → inner = inner' ∧ after = after') ∧
    (r.peek.isMark opening = true → (∀ inner after, ¬ IsGroup (opening, closing) r.rest inner after) →
      (p x).result = .error (.source
        ⟨.mismatchedDelimiters opening.toString closing.toString (some context), r.peek.start⟩)) := by
  intro x p
  refine ⟨skipBalanced_unopened r, fun inner after => ⟨?_, skipBalanced_group hpair hmark⟩,
    fun inner after inner' after' => isGroup_unique hpair, ?_⟩
  · intro hends
    cases ho : r.peek.isMark opening with
    | false =>
      have hrefused := congrArg Outcome.result
        (@skipBalanced_unopened υ context arena user opening closing r ho)
      cases hends.1.symm.trans hrefused
    | true =>
      rcases @group_or_refused υ (opening, closing) context arena user hpair r hmark ho with
        ⟨inner', after', hgroup⟩ | hrefused
      · have hends' := @skipBalanced_group υ _ context _ _ _ r.saved _ arena user hpair hmark hgroup
        obtain rfl : inner' = inner := Except.ok.inj (hends'.1.symm.trans hends.1)
        obtain rfl : after' = after := by simpa using hends'.2.symm.trans hends.2
        exact hgroup
      · cases hends.1.symm.trans hrefused
  · intro ho hnone
    rcases @group_or_refused υ (opening, closing) context arena user hpair r hmark ho with
      ⟨inner, after, hgroup⟩ | hrefused
    · exact absurd hgroup (hnone inner after)
    · exact hrefused

/-- A group with a group in it, and more tokens behind it. -/
theorem skipBalanced_sample :
    let word (text : String) : Token := ⟨.identifier, text, ⟨0, 1⟩, ⟨0, 1⟩⟩
    let mark (text : String) : Token := ⟨.symbol, text, ⟨0, 1⟩, ⟨0, 1⟩⟩
    let inner := [word "a", mark ",", mark "(", word "b", mark ")"]
    let after := [word "rest", mark ")"]
    let r : Replay := ⟨mark "(" :: (inner ++ mark ")" :: after), [], ⟨.endOfType, "", ⟨0, 1⟩, ⟨0, 1⟩⟩⟩
    '(' ≠ ')' ∧ r.endMark.isEnd = true ∧ IsGroup ('(', ')') r.rest inner after ∧
      (skipBalanced '(' ')' "arguments").Ends ⟨.replay r, .empty, 7⟩ inner
        ⟨.replay { r with rest := after }, .empty, 7⟩ := by
  intro word mark inner after r
  have hgroup : IsGroup ('(', ')') r.rest inner after :=
    ⟨⟨mark "(", mark ")", rfl, by decide, by decide⟩, by decide,
      (balanced_iff_depthOf (by decide)).mpr (by decide)⟩
  have hall := skipBalanced_iff '(' ')' (by decide) "arguments" r rfl .empty 7
  exact ⟨by decide, rfl, hgroup, (hall.2.1 inner after).mpr hgroup⟩

end Grammar

end HeaderLex
