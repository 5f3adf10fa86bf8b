import HeaderLex.Proofs.Execution
import HeaderLex.Grammar.Declaration
import Mathlib.Data.List.Induction

/-!
# The extent of a declaration

Where a declaration ends is said by the brackets of one pair: it ends at a semicolon outside of them,
at the bracket that closes the outermost one, or at the end of the stream.

* `depthOf`       how many brackets of a pair are open after some tokens;
* `Stops`         a token ends the declaration;
* `Running`       no token has ended it yet;
* `Complete`      the last token ends it, and none before;
* `Block`         one balanced pair of braces;
* `Division`      the tokens of a skipped declaration in their parts;
* `judge`         what a token is where so many brackets are open, and `judged` what follows from it.
-/

namespace HeaderLex

open HeaderLex.Grammar

/-! ## depth -/

/-- How many brackets are open after one more token; none if it closes one that is not open. -/
def depthStep (brackets : Char × Char) (depth : Nat) (t : Token) : Option Nat :=
  if t.isMark brackets.1 then some (depth + 1)
  else if t.isMark brackets.2 then
    if depth = 0 then none else some (depth - 1)
  else some depth

/-- How many brackets are open after some tokens, if every closed bracket was open. -/
def depthOf (brackets : Char × Char) (ts : List Token) : Option Nat := ts.foldlM (depthStep brackets) 0

/-- The token behind the others ends a declaration: a semicolon outside the brackets, or a bracket
that closes the outermost one. -/
def Stops (brackets : Char × Char) (before : List Token) (t : Token) : Prop :=
  (depthOf brackets before = some 0 ∧ t.isMark ';' = true) ∨
    (t.isMark brackets.2 = true ∧ depthOf brackets (before ++ [t]) = some 0)

/-- So many brackets are open after the tokens, and none of these ends a declaration. -/
structure Running (brackets : Char × Char) (ts : List Token) (depth : Nat) : Prop where
  depth : depthOf brackets ts = some depth
  goesOn : ∀ before t after, ts = before ++ t :: after → ¬ Stops brackets before t

/-- The tokens of a declaration up to its end: every bracket is closed, and nothing ends the
declaration before the last token. -/
structure Complete (brackets : Char × Char) (own : List Token) : Prop where
  nested : depthOf brackets own = some 0
  whole : ∀ before t after, own = before ++ t :: after → after ≠ [] → ¬ Stops brackets before t

/-- One balanced pair of braces: they are all closed at the end, and not before. -/
structure Block (ts : List Token) : Prop where
  opened : ∃ t rest, ts = t :: rest ∧ t.isMark '{' = true
  balanced : depthOf ('{', '}') ts = some 0
  whole : ∀ before after, ts = before ++ after → before ≠ [] → after ≠ [] →
    depthOf ('{', '}') before ≠ some 0

/-- The tokens of a skipped declaration: `first`, which was consumed before, and those `taken` then,
end marks apart.  The declaration `own` runs to its end in its own brackets, a macro may have a
`block` behind it, a class may have the `name` of an instance, and there may be semicolons. -/
structure Division (first : Token) (taken : List Token) (o : SkipOutcome)
    (own block name semicolons : List Token) : Prop where
  parts : first :: taken.filter (!·.isEnd) = own ++ block ++ name ++ semicolons
  complete : Complete (bodyBrackets first) own
  ends : (∃ before t, own = before ++ [t] ∧ Stops (bodyBrackets first) before t) ∨
    ∃ mark after, first :: taken = own ++ mark :: after ∧ mark.isEnd = true
  block : block = [] ∨ isMacroStyle first = true ∧
    (∃ before t, own = before ++ [t] ∧ t.isMark ')' = true) ∧
    (∃ after, first :: taken = own ++ (block ++ after)) ∧ Block block
  name : name = [] ∨ isClassWord first = true ∧ o.foundBody = true ∧
    ∃ t mark, name = [t, mark] ∧ t.isIdentifier = true ∧ mark.isMark ';' = true
  semicolons : ∀ t ∈ semicolons, t.isMark ';' = true
  foundBody : o.foundBody = true ↔ ∃ t ∈ own, t.isMark (bodyBrackets first).1 = true
  macroStyle : o.macroStyle = isMacroStyle first
  tokensSkipped : o.tokensSkipped = 1 + (taken.filter (!·.isEnd)).length

section

variable {brackets : Char × Char} {ts before : List Token} {t : Token} {depth d : Nat}

theorem depthOf_append (brackets : Char × Char) (ts us : List Token) :
    depthOf brackets (ts ++ us) = (depthOf brackets ts).bind (us.foldlM (depthStep brackets)) :=
  List.foldlM_append

theorem depthOf_snoc (brackets : Char × Char) (ts : List Token) (t : Token) :
    depthOf brackets (ts ++ [t]) = (depthOf brackets ts).bind (depthStep brackets · t) := by
  rw [depthOf_append]
  exact congrArg _ (funext fun d => bind_pure (depthStep brackets d t))

/-- Without an opening bracket no bracket gets open. -/
theorem depthOf_of_unopened (h : ∀ t ∈ ts, t.isMark brackets.1 = false)
    (hdepth : depthOf brackets ts = some d) : d = 0 := by
  induction ts using List.reverseRecOn generalizing d with
  | nil => exact (Option.some.inj hdepth).symm
  | append_singleton ts t ih =>
    rw [depthOf_snoc] at hdepth
    obtain ⟨e, he, hstep⟩ := Option.bind_eq_some_iff.mp hdepth
    obtain rfl : e = 0 := ih (fun u hu => h u (List.mem_append_left _ hu)) he
    rw [depthStep, if_neg (by simp [h t])] at hstep
    split at hstep
    · cases hstep
    · exact (Option.some.inj hstep).symm

/-- Where a bracket is open, it was opened. -/
theorem opened_of_depthOf (h : depthOf brackets ts = some (d + 1)) :
    ∃ t ∈ ts, t.isMark brackets.1 = true := by
  apply Decidable.byContradiction
  intro hnone
  have hunopened : ∀ t ∈ ts, t.isMark brackets.1 = false :=
    fun t ht => eq_false_of_ne_true fun hopen => hnone ⟨t, ht, hopen⟩
  cases depthOf_of_unopened hunopened h

/-! ## running declarations -/

theorem running_nil (brackets : Char × Char) : Running brackets [] 0 :=
  ⟨rfl, fun before t after h => by simp at h⟩

/-- Nothing before the next token ends a declaration that runs. -/
theorem Running.goesOn_snoc (h : Running brackets before depth) {before' after : List Token} {u : Token}
    (hsplit : before ++ [t] = before' ++ u :: after) (hafter : after ≠ []) :
    ¬ Stops brackets before' u := by
  rcases List.eq_nil_or_concat after with rfl | ⟨after, v, rfl⟩
  · exact absurd rfl hafter
  · rw [List.concat_eq_append, ← List.cons_append, ← List.append_assoc] at hsplit
    obtain ⟨rfl, -⟩ := List.append_inj' hsplit rfl
    exact h.goesOn before' u after rfl

theorem Running.snoc (h : Running brackets before depth) (hgo : ¬ Stops brackets before t)
    (hd : depthOf brackets (before ++ [t]) = some d) : Running brackets (before ++ [t]) d := by
  refine ⟨hd, ?_⟩
  intro before' u after hsplit
  by_cases hafter : after = []
  · subst hafter
    obtain ⟨rfl, h⟩ := List.append_inj' hsplit rfl
    obtain rfl := List.singleton_inj.mp h
    exact hgo
  · exact h.goesOn_snoc hsplit hafter

theorem Running.complete (h : Running brackets before depth)
    (hd : depthOf brackets (before ++ [t]) = some 0) : Complete brackets (before ++ [t]) :=
  ⟨hd, fun _ _ _ hsplit hafter => h.goesOn_snoc hsplit hafter⟩

/-- A declaration that runs has run all the time. -/
theorem Running.initial {after : List Token} (h : Running brackets (before ++ after) depth) :
    ∃ d, Running brackets before d := by
  have hdepth := h.depth
  rw [depthOf_append] at hdepth
  obtain ⟨d, hd, -⟩ := Option.bind_eq_some_iff.mp hdepth
  refine ⟨d, hd, ?_⟩
  rintro before' u after' rfl
  exact h.goesOn before' u (after' ++ after) (by simp)

/-- Nothing but a bracket that closes the last open one leads out of the brackets, so a declaration
that begins with an opening bracket does not run behind the end of it. -/
theorem Running.inside {rest : List Token} (h : Running brackets (t :: rest) d)
    (ht : t.isMark brackets.1 = true) : d ≠ 0 := by
  induction rest using List.reverseRecOn generalizing d with
  | nil =>
    have hopen : depthOf brackets [t] = some 1 := by simp [depthOf, depthStep, ht]
    obtain rfl := Option.some.inj (hopen.symm.trans h.depth)
    exact Nat.one_ne_zero
  | append_singleton rest u ih =>
    obtain ⟨e, hrunning⟩ := @Running.initial brackets (t :: rest) d [u] h
    have hstep := h.depth
    rw [← List.cons_append, depthOf_snoc, hrunning.depth, Option.bind_some] at hstep
    rintro rfl
    have hgo : ¬ Stops brackets (t :: rest) u := h.goesOn (t :: rest) u [] rfl
    have hclosing : ¬ u.isMark brackets.2 = true := fun hu => hgo (.inr ⟨hu, h.depth⟩)
    rw [depthStep, if_neg hclosing] at hstep
    split at hstep
    · cases hstep
    · exact ih hrunning (Option.some.inj hstep)

/-- Braces that are opened and run are a block where the last one is closed. -/
theorem Running.block {rest : List Token} (h : Running ('{', '}') before depth)
    (hd : depthOf ('{', '}') (before ++ [t]) = some 0) {u : Token} (hu : u.isMark '{' = true)
    (hbegin : before ++ [t] = u :: rest) : Block (before ++ [t]) := by
  refine ⟨⟨u, rest, hbegin, hu⟩, hd, ?_⟩
  intro part after hsplit hpart hafter
  obtain ⟨v, part, rfl⟩ := List.exists_cons_of_ne_nil hpart
  rcases List.eq_nil_or_concat after with rfl | ⟨after, w, rfl⟩
  · exact absurd rfl hafter
  rw [List.concat_eq_append, ← List.append_assoc] at hsplit
  obtain ⟨rfl, -⟩ := List.append_inj' hsplit rfl
  obtain ⟨rfl, -⟩ := List.cons.inj hbegin
  obtain ⟨e, hrunning⟩ := h.initial
  rw [hrunning.depth]
  exact fun he => hrunning.inside hu (Option.some.inj he)

/-! ## one token -/

/-- What a token is in a declaration. -/
inductive Judgement where
  /-- It leaves so many brackets open. -/
  | goesOn (depth : Nat)
  /-- It closes a bracket that is not open. -/
  | refused
  /-- It closes the outermost bracket. -/
  | closed
  /-- It is a semicolon outside the brackets. -/
  | stopped

/-- What a token is where so many brackets are open. -/
def judge (brackets : Char × Char) (depth : Nat) (t : Token) : Judgement :=
  if t.isMark brackets.1 then .goesOn (depth + 1)
  else if t.isMark brackets.2 then
    if depth = 0 then .refused
    else if depth = 1 then .closed
    else .goesOn (depth - 1)
  else if depth = 0 && t.isMark ';' then .stopped
  else .goesOn depth

/-- What follows from the judgement of a token. -/
def Judgement.Means (brackets : Char × Char) (before : List Token) (depth : Nat) (t : Token) :
    Judgement → Prop
  | goesOn d => depthOf brackets (before ++ [t]) = some d ∧ ¬ Stops brackets before t
  | refused => depth = 0 ∧ t.isMark brackets.2 = true ∧ depthOf brackets (before ++ [t]) = none
  | closed => depth = 1 ∧ t.isMark brackets.2 = true ∧ depthOf brackets (before ++ [t]) = some 0
  | stopped => depth = 0 ∧ t.isMark ';' = true ∧ depthOf brackets (before ++ [t]) = some 0

theorem judged (hopening : brackets.1 ≠ ';') (h : depthOf brackets before = some depth) (t : Token) :
    (judge brackets depth t).Means brackets before depth t := by
  have hdepth : depthOf brackets (before ++ [t]) = depthStep brackets depth t := by
    rw [depthOf_snoc, h, Option.bind_some]
  have hstops : Stops brackets before t ↔ (depth = 0 ∧ t.isMark ';' = true) ∨
      (t.isMark brackets.2 = true ∧ depthStep brackets depth t = some 0) := by
    rw [Stops, hdepth, h, Option.some.injEq]
  unfold judge
  by_cases hopen : t.isMark brackets.1 = true
  · have hstep : depthStep brackets depth t = some (depth + 1) := if_pos hopen
    rw [if_pos hopen]
    refine ⟨hdepth.trans hstep, ?_⟩
    rw [hstops, hstep]
    rintro (⟨-, hsemicolon⟩ | ⟨-, hnone⟩)
    · exact hopening (Token.eq_of_isMark hopen hsemicolon)
    · cases hnone
  rw [if_neg hopen]
  by_cases hclose : t.isMark brackets.2 = true
  · have hstep : depthStep brackets depth t = if depth = 0 then none else some (depth - 1) := by
      rw [depthStep, if_neg hopen, if_pos hclose]
    rw [if_pos hclose]
    split
    · next hzero =>
      rw [if_pos hzero] at hstep
      exact ⟨hzero, hclose, hdepth.trans hstep⟩
    · next hinside =>
      rw [if_neg hinside] at hstep
      split
      · next hone =>
        subst hone
        exact ⟨rfl, hclose, hdepth.trans hstep⟩
      · refine ⟨hdepth.trans hstep, ?_⟩
        rw [hstops, hstep, Option.some.injEq]
        omega
  · have hstep : depthStep brackets depth t = some depth := by
      rw [depthStep, if_neg hopen, if_neg hclose]
    rw [if_neg hclose]
    split
    · next hstop =>
      simp only [Bool.and_eq_true, decide_eq_true_eq] at hstop
      obtain ⟨rfl, hsemicolon⟩ := hstop
      exact ⟨rfl, hsemicolon, hdepth.trans hstep⟩
    · next hgo =>
      simp only [Bool.and_eq_true, decide_eq_true_eq] at hgo
      refine ⟨hdepth.trans hstep, ?_⟩
      rw [hstops]
      rintro (hstop | ⟨hmark, -⟩)
      · exact hgo hstop
      · exact hclose hmark

theorem judge_of_goesOn (hopening : brackets.1 ≠ ';') (h : depthOf brackets before = some depth)
    (hd : depthOf brackets (before ++ [t]) = some d) (hgo : ¬ Stops brackets before t) :
    judge brackets depth t = .goesOn d := by
  have hmeans := judged hopening h t
  cases hjudge : judge brackets depth t with
  | goesOn e =>
    rw [hjudge] at hmeans
    rw [Option.some.inj (hmeans.1.symm.trans hd)]
  | refused =>
    rw [hjudge] at hmeans
    cases hmeans.2.2.symm.trans hd
  | closed =>
    rw [hjudge] at hmeans
    exact absurd (.inr hmeans.2) hgo
  | stopped =>
    rw [hjudge] at hmeans
    rw [hmeans.1] at h
    exact absurd (.inl ⟨h, hmeans.2.1⟩) hgo

theorem judge_of_unopened (hpair : brackets.1 ≠ brackets.2) (ht : t.isMark brackets.2 = true) :
    judge brackets 0 t = .refused := by
  have hopen : ¬ t.isMark brackets.1 = true := fun hopen => hpair (Token.eq_of_isMark hopen ht)
  rw [judge, if_neg hopen, if_pos ht, if_pos rfl]

end

theorem bodyBrackets_cases (first : Token) :
    bodyBrackets first = ('(', ')') ∨ bodyBrackets first = ('{', '}') := by
  unfold bodyBrackets
  split
  · exact .inl rfl
  · exact .inr rfl

theorem opening_ne_semicolon (first : Token) : (bodyBrackets first).1 ≠ ';' := by
  rcases bodyBrackets_cases first with h | h <;> rw [h] <;> decide

theorem opening_ne_closing (first : Token) : (bodyBrackets first).1 ≠ (bodyBrackets first).2 := by
  rcases bodyBrackets_cases first with h | h <;> rw [h] <;> decide

end HeaderLex
