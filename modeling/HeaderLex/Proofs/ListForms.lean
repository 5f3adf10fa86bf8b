import HeaderLex.Proofs.Execution
import HeaderLex.Proofs.Nesting

/-!
# Lists of token groups

A replay is read as a list exactly when its tokens are one: an opening mark, elements with
separators between them, and a closing mark.  An element is nested in brackets of every kind and
holds neither mark outside them.

* `Element`, `Items`, `Listing`   what a list is;
* `Passes`            the same of the tokens of one element, as a stack goes over them;
* `Items.run`         a list is read, and its elements are handed on in order;
* `items_or_refused`  what is read is a list, or else a token is refused;
* `requireListTokens_iff`   both together.
-/

namespace HeaderLex

open HeaderLex.Operation HeaderLex.Parser HeaderLex.Grammar

namespace Grammar.ListForm

/-! ## lists -/

/-- One element: some tokens with nested brackets, and no mark of the list outside of them. -/
structure Element (form : ListForm) (e : List Token) : Prop where
  nonempty : e ≠ []
  content : ∀ t ∈ e, t.isEnd = false
  nested : Nested (e.flatMap Token.edges)
  outside : ∀ before t after, e = before ++ t :: after → Nested (before.flatMap Token.edges) →
    t.isMark form.closing = false ∧ t.isMark form.separator = false

/-- Elements with separators between them, and the closing mark. -/
inductive Items (form : ListForm) : List (List Token) → List Token → Prop
  | last {e : List Token} {c : Token} : form.Element e → c.isMark form.closing = true →
      Items form [e] (e ++ [c])
  | trailing {e : List Token} {s c : Token} : form.Element e → s.isMark form.separator = true →
      form.allowTrailing = true → c.isMark form.closing = true → Items form [e] (e ++ [s, c])
  | more {e : List Token} {s : Token} {es : List (List Token)} {ts : List Token} :
      form.Element e → s.isMark form.separator = true → Items form es ts →
      Items form (e :: es) (e ++ s :: ts)

/-- A list with its elements. -/
inductive Listing (form : ListForm) : List (List Token) → List Token → Prop
  | empty {o c : Token} : o.isMark form.opening = true → c.isMark form.closing = true →
      Listing form [] [o, c]
  | full {o : Token} {es : List (List Token)} {ts : List Token} : o.isMark form.opening = true →
      form.Items es ts → Listing form es (o :: ts)

/-! ## the tokens of an element -/

/-- The token ends an element outside brackets. -/
def delimits (form : ListForm) (t : Token) : Bool :=
  t.isMark form.closing || t.isMark form.separator

/-- The tokens close the open brackets, and none of them ends the element. -/
inductive Passes (form : ListForm) : List Bracket → List Token → Prop
  | nil : Passes form [] []
  | cons {pending next : List Bracket} {t : Token} {ts : List Token} : t.isEnd = false →
      (pending = [] → form.delimits t = false) → Edge.after pending t.edges = some next →
      Passes form next ts → Passes form pending (t :: ts)

theorem passes_iff {form : ListForm} {pending : List Bracket} {e : List Token} :
    form.Passes pending e ↔ (∀ t ∈ e, t.isEnd = false) ∧
      Edge.after pending (e.flatMap Token.edges) = some [] ∧
      ∀ before t after, e = before ++ t :: after →
        Edge.after pending (before.flatMap Token.edges) = some [] → form.delimits t = false := by
  induction e generalizing pending with
  | nil =>
    constructor
    · rintro ⟨⟩
      exact ⟨by simp, rfl, by simp⟩
    · rintro ⟨-, hclosed, -⟩
      obtain rfl : pending = [] := Option.some.inj hclosed
      exact .nil
  | cons t ts ih =>
    simp only [List.forall_mem_cons, List.flatMap_cons, Edge.after_append]
    constructor
    · rintro (_ | ⟨hcontent, hfree, hafter, hrest⟩)
      obtain ⟨hcontents, hclosed, houtside⟩ := ih.mp hrest
      refine ⟨⟨hcontent, hcontents⟩, by rw [hafter]; exact hclosed, ?_⟩
      rintro (_ | ⟨u, before⟩) v after hsplit hbefore
      · obtain ⟨rfl, -⟩ := List.cons.inj hsplit
        exact hfree (Option.some.inj hbefore)
      · obtain ⟨rfl, rfl⟩ := List.cons.inj hsplit
        rw [List.flatMap_cons, Edge.after_append, hafter] at hbefore
        exact houtside before v after rfl hbefore
    · rintro ⟨⟨hcontent, hcontents⟩, hclosed, houtside⟩
      obtain ⟨next, hafter, hclosed⟩ := Option.bind_eq_some_iff.mp hclosed
      refine .cons hcontent ?_ hafter (ih.mpr ⟨hcontents, hclosed, ?_⟩)
      · rintro rfl
        exact houtside [] t ts rfl rfl
      · rintro before v after rfl hbefore
        refine houtside (t :: before) v after rfl ?_
        rw [List.flatMap_cons, Edge.after_append, hafter]
        exact hbefore

theorem element_iff {form : ListForm} {e : List Token} :
    form.Element e ↔ e ≠ [] ∧ form.Passes [] e := by
  simp only [passes_iff, ← nested_iff_after, delimits, Bool.or_eq_false_iff]
  exact ⟨fun ⟨hne, hcontent, hnested, houtside⟩ => ⟨hne, hcontent, hnested, houtside⟩,
    fun ⟨hne, hcontent, hnested, houtside⟩ => ⟨hne, hcontent, hnested, houtside⟩⟩

/-! ## one token of an element -/

theorem delimits_of_closing {form : ListForm} {t : Token} (h : t.isMark form.closing = true) :
    form.delimits t = true := by
  rw [delimits, h, Bool.true_or]

theorem delimits_of_separator {form : ListForm} {t : Token} (h : t.isMark form.separator = true) :
    form.delimits t = true := by
  rw [delimits, h, Bool.or_true]

theorem isEnd_of_delimits {form : ListForm} {t : Token} (h : form.delimits t = true) :
    t.isEnd = false := by
  rw [delimits, Bool.or_eq_true] at h
  rcases h with h | h <;> exact Token.isEnd_of_isMark h

/-- An end mark is no mark of a list, so where one comes next it is a token of the replay. -/
theorem head_of_isMark {rest : List Token} {saved : List (List Token)} {mark : Token}
    (hmark : mark.isEnd = true) {c : Char} (h : (Replay.mk rest saved mark).peek.isMark c = true) :
    ∃ t ts, rest = t :: ts ∧ t.isMark c = true := by
  cases rest with
  | nil =>
    have hcontent : mark.isEnd = false := Token.isEnd_of_isMark h
    rw [hmark] at hcontent
    cases hcontent
  | cons t ts => exact ⟨t, ts, rfl, h⟩

/-- A token is refused, in the context of the list. -/
def Refused (form : ListForm) {σ α : Type} (o : Outcome σ α) : Prop :=
  ∃ (expected : String) (found : Token), o.result =
    .error (.source ⟨.unexpectedToken expected found.render form.context, found.start⟩)

theorem Refused.bind {form : ListForm} {σ α β : Type} {x : Operation σ α} {s : σ}
    (h : form.Refused (x s)) (f : α → Operation σ β) : form.Refused ((x >>= f) s) := by
  obtain ⟨expected, found, h⟩ := h
  exact ⟨expected, found, bind_error h⟩

theorem refused_unexpected (form : ListForm) {υ α : Type} (expected : String) (t : Token)
    (s : Session υ) : form.Refused ((unexpected expected t form.context : Parser υ α) s) :=
  ⟨expected, t, rfl⟩

section

variable {υ : Type} {form : ListForm} {t : Token} {pending next : List Bracket} (acc : List Token)

/-- What the reader of an element does at a token. -/
def elementStep (form : ListForm) (x : List Token × List Char) (t : Token) :
    Parser υ ((List Token × List Char) ⊕ List Token) :=
  if t.isEnd then unexpected form.closing.toString t form.context
  else if x.2.isEmpty && (t.isMark form.closing || t.isMark form.separator) then
    return .inr x.1
  else do
    let closers ← nextClosers form x.2 t
    consume
    return .inl (x.1 ++ [t], closers)

def elementTurn (form : ListForm) (x : List Token × List Char) :
    Parser υ ((List Token × List Char) ⊕ List Token) := peek >>= elementStep form x

theorem listElement_eq (form : ListForm) : (listElement form : Parser υ (List Token)) =
    loop (elementTurn form) ([], []) >>= fun tokens =>
      if tokens.isEmpty then peek >>= fun t => unexpected "list element" t form.context
      else pure tokens := rfl

theorem elementStep_end (h : t.isEnd = true) (closers : List Char) :
    (elementStep form (acc, closers) t : Parser υ _)
      = unexpected form.closing.toString t form.context := by
  rw [elementStep, if_pos h]

theorem elementStep_delimits (h : form.delimits t = true) :
    (elementStep form (acc, []) t : Parser υ _) = pure (.inr acc) := by
  rw [delimits] at h
  simp [elementStep, isEnd_of_delimits h, h]

/-- Inside brackets nothing ends an element. -/
theorem elementStep_inside (hcontent : t.isEnd = false)
    (hfree : pending = [] → form.delimits t = false) :
    (elementStep form (acc, pending.map Bracket.closer) t : Parser υ _) = do
      let closers ← nextClosers form (pending.map Bracket.closer) t
      consume
      return .inl (acc ++ [t], closers) := by
  cases pending with
  | nil =>
    have hnot := hfree rfl
    rw [delimits] at hnot
    simp [elementStep, hcontent, hnot]
  | cons b pending => simp [elementStep, hcontent]

end

/-! ## reading an element -/

section

variable {υ : Type} {form : ListForm} {saved : List (List Token)} {mark : Token} {arena : Arena}
  {user : υ} {pending : List Bracket}

/-- A session over a replay, by the tokens that are still to come. -/
abbrev served (saved : List (List Token)) (mark : Token) (arena : Arena) (rest : List Token)
    (user : υ) : Session υ := ⟨.replay ⟨rest, saved, mark⟩, arena, user⟩

theorem elementTurn_served (x : List Token × List Char) (t : Token) (ts : List Token) :
    elementTurn form x (served saved mark arena (t :: ts) user)
      = elementStep form x t (served saved mark arena (t :: ts) user) := rfl

theorem elementTurn_exhausted (x : List Token × List Char) :
    elementTurn form x (served saved mark arena [] user)
      = elementStep form x mark (served saved mark arena [] user) := rfl

theorem Passes.run {e : List Token} (h : form.Passes pending e) {d : Token}
    (hd : form.delimits d = true) (after acc : List Token) {turns : Nat} (hturns : e.length < turns) :
    repeatFor (elementTurn form) turns (acc, pending.map Bracket.closer)
        (served saved mark arena (e ++ d :: after) user)
      = .ok (acc ++ e) (served saved mark arena (d :: after) user) := by
  induction h generalizing acc turns with
  | nil =>
    obtain ⟨turns, rfl⟩ := Nat.exists_eq_add_one_of_ne_zero (Nat.ne_of_gt hturns)
    rw [List.append_nil]
    apply repeatFor_done
    show elementTurn form (acc, []) (served saved mark arena (d :: after) user) = _
    rw [elementTurn_served, elementStep_delimits acc hd]
    rfl
  | @cons pending next t ts hcontent hfree hafter _ ih =>
    obtain ⟨turns, rfl⟩ := Nat.exists_eq_add_one_of_ne_zero (Nat.ne_of_gt (Nat.zero_lt_of_lt hturns))
    have hstep : elementTurn form (acc, pending.map Bracket.closer)
        (served saved mark arena (t :: (ts ++ d :: after)) user)
          = .ok (.inl (acc ++ [t], next.map Bracket.closer))
              (served saved mark arena (ts ++ d :: after) user) := by
      rw [elementTurn_served, elementStep_inside acc hcontent hfree, nextClosers_of_after form hafter]
      rfl
    rw [List.cons_append, repeatFor_more hstep, ih (acc ++ [t]) (Nat.lt_of_succ_lt_succ hturns),
      List.append_assoc]
    rfl

/-- The reader of an element finds one with a mark of the list behind it, or refuses a token. -/
theorem passes_or_refused (hmark : mark.isEnd = true) (rest acc : List Token) {turns : Nat}
    (hturns : rest.length < turns) :
    (∃ e d after, rest = e ++ d :: after ∧ form.Passes pending e ∧ form.delimits d = true) ∨
      form.Refused (repeatFor (elementTurn form) turns
        (acc, pending.map Bracket.closer) (served saved mark arena rest user)) := by
  induction rest generalizing pending acc turns with
  | nil =>
    obtain ⟨turns, rfl⟩ := Nat.exists_eq_add_one_of_ne_zero (Nat.ne_of_gt hturns)
    right
    apply Refused.bind
    rw [elementTurn_exhausted, elementStep_end acc hmark]
    exact refused_unexpected form _ _ _
  | cons t ts ih =>
    obtain ⟨turns, rfl⟩ := Nat.exists_eq_add_one_of_ne_zero (Nat.ne_of_gt (Nat.zero_lt_of_lt hturns))
    cases hend : t.isEnd with
    | true =>
      right
      apply Refused.bind
      rw [elementTurn_served, elementStep_end acc hend]
      exact refused_unexpected form _ _ _
    | false =>
      by_cases hstop : pending = [] ∧ form.delimits t = true
      · obtain ⟨rfl, hd⟩ := hstop
        exact .inl ⟨[], t, ts, rfl, .nil, hd⟩
      · have hfree : pending = [] → form.delimits t = false := by simpa using hstop
        have hinside := elementStep_inside (υ := υ) acc hend hfree
        cases hafter : Edge.after pending t.edges with
        | none =>
          right
          obtain ⟨expected, hnext⟩ := nextClosers_of_none (υ := υ) form hafter
          apply Refused.bind
          rw [elementTurn_served, hinside, hnext]
          exact (refused_unexpected form expected t _).bind _
        | some next =>
          have hstep : elementTurn form (acc, pending.map Bracket.closer)
              (served saved mark arena (t :: ts) user)
                = .ok (.inl (acc ++ [t], next.map Bracket.closer)) (served saved mark arena ts user) := by
            rw [elementTurn_served, hinside, nextClosers_of_after form hafter]
            rfl
          rw [repeatFor_more hstep]
          rcases ih (acc ++ [t]) (Nat.lt_of_succ_lt_succ hturns) with ⟨e, d, after, rfl, he, hd⟩ | hrefused
          · exact .inl ⟨t :: e, d, after, rfl, .cons hend hfree hafter he, hd⟩
          · exact .inr hrefused

theorem Element.run {e : List Token} (h : form.Element e) {d : Token}
    (hd : form.delimits d = true) (after : List Token) :
    listElement form (served saved mark arena (e ++ d :: after) user)
      = .ok e (served saved mark arena (d :: after) user) := by
  obtain ⟨hne, hpasses⟩ := element_iff.mp h
  have hturns : e.length < (served saved mark arena (e ++ d :: after) user).stream.budget :=
    Nat.lt_of_le_of_lt (by simp) (budget_replay ⟨e ++ d :: after, saved, mark⟩)
  have hloop : loop (elementTurn form) ([], []) (served saved mark arena (e ++ d :: after) user)
      = .ok e (served saved mark arena (d :: after) user) := hpasses.run hd after [] hturns
  rw [listElement_eq, bind_ok hloop, if_neg (by simpa using hne)]
  rfl

theorem element_or_refused (hmark : mark.isEnd = true) (rest : List Token) :
    (∃ e d after, rest = e ++ d :: after ∧ form.Element e ∧ form.delimits d = true) ∨
      form.Refused (listElement form (served saved mark arena rest user)) := by
  rcases @passes_or_refused υ form saved mark arena user [] hmark rest [] _
    (budget_replay ⟨rest, saved, mark⟩) with ⟨e, d, after, rfl, hpasses, hd⟩ | hrefused
  · cases e with
    | nil =>
      right
      have hturns : 0 < (served saved mark arena (d :: after) user).stream.budget :=
        Nat.lt_of_le_of_lt (Nat.zero_le _) (budget_replay ⟨d :: after, saved, mark⟩)
      have hloop : loop (elementTurn form) ([], []) (served saved mark arena (d :: after) user)
          = .ok [] (served saved mark arena (d :: after) user) := Passes.nil.run hd after [] hturns
      rw [listElement_eq, List.nil_append, bind_ok hloop]
      exact refused_unexpected form _ _ _
    | cons t e => exact .inl ⟨t :: e, d, after, rfl, element_iff.mpr ⟨List.cons_ne_nil t e, hpasses⟩, hd⟩
  · right
    rw [listElement_eq]
    exact Refused.bind hrefused _

end

/-! ## reading a list -/

section

variable {υ : Type} {form : ListForm} {saved : List (List Token)} {mark : Token} {arena : Arena}
  {user : υ} {give : υ → List Token → υ}

/-- One element, given to the caller. -/
def element (form : ListForm) (give : υ → List Token → υ) : Parser υ Unit :=
  listElement form >>= fun e => modifyUser (give · e)

def itemsTurn (form : ListForm) (give : υ → List Token → υ) (_ : Unit) : Parser υ (Unit ⊕ Unit) :=
  listTurn form (element form give) >>= fun last => if last then pure (.inr ()) else pure (.inl ())

theorem requireListTokens_eq (form : ListForm) (give : υ → List Token → υ) :
    requireListTokens form (fun e => modifyUser (give · e)) =
      requireMark form.opening form.context >>= fun _ => tryMark form.closing >>= fun closed =>
        if closed then pure () else loop (itemsTurn form give) () := rfl

/-- What follows an element. -/
def afterElement (form : ListForm) : Parser υ Bool := do
  if ← tryMark form.closing then return true
  let t ← peek
  if !t.isMark form.separator then
    unexpected s!"{form.separator}' or '{form.closing}" t form.context
  else
    consume
    let t ← peek
    if t.isMark form.closing then
      if form.allowTrailing then
        consume
        return true
      else unexpected "list element" t form.context
    else return false

theorem afterElement_closing {c : Token} (hc : c.isMark form.closing = true) (after : List Token) :
    afterElement form (served saved mark arena (c :: after) user)
      = .ok true (served saved mark arena after user) :=
  bind_ok (tryMark_replay_of_mark ⟨c :: after, saved, mark⟩ arena user hc)

/-- A separator was met: the closing mark may only follow where the form allows it. -/
theorem afterElement_separator (hform : form.closing ≠ form.separator) {s : Token}
    (hs : s.isMark form.separator = true) (after : List Token) :
    afterElement form (served saved mark arena (s :: after) user) =
      (if (Replay.mk after saved mark).peek.isMark form.closing then
        if form.allowTrailing then consume >>= fun _ => pure true
        else unexpected "list element" (Replay.mk after saved mark).peek form.context
      else pure false : Parser υ Bool) (served saved mark arena after user) := by
  have hnot : ¬ s.isMark form.closing = true := fun hc => hform (Token.eq_of_isMark hc hs)
  refine (bind_ok (tryMark_replay_of_not_mark ⟨s :: after, saved, mark⟩ arena user hnot)).trans ?_
  show (if !s.isMark form.separator then _ else _ : Parser υ Bool) _ = _
  rw [hs]
  rfl

theorem itemsTurn_element {e : List Token} (he : form.Element e) {d : Token}
    (hd : form.delimits d = true) (after : List Token) {last : Bool} {s : Session υ}
    (h : afterElement form (served saved mark arena (d :: after) (give user e)) = .ok last s) :
    itemsTurn form give () (served saved mark arena (e ++ d :: after) user)
      = .ok (if last then .inr () else .inl ()) s := by
  have helement : element form give (served saved mark arena (e ++ d :: after) user)
      = .ok () (served saved mark arena (d :: after) (give user e)) := bind_ok (he.run hd after)
  have hturn : listTurn form (element form give) (served saved mark arena (e ++ d :: after) user)
      = .ok last s := (bind_ok helement).trans h
  refine (bind_ok hturn).trans ?_
  cases last <;> rfl

theorem itemsTurn_refused {e : List Token} (he : form.Element e) {d : Token}
    (hd : form.delimits d = true) (after : List Token)
    (h : form.Refused (afterElement form (served saved mark arena (d :: after) (give user e)))) :
    form.Refused (itemsTurn form give () (served saved mark arena (e ++ d :: after) user)) := by
  have helement : element form give (served saved mark arena (e ++ d :: after) user)
      = .ok () (served saved mark arena (d :: after) (give user e)) := bind_ok (he.run hd after)
  have hturn : listTurn form (element form give) (served saved mark arena (e ++ d :: after) user)
      = afterElement form (served saved mark arena (d :: after) (give user e)) := bind_ok helement
  apply Refused.bind
  rw [hturn]
  exact h

/-- A list does not begin with its closing mark, unless it is empty. -/
theorem Items.head {es : List (List Token)} {ts : List Token} (h : form.Items es ts) :
    ∃ t rest, ts = t :: rest ∧ t.isMark form.closing = false := by
  have hfirst : ∀ {e : List Token}, form.Element e → ∀ more,
      ∃ t rest, e ++ more = t :: rest ∧ t.isMark form.closing = false := by
    intro e he more
    cases e with
    | nil => exact absurd rfl he.nonempty
    | cons t e => exact ⟨t, e ++ more, rfl, (he.outside [] t e rfl .nil).1⟩
  cases h with
  | last he _ => exact hfirst he _
  | trailing he _ _ _ => exact hfirst he _
  | more he _ _ => exact hfirst he _

/-- The elements of a list are handed on one after the other. -/
theorem Items.run (hform : form.closing ≠ form.separator) {es : List (List Token)} {ts : List Token}
    (h : form.Items es ts) (after : List Token) {turns : Nat} (hturns : ts.length ≤ turns) :
    repeatFor (itemsTurn form give) turns () (served saved mark arena (ts ++ after) user)
      = .ok () (served saved mark arena after (es.foldl give user)) := by
  induction h generalizing user turns with
  | @last e c he hc =>
    obtain ⟨turns, rfl⟩ : ∃ n, turns = n + 1 := ⟨turns - 1, by simp at hturns; omega⟩
    rw [List.append_assoc]
    exact repeatFor_done
      (itemsTurn_element he (delimits_of_closing hc) after (afterElement_closing hc after)) turns
  | @trailing e s c he hs htrailing hc =>
    obtain ⟨turns, rfl⟩ : ∃ n, turns = n + 1 := ⟨turns - 1, by simp at hturns; omega⟩
    have hafter : afterElement form (served saved mark arena (s :: c :: after) (give user e))
        = .ok true (served saved mark arena after (give user e)) := by
      rw [afterElement_separator hform hs]
      show (if c.isMark form.closing then _ else _ : Parser υ Bool) _ = _
      rw [if_pos hc, if_pos htrailing]
      rfl
    rw [List.append_assoc]
    exact repeatFor_done
      (itemsTurn_element he (delimits_of_separator hs) (c :: after) hafter) turns
  | @more e s es ts he hs hitems ih =>
    obtain ⟨turns, rfl⟩ : ∃ n, turns = n + 1 := ⟨turns - 1, by simp at hturns; omega⟩
    obtain ⟨t, rest, rfl, ht⟩ := hitems.head
    have hafter : afterElement form
        (served saved mark arena (s :: (t :: rest ++ after)) (give user e))
          = .ok false (served saved mark arena (t :: rest ++ after) (give user e)) := by
      rw [afterElement_separator hform hs]
      show (if t.isMark form.closing then _ else _ : Parser υ Bool) _ = _
      rw [if_neg (by rw [ht]; decide)]
      rfl
    have hturn := itemsTurn_element he (delimits_of_separator hs) (t :: rest ++ after) hafter
    rw [List.append_assoc, List.cons_append, repeatFor_more hturn]
    exact ih (by simp at hturns ⊢; omega)

/-- What is read after the opening mark are elements and a closing mark, or a token is refused. -/
theorem items_or_refused (hform : form.closing ≠ form.separator) (hmark : mark.isEnd = true)
    (rest : List Token) {turns : Nat} (hturns : rest.length < turns) :
    (∃ es ts after, rest = ts ++ after ∧ form.Items es ts) ∨
      form.Refused (repeatFor (itemsTurn form give) turns () (served saved mark arena rest user)) := by
  induction turns generalizing rest user with
  | zero => exact absurd hturns (Nat.not_lt_zero _)
  | succ turns ih =>
    rcases @element_or_refused υ form saved mark arena user hmark rest with
      ⟨e, d, after, rfl, he, hd⟩ | hrefused
    · by_cases hc : d.isMark form.closing = true
      · exact .inl ⟨[e], e ++ [d], after, by rw [List.append_assoc]; rfl, .last he hc⟩
      · have hs : d.isMark form.separator = true := by
          rw [delimits, Bool.or_eq_true] at hd
          exact hd.resolve_left hc
        have hafter := @afterElement_separator υ form saved mark arena (give user e) hform d hs after
        by_cases hc' : (Replay.mk after saved mark).peek.isMark form.closing = true
        · obtain ⟨c, after', rfl, hc''⟩ := head_of_isMark hmark hc'
          cases htrailing : form.allowTrailing with
          | true =>
            exact .inl ⟨[e], e ++ [d, c], after', by rw [List.append_assoc]; rfl,
              .trailing he hs htrailing hc''⟩
          | false =>
            right
            apply Refused.bind
            apply itemsTurn_refused he hd
            rw [hafter, if_pos hc', if_neg (by rw [htrailing]; decide)]
            exact refused_unexpected form _ _ _
        · rw [if_neg hc'] at hafter
          have hturn := itemsTurn_element he hd after hafter
          rw [repeatFor_more hturn]
          rcases @ih (give user e) after (by simp at hturns; omega) with
            ⟨es, ts, more, rfl, hitems⟩ | hrefused
          · exact .inl ⟨e :: es, e ++ d :: ts, more, by rw [List.append_assoc]; rfl, .more he hs hitems⟩
          · exact .inr hrefused
    · right
      exact Refused.bind (Refused.bind (Refused.bind (Refused.bind hrefused _) _) _) _

/-! ## the whole list -/

theorem Listing.run (hform : form.closing ≠ form.separator) {es : List (List Token)}
    {ts : List Token} (h : form.Listing es ts) (after : List Token) :
    requireListTokens form (fun e => modifyUser (give · e)) (served saved mark arena (ts ++ after) user)
      = .ok () (served saved mark arena after (es.foldl give user)) := by
  rw [requireListTokens_eq]
  cases h with
  | @empty o c ho hc =>
    refine (bind_ok (requireMark_replay_of_mark ⟨o :: c :: after, saved, mark⟩ arena user ho _)).trans ?_
    exact bind_ok (tryMark_replay_of_mark ⟨c :: after, saved, mark⟩ arena user hc)
  | @full o es ts ho hitems =>
    obtain ⟨t, rest, rfl, ht⟩ := hitems.head
    refine (bind_ok (requireMark_replay_of_mark ⟨o :: t :: rest ++ after, saved, mark⟩ arena user ho
      _)).trans ?_
    refine (bind_ok (tryMark_replay_of_not_mark ⟨t :: rest ++ after, saved, mark⟩ arena user
      (by rw [show (Replay.mk (t :: rest ++ after) saved mark).peek = t from rfl, ht]; decide))).trans ?_
    have hturns := budget_replay ⟨t :: rest ++ after, saved, mark⟩
    exact hitems.run hform after (by simp at hturns ⊢; omega)

theorem listing_or_refused (hform : form.closing ≠ form.separator) (hmark : mark.isEnd = true)
    (rest : List Token) :
    (∃ es ts after, rest = ts ++ after ∧ form.Listing es ts) ∨
      form.Refused (requireListTokens form (fun e => modifyUser (give · e))
        (served saved mark arena rest user)) := by
  rw [requireListTokens_eq]
  by_cases ho : (Replay.mk rest saved mark).peek.isMark form.opening = true
  · obtain ⟨o, rest, rfl, ho'⟩ := head_of_isMark hmark ho
    rw [bind_ok (requireMark_replay_of_mark ⟨o :: rest, saved, mark⟩ arena user ho _)]
    by_cases hc : (Replay.mk rest saved mark).peek.isMark form.closing = true
    · obtain ⟨c, after, rfl, hc'⟩ := head_of_isMark hmark hc
      exact .inl ⟨[], [o, c], after, rfl, .empty ho' hc'⟩
    · have hopened : tryMark form.closing (served saved mark arena rest user)
          = .ok false (served saved mark arena rest user) :=
        tryMark_replay_of_not_mark ⟨rest, saved, mark⟩ arena user hc
      rcases @items_or_refused υ form saved mark arena user give hform hmark rest _
        (budget_replay ⟨rest, saved, mark⟩) with ⟨es, ts, after, rfl, hitems⟩ | hrefused
      · exact .inl ⟨es, o :: ts, after, rfl, .full ho' hitems⟩
      · right
        show form.Refused ((tryMark form.closing >>= _) (served saved mark arena rest user))
        rw [bind_ok hopened]
        exact hrefused
  · right
    apply Refused.bind
    rw [requireMark_replay_of_not_mark _ arena user ho]
    exact refused_unexpected form _ _ _

end

/-- What an action did with the elements, beside a list of them. -/
theorem foldl_ledger {υ : Type} (give : υ → List Token → υ) (user : υ) (given es : List (List Token)) :
    es.foldl (fun x e => (give x.1 e, x.2 ++ [e])) (user, given)
      = (es.foldl give user, given ++ es) := by
  induction es generalizing user given with
  | nil => rw [List.append_nil]; rfl
  | cons e es ih => rw [List.foldl_cons, ih, List.append_assoc]; rfl

/-- A call that hands the elements to an action, which never fails, succeeds exactly on a list: `k`
tokens are consumed and the elements are handed on in order if and only if these tokens are a list
of these elements.  Where the replay does not begin with a list, a token is refused. -/
theorem requireListTokens_iff {υ : Type} (form : ListForm) (hform : form.closing ≠ form.separator)
    (r : Replay) (hend : r.endMark.isEnd = true) (arena : Arena) (user : υ)
    (give : υ → List Token → υ) :
    let o := requireListTokens form (fun e => modifyUser fun x => (give x.1 e, x.2 ++ [e]))
      ⟨.replay r, arena, (user, [])⟩
    (∀ k es, k ≤ r.rest.length →
      (o = .ok () ⟨.replay { r with rest := r.rest.drop k }, arena, (es.foldl give user, es)⟩ ↔
        form.Listing es (r.rest.take k))) ∧
    ((∀ k es, k ≤ r.rest.length → ¬ form.Listing es (r.rest.take k)) → form.Refused o) := by
  obtain ⟨rest, saved, mark⟩ := r
  intro o
  have hrun : ∀ es ts after, rest = ts ++ after → form.Listing es ts →
      o = .ok () ⟨.replay ⟨after, saved, mark⟩, arena, (es.foldl give user, es)⟩ := by
    rintro es ts after rfl hlisting
    have h := @Listing.run _ form saved mark arena (user, [])
      (fun x e => (give x.1 e, x.2 ++ [e])) hform es ts hlisting after
    rw [foldl_ledger] at h
    exact h
  have hread := @listing_or_refused _ form saved mark arena (user, [])
    (fun x e => (give x.1 e, x.2 ++ [e])) hform hend rest
  refine ⟨fun k es hk => ⟨fun ho => ?_, fun hlisting => ?_⟩, fun hnone => ?_⟩
  · rcases hread with ⟨es', ts, after, hsplit, hlisting⟩ | ⟨expected, found, hrefused⟩
    · have ho' := (hrun es' ts after hsplit hlisting).symm.trans ho
      simp only [Outcome.ok, Outcome.mk.injEq, Session.mk.injEq, Stream.replay.injEq, Replay.mk.injEq,
        Prod.mk.injEq, true_and, and_true] at ho'
      obtain ⟨rfl, -, rfl⟩ := ho'
      -- what is left behind tells how much was taken
      have hts : ts = rest.take k :=
        List.append_cancel_right (hsplit.symm.trans (List.take_append_drop k rest).symm)
      rw [← hts]
      exact hlisting
    · have hok : o.result = .ok () := by rw [ho]; rfl
      cases hok.symm.trans hrefused
  · exact hrun es _ _ (List.take_append_drop k rest).symm hlisting
  · rcases hread with ⟨es, ts, after, rfl, hlisting⟩ | hrefused
    · refine absurd ?_ (hnone ts.length es (by simp))
      simpa using hlisting
    · exact hrefused

/-- A list with a bracketed element and a separator before its closing mark. -/
theorem requireListTokens_sample :
    let word (text : String) : Token := ⟨.identifier, text, ⟨0, 1⟩, ⟨0, 1⟩⟩
    let mark (text : String) : Token := ⟨.symbol, text, ⟨0, 1⟩, ⟨0, 1⟩⟩
    let form : ListForm := ⟨'(', ')', ',', true, "arguments"⟩
    let tokens := [mark "(", word "a", mark ",", mark "[[", word "b", mark ",", mark "]", mark "]",
      mark ",", mark ")", mark ";"]
    let r : Replay := ⟨tokens, [], ⟨.endOfFile, "", ⟨0, 1⟩, ⟨0, 1⟩⟩⟩
    form.closing ≠ form.separator ∧ r.endMark.isEnd = true ∧
      form.Listing [[word "a"], [mark "[[", word "b", mark ",", mark "]", mark "]"]]
        (tokens.take 10) ∧
      requireListTokens form (fun e => modifyUser fun x => (x.1 + e.length, x.2 ++ [e]))
          ⟨.replay r, .empty, (0, [])⟩
        = .ok () ⟨.replay ⟨[mark ";"], [], ⟨.endOfFile, "", ⟨0, 1⟩, ⟨0, 1⟩⟩⟩, .empty,
          (6, [[word "a"], [mark "[[", word "b", mark ",", mark "]", mark "]"]])⟩ := by
  intro word mark form tokens r
  have hform : form.closing ≠ form.separator := by decide
  have hplain : form.Element [word "a"] :=
    element_iff.mpr ⟨by decide, .cons rfl (fun _ => by decide) (by decide) .nil⟩
  have hnested : form.Element [mark "[[", word "b", mark ",", mark "]", mark "]"] :=
    element_iff.mpr ⟨by decide,
      @Passes.cons form [] [.square, .square] _ _ rfl (fun _ => by decide) (by decide) <|
      @Passes.cons form _ [.square, .square] _ _ rfl (fun h => by cases h) (by decide) <|
      @Passes.cons form _ [.square, .square] _ _ rfl (fun h => by cases h) (by decide) <|
      @Passes.cons form _ [.square] _ _ rfl (fun h => by cases h) (by decide) <|
      @Passes.cons form _ [] _ _ rfl (fun h => by cases h) (by decide) .nil⟩
  have hlisting : form.Listing [[word "a"], [mark "[[", word "b", mark ",", mark "]", mark "]"]]
      (tokens.take 10) :=
    .full (by decide) (.more hplain (by decide) (.trailing hnested (by decide) rfl (by decide)))
  exact ⟨hform, rfl, hlisting, ((requireListTokens_iff form hform r rfl .empty 0
    fun n e => n + e.length).1 10 _ (by decide)).mpr hlisting⟩

end Grammar.ListForm

end HeaderLex
