import HeaderLex.Proofs.Generations
import HeaderLex.Proofs.TokenLists

/-!
# Handles that outlive their list

Every release of a node changes its generation, so a copy of a handle that is kept over the release
of its list does not fit the nodes that it leads to, whatever became of them.  There are 2³²
generations and 2³² indices, and these are exactly the limits.

* `Shelf.timesReleased`          how often a row of operations releases a node;
* `Shelf.rounds`, `Shelf.singles`   rows that use up the generations, and the indices;
* `Shelf.ComesRound`             a node fits again;
* `stale_handles_caught_iff`     no use of a copy goes through after the release, unless it does;
* `stale_handles_accepted`       both limits can be reached.
-/

namespace HeaderLex

namespace Shelf

variable {s : Shelf} {i : Nat} {l : TokenList} {id : NodeId}

/-! ## counting releases -/

/-- How often an operation puts a node among the free ones. -/
def releases (s : Shelf) (op : ListOp) (k : UInt32) : Nat :=
  (s.apply op).state.arena.free.count k - s.arena.free.count k

/-- How often a row of operations puts a node among the free ones. -/
def timesReleased (s : Shelf) (k : UInt32) : List ListOp → Nat
  | [] => 0
  | op :: ops => s.releases op k + (s.apply op).state.timesReleased k ops

/-- What a release does to the arena, with or without success. -/
theorem ages_release (hl : s.list? i = some l) : ∃ freed : List UInt32,
    (s.apply (.release i)).state.arena.free = freed ++ s.arena.free ∧
    s.arena.Ages (s.apply (.release i)).state.arena freed ∧ freed.Nodup ∧
    ∀ id, l.head = some id → s.arena.isCurrent id = true → id.index ∈ freed := by
  rw [arena_release hl]
  obtain ⟨freed, hfree, hages, hnodup, -, hhead⟩ :=
    s.arena.ages_releaseChain (s.arena.nodes.size + 1) l.head
  exact ⟨freed, hfree, hages, hnodup, fun id hid => hhead id hid (Nat.succ_pos _)⟩

/-- A push takes a node at most from the free ones. -/
theorem releases_push (s : Shelf) (i : Nat) (t : Token) (k : UInt32) :
    s.releases (.push i t) k = 0 := by
  unfold releases
  cases hl : s.list? i with
  | none =>
    rw [apply_dead rfl hl]
    exact Nat.sub_self _
  | some l =>
    rw [arena_push hl]
    exact Nat.sub_eq_zero_of_le (s.arena.count_free_push_le l t k)

/-- Generations count the releases. -/
theorem ages_apply (s : Shelf) (op : ListOp) : ∃ freed : List UInt32,
    s.arena.Ages (s.apply op).state.arena freed ∧ ∀ k, s.releases op k = freed.count k := by
  have hsame : ∀ op, (s.apply op).state = s → ∃ freed : List UInt32,
      s.arena.Ages (s.apply op).state.arena freed ∧ ∀ k, s.releases op k = freed.count k := by
    intro op heq
    refine ⟨[], heq.symm ▸ .refl _, fun k => ?_⟩
    unfold releases
    rw [heq]
    exact Nat.sub_self _
  cases op with
  | borrow => exact ⟨[], .refl _, fun k => Nat.sub_self _⟩
  | push i t =>
    cases hl : s.list? i with
    | none => exact hsame _ (congrArg Outcome.state (apply_dead rfl hl))
    | some l =>
      exact ⟨[], arena_push hl t ▸ s.arena.ages_push l t, s.releases_push i t⟩
  | release i =>
    cases hl : s.list? i with
    | none => exact hsame _ (congrArg Outcome.state (apply_dead rfl hl))
    | some l =>
      obtain ⟨freed, hfree, hages, -⟩ := ages_release hl
      refine ⟨freed, hages, fun k => ?_⟩
      unfold releases
      rw [hfree, List.count_append]
      exact Nat.add_sub_cancel ..

theorem spent_apply {times : Nat} (h : s.arena.Spent id times) (op : ListOp) :
    (s.apply op).state.arena.Spent id (times + s.releases op id.index) := by
  obtain ⟨freed, hages, hcount⟩ := s.ages_apply op
  rw [hcount]
  exact h.ages hages

theorem spent_run {times : Nat} (h : s.arena.Spent id times) (ops : List ListOp) :
    (s.run ops).arena.Spent id (times + s.timesReleased id.index ops) := by
  induction ops generalizing s times with
  | nil => exact h
  | cons op ops ih =>
    rw [timesReleased, ← Nat.add_assoc]
    exact ih (spent_apply h op)

/-! ## the first node -/

/-- A handle has a first node exactly when it has a last one, and then it is not empty. -/
def Proper (l : TokenList) : Prop :=
  l.head.isSome = l.tail.isSome ∧ l.isEmpty = l.head.isNone

theorem Proper.push {a : Arena} {t : Token} {l' : TokenList} (h : Proper l)
    (hrun : (a.push l t).result = .ok l') :
    Proper l' ∧ ∀ id, l.head = some id → l'.head = some id := by
  obtain ⟨hends, -⟩ := h
  unfold Arena.push at hrun
  split at hrun
  · dsimp only at hrun
    split at hrun
    · next tail htail =>
      obtain rfl := Except.ok.inj hrun
      rw [htail] at hends
      refine ⟨⟨hends, ?_⟩, fun id hid => hid⟩
      obtain ⟨id, hid⟩ := Option.isSome_iff_exists.1 hends
      show (l.length + 1 == 0) = l.head.isNone
      rw [hid]
      rfl
    · next htail =>
      obtain rfl := Except.ok.inj hrun
      rw [htail] at hends
      refine ⟨⟨rfl, rfl⟩, fun id hid => ?_⟩
      rw [hid] at hends
      cases hends
  · cases hrun

theorem join_set {xs : List (Option TokenList)} {j : Nat} {x : Option TokenList}
    (h : xs[i]?.join = some l) : (xs.set i x)[j]?.join = if i = j then x else xs[j]?.join := by
  rw [List.getElem?_set]
  split
  · rw [if_pos (List.getElem?_eq_some_iff.1 (Option.join_eq_some_iff.1 h)).1, Option.join_some]
  · rfl

/-- What an operation does to the handles. -/
theorem lists_apply (s : Shelf) (op : ListOp) : (s.apply op).state.lists = s.lists ∨
    (op = .borrow ∧ (s.apply op).state.lists = s.lists ++ [some .empty]) ∨
    (∃ i t l l', op = .push i t ∧ s.list? i = some l ∧ (s.arena.push l t).result = .ok l' ∧
      (s.apply op).state.lists = s.lists.set i (some l')) ∨
    ∃ i l, op = .release i ∧ s.list? i = some l ∧
      (s.apply op).state.lists = s.lists.set i none := by
  cases op with
  | borrow => exact .inr (.inl ⟨rfl, rfl⟩)
  | push i t =>
    cases hl : s.list? i with
    | none => exact .inl (by rw [apply_dead rfl hl]; rfl)
    | some l =>
      cases hr : (s.arena.push l t).result with
      | ok l' => exact .inr (.inr (.inl ⟨i, t, l, l', rfl, hl, hr, by simp only [apply, hl, hr]⟩))
      | error f => exact .inl (by simp only [apply, hl, hr])
  | release i =>
    cases hl : s.list? i with
    | none => exact .inl (by rw [apply_dead rfl hl]; rfl)
    | some l =>
      cases hr : (s.arena.release l).result with
      | ok u => exact .inr (.inr (.inr ⟨i, l, rfl, hl, by simp only [apply, hl, hr]⟩))
      | error f => exact .inl (by simp only [apply, hl, hr])

theorem proper_apply (h : ∀ i l, s.list? i = some l → Proper l) (op : ListOp) :
    ∀ i l, (s.apply op).state.list? i = some l → Proper l := by
  intro i l hi
  unfold list? at hi
  obtain hs | ⟨-, hs⟩ | ⟨j, t, m, l', -, hm, hrun, hs⟩ | ⟨j, m, -, hm, hs⟩ := s.lists_apply op
  · rw [hs] at hi
    exact h i l hi
  · rw [hs] at hi
    obtain hlt | hge := Nat.lt_or_ge i s.lists.length
    · rw [List.getElem?_append_left hlt] at hi
      exact h i l hi
    · rw [List.getElem?_append_right hge, List.getElem?_singleton] at hi
      split at hi
      · obtain rfl := Option.some.inj hi
        exact ⟨rfl, rfl⟩
      · cases hi
  · rw [hs, join_set hm] at hi
    split at hi
    · obtain rfl := Option.some.inj hi
      exact ((h j m hm).push hrun).1
    · exact h i l hi
  · rw [hs, join_set hm] at hi
    split at hi
    · cases hi
    · exact h i l hi

theorem proper_run (h : ∀ i l, s.list? i = some l → Proper l) (ops : List ListOp) :
    ∀ i l, (s.run ops).list? i = some l → Proper l := by
  induction ops generalizing s with
  | nil => exact h
  | cons op ops ih => exact ih (proper_apply h op)

/-- A list keeps its first node until it is released. -/
theorem head_run (hl : s.list? i = some l) (hp : Proper l) (hid : l.head = some id)
    {ops : List ListOp} (hkeep : .release i ∉ ops) :
    ∃ l', (s.run ops).list? i = some l' ∧ l'.head = some id := by
  induction ops generalizing s l with
  | nil => exact ⟨l, hl, hid⟩
  | cons op ops ih =>
    rw [List.mem_cons, not_or] at hkeep
    suffices hnext : ∃ l', (s.apply op).state.list? i = some l' ∧ Proper l' ∧ l'.head = some id by
      obtain ⟨l', hl', hp', hid'⟩ := hnext
      exact ih hl' hp' hid' hkeep.2
    have hlt : i < s.lists.length :=
      (List.getElem?_eq_some_iff.1 (Option.join_eq_some_iff.1 hl)).1
    unfold list?
    obtain hs | ⟨-, hs⟩ | ⟨j, t, m, l', -, hm, hrun, hs⟩ | ⟨j, m, hop, hm, hs⟩ := s.lists_apply op
    · rw [hs]
      exact ⟨l, hl, hp, hid⟩
    · rw [hs, List.getElem?_append_left hlt]
      exact ⟨l, hl, hp, hid⟩
    · rw [hs, join_set hm]
      split
      · next heq =>
        obtain rfl : m = l := Option.some.inj ((heq ▸ hm).symm.trans hl)
        exact ⟨l', rfl, (hp.push hrun).1, (hp.push hrun).2 id hid⟩
      · exact ⟨l, hl, hp, hid⟩
    · rw [hs, join_set hm]
      split
      · next heq => exact absurd (heq ▸ hop).symm hkeep.1
      · exact ⟨l, hl, hp, hid⟩

/-- A release that goes through frees the first node, and frees it once. -/
theorem spent_release_head (hl : s.list? i = some l) (hid : l.head = some id)
    (hgone : (s.apply (.release i)).state.list? i = none) :
    (s.apply (.release i)).state.arena.Spent id 1 := by
  have hcurrent : s.arena.isCurrent id = true := by
    cases hr : (s.arena.release l).result with
    | ok u => exact Arena.isCurrent_of_release hid hr
    | error f =>
      -- a release that fails leaves the handle
      have hstays : (s.apply (.release i)).state.list? i = some l := by
        simp only [apply, hl, hr]
        exact hl
      rw [hstays] at hgone
      cases hgone
  obtain ⟨freed, -, hages, hnodup, hhead⟩ := ages_release hl
  have honce := List.count_eq_one_of_mem hnodup (hhead id hid hcurrent)
  have hspent := (Arena.spent_of_isCurrent hcurrent).ages hages
  rwa [honce] at hspent

/-! ## the last node -/

/-- As long as a list is held its nodes only become more. -/
theorem Turn.grows {kept kept' : List (Option Kept)} {op : ListOp} {e : Kept} (h : Turn kept op kept')
    (hi : kept[i]? = some (some e)) (hkeep : .release i ≠ op) :
    ∃ e', kept'[i]? = some (some e') ∧ e.nodes ⊆ e'.nodes := by
  by_cases htarget : op.target = some i
  · cases h with
    | borrow => cases htarget
    | push t handle last hj =>
      obtain rfl := Option.some.inj htarget
      obtain rfl := Option.some.inj (Option.some.inj (hj.symm.trans hi))
      exact ⟨_, List.getElem?_set_self (List.getElem?_eq_some_iff.1 hi).1,
        List.subset_append_left ..⟩
    | release => exact absurd (congrArg ListOp.release (Option.some.inj htarget).symm) hkeep
    | dead hj hnone =>
      obtain rfl := Option.some.inj (hj.symm.trans htarget)
      rw [hi] at hnone
      cases hnone
  · exact ⟨e, h.other htarget hi, List.Subset.refl _⟩

theorem Sound.grows {kept : List (Option Kept)} {e : Kept} (h : s.Sound kept)
    (hi : kept[i]? = some (some e)) {ops : List ListOp} (hkeep : .release i ∉ ops)
    (hsize : (s.run ops).arena.nodes.size ≤ UInt32.size) : ∃ kept' e', (s.run ops).Sound kept' ∧
      kept'[i]? = some (some e') ∧ e.nodes ⊆ e'.nodes := by
  induction ops generalizing s kept e with
  | nil => exact ⟨kept, e, h, hi, List.Subset.refl _⟩
  | cons op ops ih =>
    rw [List.mem_cons, not_or] at hkeep
    obtain ⟨s', kept', hrun, hturn, h'⟩ := h.apply (Nat.le_trans (size_run_le _ ops) hsize)
    obtain ⟨e', hi', hmore⟩ := hturn.grows hi hkeep.1
    have hstate : (s.apply op).state = s' := congrArg Outcome.state hrun
    have hrest : s.run (op :: ops) = s'.run ops := by
      rw [← hstate]
      rfl
    rw [hrest] at hsize ⊢
    obtain ⟨last, e'', hlast, hi'', hmore'⟩ := ih h' hi' hkeep.2 hsize
    exact ⟨last, e'', hlast, hi'', List.Subset.trans hmore hmore'⟩

/-- A sound list gives all its nodes back, each once. -/
theorem Sound.spent_release {kept : List (Option Kept)} {e : Kept} (h : s.Sound kept)
    (hi : kept[i]? = some (some e)) (hid : id ∈ e.nodes) :
    (s.apply (.release i)).state.arena.Spent id 1 := by
  obtain ⟨s', hrun, -, hfree⟩ := h.release hi
  obtain ⟨freed, hfree', hages, hnodup, -⟩ := ages_release (h.handle hi)
  have hstate : (s.apply (.release i)).state = s' := congrArg Outcome.state hrun
  rw [hstate, hfree] at hfree'
  have hmem : id.index ∈ freed := by
    rw [← List.append_cancel_right hfree']
    exact List.mem_reverse.2 (List.mem_map_of_mem hid)
  have hspent := (Arena.spent_of_isCurrent ((h.held hi).chain.isCurrent id hid)).ages hages
  rwa [List.count_eq_one_of_mem hnodup hmem] at hspent

/-- The last node of a copy was handed out at any time before, so the whole chain has to be sound: when
the list is released, the node is freed once. -/
theorem spent_release_tail {before middle : List ListOp} (hcopy : (fresh.run before).list? i = some l)
    (hid : l.tail = some id) (hkeep : .release i ∉ middle)
    (hsize : ((fresh.run before).run middle).arena.nodes.size ≤ UInt32.size) :
    (((fresh.run before).run middle).apply (.release i)).state.arena.Spent id 1 := by
  obtain ⟨kept, h, -⟩ := Sound.fresh.run before (Nat.le_trans (size_run_le _ middle) hsize)
  obtain ⟨e, he, rfl⟩ := h.kept_of_list? hcopy
  obtain ⟨kept', e', h', he', hmore⟩ := h.grows he hkeep hsize
  exact h'.spent_release he' (hmore (List.mem_of_getLast? ((h.held he).tail.symm.trans hid)))

/-! ## rows beyond the limits -/

theorem timesReleased_append (s : Shelf) (k : UInt32) (before after : List ListOp) :
    s.timesReleased k (before ++ after) =
      s.timesReleased k before + (s.run before).timesReleased k after := by
  induction before generalizing s with
  | nil => exact (Nat.zero_add _).symm
  | cons op before ih =>
    rw [List.cons_append, timesReleased, timesReleased, ih, Nat.add_assoc]
    rfl

theorem timesReleased_take (s : Shelf) (i : Nat) (t : Token) (k : UInt32) :
    s.timesReleased k [.borrow, .push i t] = 0 := by
  have hborrow : s.releases .borrow k = 0 := Nat.sub_self _
  rw [timesReleased, timesReleased, timesReleased, hborrow, releases_push]

/-- The handle of a list of one token. -/
def single (id : NodeId) : TokenList := ⟨some id, some id, 1⟩

/-- A new list takes a node. -/
theorem run_take (s : Shelf) (t : Token) : s.run [.borrow, .push s.lists.length t] =
    ⟨(s.arena.allocate t).2, s.lists ++ [some (single (s.arena.allocate t).1)]⟩ := by
  have hheld : Shelf.list? ⟨s.arena, s.lists ++ [some .empty]⟩ s.lists.length = some .empty := by
    unfold list?
    simp
  have hset : (s.lists ++ [some TokenList.empty]).set s.lists.length
      (some (single (s.arena.allocate t).1)) =
        s.lists ++ [some (single (s.arena.allocate t).1)] := by
    simp
  rw [← hset]
  exact congrArg Outcome.state (apply_push (t := t) hheld rfl)

/-! ### generations come round -/

/-- One node, which each of `n` lists had and gave back. -/
def spun (n : Nat) : Shelf := ⟨⟨#[⟨none, none, UInt32.ofNat n⟩], [0]⟩, List.replicate n none⟩

/-- Lists from number `1` on take a node and give it back, one after the other. -/
def rounds (t : Token) (n : Nat) : List ListOp :=
  (List.range n).flatMap fun k => [.borrow, .push (k + 1) t, .release (k + 1)]

theorem rounds_succ (t : Token) (n : Nat) : rounds t (n + 1) =
    rounds t n ++ ([.borrow, .push (n + 1) t] ++ [.release (n + 1)]) := by
  simp [rounds, List.range_succ]

theorem spun_take (n : Nat) (t : Token) : (spun n).run [.borrow, .push n t] =
    ⟨⟨#[⟨some t, none, UInt32.ofNat n⟩], []⟩,
      List.replicate n none ++ [some (single ⟨0, UInt32.ofNat n⟩)]⟩ := by
  have htake := (spun n).run_take t
  rw [show (spun n).lists.length = n from List.length_replicate] at htake
  exact htake

theorem spun_release (n : Nat) (t : Token) :
    (((spun n).run [.borrow, .push n t]).apply (.release n)).state = spun (n + 1) := by
  have hheld : Shelf.list? ⟨⟨#[⟨some t, none, UInt32.ofNat n⟩], []⟩,
      List.replicate n none ++ [some (single ⟨0, UInt32.ofNat n⟩)]⟩ n =
        some (single ⟨0, UInt32.ofNat n⟩) := by
    unfold list?
    simp
  have hrelease : Arena.release ⟨#[⟨some t, none, UInt32.ofNat n⟩], []⟩
      (single ⟨0, UInt32.ofNat n⟩) = .ok () ⟨#[⟨none, none, UInt32.ofNat (n + 1)⟩], [0]⟩ := by
    rw [UInt32.ofNat_add]
    exact if_pos (Arena.isCurrent_of_node? rfl)
  have hset : (List.replicate n none ++ [some (single ⟨0, UInt32.ofNat n⟩)]).set n none =
      List.replicate (n + 1) none := by
    simp [List.replicate_succ']
  rw [spun_take, apply_release hheld hrelease, hset]
  rfl

/-- Every round is one release of the node. -/
theorem run_rounds (t : Token) (n : Nat) : (spun 1).run (rounds t n) = spun (n + 1) ∧
    ∀ k, (spun 1).timesReleased k (rounds t n) ≤ n := by
  induction n with
  | zero => exact ⟨rfl, fun k => Nat.le_refl 0⟩
  | succ n ih =>
    obtain ⟨hrun, htimes⟩ := ih
    rw [rounds_succ]
    constructor
    · rw [run_append, hrun, run_append]
      exact spun_release (n + 1) t
    · intro k
      rw [timesReleased_append, timesReleased_append, hrun, timesReleased_take, Nat.zero_add]
      refine Nat.add_le_add (htimes k) ?_
      show releases _ _ k + 0 ≤ 1
      unfold releases
      rw [spun_release]
      exact Nat.le_trans (Nat.sub_le ..) List.count_le_length

/-! ### indices come round -/

/-- Nothing is free, and there are `n` nodes and `n` lists more than in `s`, all of which is still
there. -/
structure Filled (s s' : Shelf) (n : Nat) : Prop where
  full : s'.arena.free = []
  nodes : s'.arena.nodes.size = s.arena.nodes.size + n
  lists : s'.lists.length = s.lists.length + n
  node? : ∀ k x, s.arena.node? k = some x → s'.arena.node? k = some x
  list? : ∀ j l, s.list? j = some l → s'.list? j = some l

/-- Lists of one token each, from number `first` on. -/
def singles (t : Token) (first n : Nat) : List ListOp :=
  (List.range n).flatMap fun k => [.borrow, .push (first + k) t]

theorem filled_take (s : Shelf) (hfull : s.arena.free = []) (t : Token) :
    s.Filled (s.run [.borrow, .push s.lists.length t]) 1 := by
  rw [run_take]
  refine ⟨?_, ?_, ?_, fun k x hx => Arena.node?_allocate_full hfull t hx, fun j l hl => ?_⟩
  · rw [Arena.allocate_full hfull]
    exact hfull
  · rw [Arena.allocate_full hfull]
    exact Array.size_push _
  · exact List.length_append
  · unfold list? at hl ⊢
    rw [List.getElem?_append_left (List.getElem?_eq_some_iff.1 (Option.join_eq_some_iff.1 hl)).1, hl]

theorem filled_singles (s : Shelf) (hfull : s.arena.free = []) (t : Token) (n : Nat) :
    s.Filled (s.run (singles t s.lists.length n)) n := by
  induction n with
  | zero => exact ⟨hfull, rfl, rfl, fun _ _ h => h, fun _ _ h => h⟩
  | succ n ih =>
    have hsplit : singles t s.lists.length (n + 1) =
        singles t s.lists.length n ++ [.borrow, .push (s.lists.length + n) t] := by
      simp [singles, List.range_succ]
    have hlast := filled_take _ ih.full t
    rw [ih.lists] at hlast
    rw [hsplit, run_append]
    exact ⟨hlast.full, by rw [hlast.nodes, ih.nodes]; rfl, by rw [hlast.lists, ih.lists]; rfl,
      fun k x hx => hlast.node? k x (ih.node? k x hx), fun j l hl => hlast.list? j l (ih.list? j l hl)⟩

section

variable {t u v : Token}

/-- With 2³² nodes the next two get the indices of the first two.  A list that takes them is linked over
the first node of the arena. -/
theorem push_misled {a : Arena} (hfull : a.free = []) (hnodes : a.nodes.size = UInt32.size)
    (hfirst : a.node? 0 = some ⟨some t, some ⟨2, 0⟩, 0⟩) (hsecond : a.node? 1 = some ⟨some u, none, 0⟩)
    (hlast : a.node? 2 = some ⟨some v, none, 0⟩) (w : Token) : (a.allocate w).1 = ⟨0, 0⟩ ∧
    ∃ l a', (a.allocate w).2.push (single ⟨0, 0⟩) w = .ok l a' ∧
      a'.node? 0 = some ⟨some t, some ⟨1, 0⟩, 0⟩ ∧ a'.node? 1 = some ⟨some u, none, 0⟩ ∧
      a'.node? 2 = some ⟨some v, none, 0⟩ := by
  have hkeep := fun k n (hn : a.node? k = some n) => Arena.node?_allocate_full hfull w hn
  have hid : (a.allocate w).1 = ⟨0, 0⟩ := by
    rw [Arena.allocate_full hfull, hnodes]
    rfl
  have hfull' : (a.allocate w).2.free = [] := by
    rw [Arena.allocate_full hfull]
    exact hfull
  have hid' : ((a.allocate w).2.allocate w).1 = ⟨1, 0⟩ := by
    rw [Arena.allocate_full hfull', Arena.allocate_full hfull]
    show NodeId.mk (a.nodes.push _).size.toUInt32 0 = _
    rw [Array.size_push, hnodes]
    rfl
  have hkeep' := fun k n (hn : (a.allocate w).2.node? k = some n) =>
    Arena.node?_allocate_full hfull' w hn
  have hcurrent : (a.allocate w).2.isCurrent ⟨0, 0⟩ = true :=
    Arena.isCurrent_of_node? (hkeep 0 _ hfirst)
  refine ⟨hid, _, _, Arena.push_of_tail rfl hcurrent w, ?_, ?_, ?_⟩
  · rw [Arena.node?_setNode, if_pos rfl, hkeep' 0 _ (hkeep 0 _ hfirst), hid']
    rfl
  · rw [Arena.node?_setNode, if_neg (by decide), hkeep' 1 _ (hkeep 1 _ hsecond)]
  · rw [Arena.node?_setNode, if_neg (by decide), hkeep' 2 _ (hkeep 2 _ hlast)]

/-- The list that owns the first node then frees the second one, and not its own last one. -/
theorem release_misled {s : Shelf} (hfull : s.arena.free = [])
    (hnodes : s.arena.nodes.size = UInt32.size)
    (hfirst : s.arena.node? 0 = some ⟨some t, some ⟨2, 0⟩, 0⟩)
    (hsecond : s.arena.node? 1 = some ⟨some u, none, 0⟩)
    (hlast : s.arena.node? 2 = some ⟨some v, none, 0⟩)
    (hl : s.list? 0 = some ⟨some ⟨0, 0⟩, some ⟨2, 0⟩, 2⟩) (w : Token) :
    let s' := s.run ([.borrow, .push s.lists.length w] ++ [.push s.lists.length w] ++ [.release 0])
    s'.list? 0 = none ∧ s'.arena.isCurrent ⟨2, 0⟩ = true := by
  intro s'
  obtain ⟨hid, l, a, hpush, hfirst', hsecond', hlast'⟩ :=
    push_misled hfull hnodes hfirst hsecond hlast w
  have hpos : 0 < s.lists.length := (List.getElem?_eq_some_iff.1 (Option.join_eq_some_iff.1 hl)).1
  -- the new list takes its two nodes
  have htake := s.run_take w
  rw [hid] at htake
  have hheld : Shelf.list? ⟨(s.arena.allocate w).2, s.lists ++ [some (single ⟨0, 0⟩)]⟩
      s.lists.length = some (single ⟨0, 0⟩) := by
    unfold list?
    simp
  have happend := apply_push hheld hpush
  generalize hlists : (s.lists ++ [some (single ⟨0, 0⟩)]).set s.lists.length (some l) = lists at happend
  -- the first list is released over the second node of the arena
  have hlength : 0 < lists.length := by
    rw [← hlists, List.length_set, List.length_append]
    exact Nat.lt_add_right 1 hpos
  have hheld' : Shelf.list? ⟨a, lists⟩ 0 = some ⟨some ⟨0, 0⟩, some ⟨2, 0⟩, 2⟩ := by
    unfold list? at hl ⊢
    rw [← hlists, List.getElem?_set_ne (Nat.ne_of_gt hpos), List.getElem?_append_left hpos, hl]
  have hchain : a.Chain (some ⟨0, 0⟩) [⟨0, 0⟩, ⟨1, 0⟩] [t, u] :=
    .cons hfirst' (.cons hsecond' .nil)
  have hsteps : ([⟨0, 0⟩, ⟨1, 0⟩] : List NodeId).length ≤ a.nodes.size + 1 :=
    Nat.succ_le_succ (Nat.zero_lt_of_lt (Arena.lt_size_of_node? hlast'))
  obtain ⟨a', hrelease, -, -, hother⟩ := hchain.release (by decide) hsteps
  have hrun : s' = ⟨a', lists.set 0 none⟩ := by
    show s.run _ = _
    rw [run_append, run_append, htake]
    show ((Shelf.apply (Shelf.apply _ _).state _).state) = _
    rw [happend]
    exact congrArg Outcome.state (apply_release hheld' hrelease)
  rw [hrun]
  constructor
  · unfold list?
    rw [List.getElem?_set_self hlength]
    rfl
  · exact Arena.isCurrent_of_node? ((hother 2 (by decide)).trans hlast')

end

/-- The state in which the generation of the only node has come round. -/
theorem run_round (t u v : Token) {n : Nat} (hn : n + 1 = UInt32.size) :
    (fresh.run ([.borrow, .push 0 t] ++ [.release 0])).run
        (rounds u n ++ [.borrow, .push UInt32.size v]) =
      ⟨⟨#[⟨some v, none, 0⟩], []⟩, List.replicate UInt32.size none ++ [some (single ⟨0, 0⟩)]⟩ := by
  have hstart : fresh.run ([.borrow, .push 0 t] ++ [.release 0]) = spun 1 := rfl
  rw [hstart, run_append, (run_rounds u n).1, hn, spun_take]
  rfl

theorem timesReleased_round (t u v : Token) {n : Nat} (hn : n + 1 = UInt32.size) (k : UInt32) :
    (fresh.run ([.borrow, .push 0 t] ++ [.release 0])).timesReleased k
      (rounds u n ++ [.borrow, .push UInt32.size v]) < UInt32.size := by
  have hstart : fresh.run ([.borrow, .push 0 t] ++ [.release 0]) = spun 1 := rfl
  rw [hstart, timesReleased_append, timesReleased_take, ← hn]
  exact Nat.lt_succ_of_le ((run_rounds u n).2 k)

/-- A row after which a list was released and its last node is still current. -/
theorem run_misled (t u v w : Token) {n : Nat} (hn : 3 + n = UInt32.size) :
    let before : List ListOp := [.borrow, .borrow, .push 0 t, .push 1 u, .push 0 v]
    let middle := singles w 2 n ++ ([.borrow, .push (2 + n) w] ++ [.push (2 + n) w])
    let s := fresh.run (before ++ middle ++ [.release 0])
    s.list? 0 = none ∧ s.arena.isCurrent ⟨2, 0⟩ = true := by
  intro before middle s
  let start : Shelf := ⟨⟨#[⟨some t, some ⟨2, 0⟩, 0⟩, ⟨some u, none, 0⟩, ⟨some v, none, 0⟩], []⟩,
    [some ⟨some ⟨0, 0⟩, some ⟨2, 0⟩, 2⟩, some (single ⟨1, 0⟩)]⟩
  have h : start.Filled (start.run (singles w 2 n)) n := start.filled_singles rfl w n
  have hlists : (start.run (singles w 2 n)).lists.length = 2 + n := h.lists
  have hnodes : (start.run (singles w 2 n)).arena.nodes.size = 3 + n := h.nodes
  have hrun : s = (start.run (singles w 2 n)).run
      ([.borrow, .push (2 + n) w] ++ [.push (2 + n) w] ++ [.release 0]) := by
    show fresh.run _ = _
    rw [List.append_assoc, List.append_assoc, run_append, run_append]
    rfl
  have hend := release_misled h.full (hnodes.trans hn) (h.node? 0 _ rfl) (h.node? 1 _ rfl)
    (h.node? 2 _ rfl) (h.list? 0 _ rfl) w
  rw [hlists] at hend
  rw [hrun]
  exact hend

/-! ## copies of a handle -/

/-- The node of a list that was released is in use again when it has been released so often that
generations have come round to that of the list: its own release, and 2³² - 1 in `rest`. -/
def ComesRound (s : Shelf) (rest : List ListOp) (id : NodeId) : Prop :=
  s.timesReleased id.index rest + 1 = UInt32.size ∧ (s.run rest).arena.inUse id.index = true

/-- A node that was released once, and fewer than 2³² times since. -/
theorem isCurrent_iff_comesRound (h : s.arena.Spent id 1) {rest : List ListOp}
    (hfew : s.timesReleased id.index rest < UInt32.size) :
    (s.run rest).arena.isCurrent id = false ↔ ¬ s.ComesRound rest id := by
  have hround : (1 + s.timesReleased id.index rest) % UInt32.size = 0 ↔
      s.timesReleased id.index rest + 1 = UInt32.size := by
    unfold UInt32.size at hfew ⊢
    omega
  rw [← Bool.not_eq_true, (spent_run h rest).isCurrent_iff, hround]
  rfl

/-- A copy of the handle of a list is kept when the list is released.  Whatever is done with all lists
before and after, as long as the nodes at the ends of the copy are released fewer than 2³² times since,
a use of the copy is refused and changes nothing, unless the node that it looks at has come round.  The
last node is that of the list only if the indices of the nodes suffice. -/
theorem stale_handles_caught_iff (before middle rest : List ListOp) (i : Nat) (copy : TokenList)
    (hcopy : (fresh.run before).list? i = some copy) (hempty : copy.isEmpty = false)
    (hkeep : .release i ∉ middle)
    (hgone : (fresh.run (before ++ middle ++ [.release i])).list? i = none)
    (hfew : ∀ id, copy.head = some id ∨ copy.tail = some id →
      (fresh.run (before ++ middle ++ [.release i])).timesReleased id.index rest < UInt32.size) :
    let s := fresh.run (before ++ middle ++ [.release i])
    let a := (s.run rest).arena
    ∃ head tail, copy.head = some head ∧ copy.tail = some tail ∧
      (a.tokens copy = .misuse .staleTokenList a ↔ ¬ s.ComesRound rest head) ∧
      (a.join copy = .misuse .staleTokenList a ↔ ¬ s.ComesRound rest head) ∧
      (a.release copy = .misuse .staleTokenList a ↔ ¬ s.ComesRound rest head) ∧
      (a.nodes.size ≤ UInt32.size → ∀ t,
        (a.push copy t = .misuse .staleTokenList a ↔ ¬ s.ComesRound rest tail)) := by
  intro s a
  have hproper : Proper copy :=
    proper_run (s := fresh) (fun j l hl => by cases j <;> cases hl) before i copy hcopy
  obtain ⟨head, hhead⟩ : ∃ head, copy.head = some head := by
    rw [← Option.isSome_iff_exists, ← Option.not_isNone, ← hproper.2, hempty]
    rfl
  obtain ⟨tail, htail⟩ : ∃ tail, copy.tail = some tail := by
    rw [← Option.isSome_iff_exists, ← hproper.1, hhead]
    rfl
  have hrun : s = (((fresh.run before).run middle).apply (.release i)).state := by
    show fresh.run _ = _
    rw [run_append, run_append]
    rfl
  have hspent : s.arena.Spent head 1 := by
    obtain ⟨l, hl, hid⟩ := head_run hcopy hproper hhead hkeep
    rw [hrun]
    exact spent_release_head hl hid (hrun ▸ hgone)
  obtain ⟨htokens, hjoin, hrelease⟩ := a.refused_iff_head hhead
  have hfirst := isCurrent_iff_comesRound hspent (hfew head (.inl hhead))
  refine ⟨head, tail, hhead, htail, htokens.trans hfirst, hjoin.trans hfirst, hrelease.trans hfirst,
    fun hsize t => ?_⟩
  have hless : ((fresh.run before).run middle).arena.nodes.size ≤ UInt32.size := by
    refine Nat.le_trans (Nat.le_trans (size_apply _ (.release i)).1 ?_) hsize
    rw [← hrun]
    exact s.size_run_le rest
  have hspent' : s.arena.Spent tail 1 := by
    rw [hrun]
    exact spent_release_tail hcopy htail hkeep hless
  exact (Arena.refused_iff_tail htail t).trans
    (isCurrent_iff_comesRound hspent' (hfew tail (.inr htail)))

/-- A copy is taken after two tokens, and its nodes go into two other lists. -/
theorem stale_handles_caught_iff_sample :
    let word (text : String) : Token := ⟨.identifier, text, ⟨0, 1⟩, ⟨0, 1⟩⟩
    let before : List ListOp := [.borrow, .push 0 (word "A"), .push 0 (word "B")]
    let middle : List ListOp := [.push 0 (word "C")]
    let rest : List ListOp := [.borrow, .push 1 (word "D"), .push 1 (word "E"), .push 1 (word "F"),
      .release 1, .borrow, .push 2 (word "G"), .push 2 (word "H"), .push 2 (word "I")]
    let copy : TokenList := ⟨some ⟨0, 0⟩, some ⟨1, 0⟩, 2⟩
    let s := fresh.run (before ++ middle ++ [.release 0])
    let a := (s.run rest).arena
    (fresh.run before).list? 0 = some copy ∧ s.list? 0 = none ∧ s.timesReleased 0 rest = 1 ∧
      a.nodes.size = 3 ∧ a.liveCount = 3 ∧ a.tokens copy = .misuse .staleTokenList a ∧
      a.push copy (word "J") = .misuse .staleTokenList a := by
  intro word before middle rest copy s a
  have hcopy : (fresh.run before).list? 0 = some copy := by decide +kernel
  have hgone : s.list? 0 = none := by decide +kernel
  have hfirst : s.timesReleased 0 rest = 1 := by decide +kernel
  have hlast : s.timesReleased 1 rest = 1 := by decide +kernel
  have hless : (1 : Nat) + 1 < UInt32.size := by decide
  have hnot : ∀ id : NodeId, id.index = 0 ∨ id.index = 1 →
      s.timesReleased id.index rest + 1 < UInt32.size := by
    rintro id (hid | hid)
    · rwa [hid, hfirst]
    · rwa [hid, hlast]
  have hends : ∀ id, copy.head = some id ∨ copy.tail = some id → id.index = 0 ∨ id.index = 1 := by
    rintro id (hid | hid)
    · exact .inl (congrArg NodeId.index (Option.some.inj hid).symm)
    · exact .inr (congrArg NodeId.index (Option.some.inj hid).symm)
  obtain ⟨head, tail, hhead, htail, htokens, -, -, hpush⟩ :=
    stale_handles_caught_iff before middle rest 0 copy hcopy (by decide) (by decide) hgone
      fun id hid => Nat.lt_of_succ_lt (hnot id (hends id hid))
  have hread : a.tokens copy = .misuse .staleTokenList a :=
    htokens.2 fun h => Nat.ne_of_lt (hnot head (hends head (.inl hhead))) h.1
  have happended : a.push copy (word "J") = .misuse .staleTokenList a :=
    (hpush (by decide +kernel) _).2 fun h => Nat.ne_of_lt (hnot tail (hends tail (.inr htail))) h.1
  exact ⟨hcopy, hgone, hfirst, by decide +kernel, by decide +kernel, hread, happended⟩

/-- Beyond the limits copies are accepted.  A node that is released 2³² times in all, the first time
with the list of the copy and fewer than 2³² times since, has the generation of the copy again: the copy
reads a list that is not its own, and releases it.  And with more than 2³² nodes a list can be released
without its last node, so that the copy still appends. -/
theorem stale_handles_accepted :
    let word (text : String) : Token := ⟨.identifier, text, ⟨0, 1⟩, ⟨0, 1⟩⟩
    (let before : List ListOp := [.borrow, .push 0 (word "A")]
      let rest := rounds (word "B") (UInt32.size - 1) ++ [.borrow, .push UInt32.size (word "C")]
      let copy : TokenList := ⟨some ⟨0, 0⟩, some ⟨0, 0⟩, 1⟩
      let released := fresh.run (before ++ [.release 0])
      let s := released.run rest
      (fresh.run before).list? 0 = some copy ∧ released.list? 0 = none ∧
        (∀ k, released.timesReleased k rest < UInt32.size) ∧ s.arena.nodes.size = 1 ∧
        s.arena.tokens copy = .ok [word "C"] s.arena ∧
        (∃ l a, s.arena.push copy (word "D") = .ok l a) ∧
        ∃ a, s.arena.release copy = .ok () a ∧ s.list? UInt32.size = some copy ∧
          a.tokens copy = .misuse .staleTokenList a) ∧
    (let before : List ListOp :=
        [.borrow, .borrow, .push 0 (word "A"), .push 1 (word "B"), .push 0 (word "C")]
      let middle := singles (word "D") 2 (UInt32.size - 3) ++
        ([.borrow, .push (UInt32.size - 1) (word "D")] ++ [.push (UInt32.size - 1) (word "D")])
      let copy : TokenList := ⟨some ⟨0, 0⟩, some ⟨2, 0⟩, 2⟩
      let released := fresh.run (before ++ middle ++ [.release 0])
      (fresh.run before).list? 0 = some copy ∧ .release 0 ∉ middle ∧ released.list? 0 = none ∧
        ∃ l a, released.arena.push copy (word "E") = .ok l a) := by
  intro word
  constructor
  · intro before rest copy released s
    have hrun : s = ⟨⟨#[⟨some (word "C"), none, 0⟩], []⟩,
        List.replicate UInt32.size none ++ [some (single ⟨0, 0⟩)]⟩ := run_round _ _ _ rfl
    have hheld : s.list? UInt32.size = some copy := by
      rw [hrun]
      unfold list?
      rw [List.getElem?_append_right (Nat.le_of_eq List.length_replicate), List.length_replicate,
        Nat.sub_self]
      rfl
    refine ⟨rfl, rfl, timesReleased_round _ _ _ rfl, ?_, ?_, ?_, ?_⟩
    · rw [hrun]
      rfl
    · rw [hrun]
      rfl
    · rw [hrun]
      exact ⟨_, _, rfl⟩
    · rw [hheld, hrun]
      exact ⟨⟨#[⟨none, none, 1⟩], [0]⟩, rfl, rfl, rfl⟩
  · intro before middle copy released
    obtain ⟨hgone, hcurrent⟩ := run_misled (word "A") (word "B") (word "C") (word "D")
      (n := UInt32.size - 3) rfl
    refine ⟨rfl, ?_, hgone, _, _, Arena.push_of_tail rfl hcurrent (word "E")⟩
    simp [middle, singles]

end Shelf

end HeaderLex
