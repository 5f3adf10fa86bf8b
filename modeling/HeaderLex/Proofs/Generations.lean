import HeaderLex.Proofs.Chains
import Mathlib.Data.List.Nodup

/-!
# Generations of nodes

The generation of a node is the number of its releases, in 32 bits.  A handle that was kept over some
releases of a node fits it again exactly after 2³² of them, when the node is in use.

* `Arena.Ages`                    from one arena to another, generations grow with the releases;
* `Arena.ages_releaseChain`       what a release frees, each node once;
* `Arena.Spent`                   a node that was released some times since it was handed out;
* `Arena.refused_iff_head`, ...   when a handle is refused.
-/

namespace HeaderLex

namespace Arena

variable {a b c : Arena}

/-! ## counting releases -/

/-- From `a` to `b` the generation of every node grows by one for each time that it is in `freed`. -/
def Ages (a b : Arena) (freed : List UInt32) : Prop :=
  ∀ k n, a.node? k = some n →
    ∃ m, b.node? k = some m ∧ m.generation = n.generation + UInt32.ofNat (freed.count k)

theorem Ages.refl (a : Arena) : Ages a a [] := fun _ n hn =>
  ⟨n, hn, (UInt32.add_zero n.generation).symm⟩

theorem Ages.trans {freed later : List UInt32} (h : Ages a b freed) (h' : Ages b c later) :
    Ages a c (later ++ freed) := by
  intro k n hn
  obtain ⟨m, hm, hgen⟩ := h k n hn
  obtain ⟨m', hm', hgen'⟩ := h' k m hm
  refine ⟨m', hm', ?_⟩
  rw [hgen', hgen, List.count_append, Nat.add_comm, UInt32.ofNat_add, UInt32.add_assoc]

/-- A change of a node that is no release. -/
theorem ages_setNode (a : Arena) (index : UInt32) {f : Node → Node}
    (hf : ∀ n, (f n).generation = n.generation) : Ages a (a.setNode index f) [] := by
  intro k n hn
  rw [node?_setNode, hn]
  split
  · exact ⟨f n, rfl, (hf n).trans (UInt32.add_zero n.generation).symm⟩
  · exact ⟨n, rfl, (UInt32.add_zero n.generation).symm⟩

theorem ages_freeNode (a : Arena) (index : UInt32) : Ages a (a.freeNode index) [index] := by
  intro k n hn
  show ∃ m, (a.setNode index _).node? k = some m ∧ _
  rw [node?_setNode, hn, List.count_singleton]
  split
  · next heq =>
    subst heq
    rw [beq_self_eq_true, if_pos rfl]
    exact ⟨_, rfl, rfl⟩
  · next hne =>
    rw [beq_false_of_ne hne, if_neg Bool.false_ne_true]
    exact ⟨n, rfl, (UInt32.add_zero n.generation).symm⟩

theorem ages_allocate (a : Arena) (t : Token) : Ages a (a.allocate t).2 [] := by
  unfold allocate
  split
  · next index free _ =>
    exact ages_setNode { a with free := free } index fun _ => rfl
  · intro k n hn
    refine ⟨n, ?_, (UInt32.add_zero n.generation).symm⟩
    have hlt := lt_size_of_node? hn
    unfold node? at hn ⊢
    dsimp only
    rw [Array.getElem?_push, if_neg (Nat.ne_of_lt hlt), hn]

/-- Appending a token releases nothing. -/
theorem ages_push (a : Arena) (l : TokenList) (t : Token) : Ages a (a.push l t).state [] := by
  unfold Arena.push
  split
  · dsimp only
    split
    · next tail _ =>
      have hlink : Ages (a.allocate t).2 ((a.allocate t).2.setNode tail.index fun n =>
          { n with next := some (a.allocate t).1 }) [] := ages_setNode _ _ fun _ => rfl
      -- the releases add up to `[] ++ []`, which an expected type would hide
      have hboth := (ages_allocate a t).trans hlink
      exact hboth
    · exact ages_allocate a t
  · exact .refl a

theorem count_free_push_le (a : Arena) (l : TokenList) (t : Token) (k : UInt32) :
    (a.push l t).state.free.count k ≤ a.free.count k := by
  have hallocate : (a.allocate t).2.free.count k ≤ a.free.count k := by
    unfold allocate
    split
    · next index free hfree =>
      rw [hfree]
      exact List.count_le_count_cons
    · exact Nat.le_refl _
  unfold Arena.push
  split
  · dsimp only
    split <;> exact hallocate
  · exact Nat.le_refl _

/-- The node holds a token. -/
def inUse (a : Arena) (k : UInt32) : Bool := (a.node? k).any fun n => n.token.isSome

theorem inUse_of_isCurrent {id : NodeId} (h : a.isCurrent id = true) : a.inUse id.index = true := by
  rw [isCurrent_eq, Option.any_eq_true] at h
  obtain ⟨n, hn, hcurrent⟩ := h
  exact (Option.any_eq_true ..).2 ⟨n, hn, (Bool.and_eq_true_iff.1 hcurrent).2⟩

theorem inUse_freeNode (a : Arena) (index k : UInt32) :
    (a.freeNode index).inUse k = (a.inUse k && !index == k) := by
  show Option.any _ ((a.setNode index _).node? k) = _
  rw [node?_setNode]
  unfold inUse
  split
  · next heq =>
    subst heq
    cases a.node? index <;> simp
  · next hne => simp [hne]

/-- Releasing a chain releases the nodes that it frees, with or without success.  They held tokens, so
none is freed twice, and the first one is among them if it was current. -/
theorem ages_releaseChain (a : Arena) (steps : Nat) (head : Option NodeId) : ∃ freed,
    (a.releaseChain steps head).state.free = freed ++ a.free ∧
    Ages a (a.releaseChain steps head).state freed ∧ freed.Nodup ∧
    (∀ k ∈ freed, a.inUse k = true) ∧
    ∀ id, head = some id → 0 < steps → a.isCurrent id = true → id.index ∈ freed := by
  fun_induction releaseChain a steps head with
  | case1 a head =>
    exact ⟨[], rfl, .refl a, .nil, fun _ h => absurd h List.not_mem_nil,
      fun id _ h => absurd h (Nat.lt_irrefl 0)⟩
  | case2 a steps =>
    exact ⟨[], rfl, .refl a, .nil, fun _ h => absurd h List.not_mem_nil, fun id h => by cases h⟩
  | case3 a steps id hcurrent next ih =>
    obtain ⟨freed, hfree, hages, hnodup, hused, -⟩ := ih
    have hbefore : ∀ k ∈ freed, a.inUse k = true ∧ id.index ≠ k := by
      intro k hk
      have hk := hused k hk
      rw [inUse_freeNode, Bool.and_eq_true] at hk
      exact ⟨hk.1, by simpa using hk.2⟩
    refine ⟨freed ++ [id.index], ?_, (ages_freeNode a id.index).trans hages, ?_, ?_, ?_⟩
    · rw [hfree, List.append_assoc]
      rfl
    · exact List.nodup_append.2 ⟨hnodup, List.pairwise_singleton .., fun k hk m hm =>
        List.mem_singleton.1 hm ▸ (hbefore k hk).2.symm⟩
    · intro k hk
      obtain hk | hk := List.mem_append.1 hk
      · exact (hbefore k hk).1
      · obtain rfl := List.mem_singleton.1 hk
        exact inUse_of_isCurrent hcurrent
    · rintro k ⟨⟩ - -
      exact List.mem_append_right _ (List.mem_singleton.2 rfl)
  | case4 a steps id hcurrent =>
    refine ⟨[], rfl, .refl a, .nil, fun _ h => absurd h List.not_mem_nil, ?_⟩
    rintro k ⟨⟩ - h
    exact absurd h hcurrent

/-- A release begins with a check. -/
theorem isCurrent_of_release {l : TokenList} {id : NodeId} (hid : l.head = some id)
    (hrun : (a.release l).result = .ok ()) : a.isCurrent id = true := by
  unfold Arena.release releaseChain at hrun
  rw [hid] at hrun
  dsimp only at hrun
  split at hrun
  · assumption
  · cases hrun

/-! ## nodes that were released -/

/-- The node was released so many times since `id` was handed out. -/
def Spent (a : Arena) (id : NodeId) (times : Nat) : Prop :=
  ∃ n, a.node? id.index = some n ∧ n.generation = id.generation + UInt32.ofNat times

theorem Spent.ages {id : NodeId} {times : Nat} {freed : List UInt32} (h : a.Spent id times)
    (hages : Ages a b freed) : b.Spent id (times + freed.count id.index) := by
  obtain ⟨n, hn, hgen⟩ := h
  obtain ⟨m, hm, hgen'⟩ := hages id.index n hn
  refine ⟨m, hm, ?_⟩
  rw [hgen', hgen, UInt32.ofNat_add, UInt32.add_assoc]

theorem spent_of_isCurrent {id : NodeId} (h : a.isCurrent id = true) : a.Spent id 0 := by
  unfold isCurrent at h
  split at h
  · next n hn =>
    rw [Bool.and_eq_true, beq_iff_eq] at h
    exact ⟨n, hn, h.1.trans (UInt32.add_zero _).symm⟩
  · cases h

/-- Generations come round: a handle fits again exactly after a multiple of 2³² releases, when the node
holds a token. -/
theorem Spent.isCurrent_iff {id : NodeId} {times : Nat} (h : a.Spent id times) :
    a.isCurrent id = true ↔ times % UInt32.size = 0 ∧ a.inUse id.index = true := by
  obtain ⟨n, hn, hgen⟩ := h
  have hround : n.generation = id.generation ↔ times % UInt32.size = 0 := by
    rw [hgen, ← UInt32.toNat_inj, UInt32.toNat_add, UInt32.toNat_ofNat']
    have hlt := id.generation.toNat_lt
    unfold UInt32.size
    omega
  unfold inUse
  rw [isCurrent_eq, hn, Option.any_some, Option.any_some, Bool.and_eq_true, beq_iff_eq, hround]

/-- Reading a list and releasing it are refused exactly when its first node is not current. -/
theorem refused_iff_head {l : TokenList} {id : NodeId} (hid : l.head = some id) :
    (a.tokens l = .misuse .staleTokenList a ↔ a.isCurrent id = false) ∧
      (a.join l = .misuse .staleTokenList a ↔ a.isCurrent id = false) ∧
      (a.release l = .misuse .staleTokenList a ↔ a.isCurrent id = false) := by
  cases hcurrent : a.isCurrent id with
  | false =>
    have htokens : a.tokens l = .misuse .staleTokenList a := by
      unfold Arena.tokens
      rw [hid]
      exact if_neg (by rw [show a.admits (some id) = false from hcurrent]; exact Bool.false_ne_true)
    refine ⟨iff_of_true htokens rfl, iff_of_true ?_ rfl, iff_of_true ?_ rfl⟩
    · unfold Arena.join
      rw [htokens]
      rfl
    · unfold Arena.release releaseChain
      rw [hid]
      exact if_neg (by rw [hcurrent]; exact Bool.false_ne_true)
  | true =>
    have htokens : a.tokens l = .ok (a.chain a.nodes.size l.head) a := by
      unfold Arena.tokens
      rw [if_pos (by rw [hid]; exact hcurrent)]
    refine ⟨iff_of_false ?_ Bool.noConfusion, iff_of_false ?_ Bool.noConfusion,
      iff_of_false (fun hrun => ?_) Bool.noConfusion⟩
    · rw [htokens]
      rintro ⟨⟩
    · unfold Arena.join
      rw [htokens]
      rintro ⟨⟩
    · -- the first node is freed whatever comes behind it
      obtain ⟨freed, hfree, -, -, -, hfirst⟩ := a.ages_releaseChain (a.nodes.size + 1) l.head
      have hmem := hfirst id hid (Nat.succ_pos _) hcurrent
      have hsame : (a.releaseChain (a.nodes.size + 1) l.head).state.free = a.free :=
        congrArg (fun o : Outcome Arena Unit => o.state.free) hrun
      rw [hsame] at hfree
      rw [List.self_eq_append_left.1 hfree] at hmem
      cases hmem

theorem push_of_tail {l : TokenList} {id : NodeId} (hid : l.tail = some id)
    (hcurrent : a.isCurrent id = true) (t : Token) : a.push l t =
      .ok ⟨l.head, some (a.allocate t).1, l.length + 1⟩
        ((a.allocate t).2.setNode id.index fun n => { n with next := some (a.allocate t).1 }) := by
  unfold Arena.push
  rw [if_pos (by rw [hid]; exact hcurrent), hid]

/-- Appending to a list is refused exactly when its last node is not current. -/
theorem refused_iff_tail {l : TokenList} {id : NodeId} (hid : l.tail = some id) (t : Token) :
    a.push l t = .misuse .staleTokenList a ↔ a.isCurrent id = false := by
  cases hcurrent : a.isCurrent id with
  | false =>
    refine iff_of_true ?_ rfl
    unfold Arena.push
    exact if_neg (by
      rw [hid, show a.admits (some id) = false from hcurrent]
      exact Bool.false_ne_true)
  | true =>
    rw [push_of_tail hid hcurrent]
    exact iff_of_false (fun h => by cases h) Bool.noConfusion

end Arena

end HeaderLex
