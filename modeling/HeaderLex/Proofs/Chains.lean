import HeaderLex.Arena

/-!
# Chains of an arena

A list that is held owns a chain of nodes.  The chains of all lists and the free nodes are all nodes
of the arena, each once.  An operation on one list changes its own nodes and free ones, so it keeps
every other chain.

* `Arena.Chain`, `Arena.Holds`     the nodes and the tokens behind a handle;
* `Arena.Partition`                every node belongs to one list or is free;
* `Holds.push`, `Holds.release`    what the operations on one list do;
* `Holds.frame`                    what they leave alone.
-/

namespace HeaderLex

/-- The place of a node among all nodes. -/
def NodeId.place (id : NodeId) : Nat := id.index.toNat

namespace Arena

variable {a a' : Arena}

/-! ## single nodes -/

@[simp] theorem node?_setNode (a : Arena) (index k : UInt32) (f : Node → Node) :
    (a.setNode index f).node? k = if index = k then (a.node? k).map f else a.node? k := by
  unfold setNode node?
  dsimp only
  rw [Array.getElem?_modify]
  simp only [UInt32.toNat_inj]

@[simp] theorem size_setNode (a : Arena) (index : UInt32) (f : Node → Node) :
    (a.setNode index f).nodes.size = a.nodes.size :=
  Array.size_modify

@[simp] theorem free_setNode (a : Arena) (index : UInt32) (f : Node → Node) :
    (a.setNode index f).free = a.free := rfl

theorem lt_size_of_node? {k : UInt32} {n : Node} (h : a.node? k = some n) :
    k.toNat < a.nodes.size :=
  (Array.getElem?_eq_some_iff.1 h).1

theorem node?_of_lt {k : UInt32} (h : k.toNat < a.nodes.size) : ∃ n, a.node? k = some n :=
  ⟨_, Array.getElem?_eq_getElem h⟩

theorem isCurrent_eq (a : Arena) (id : NodeId) : a.isCurrent id =
    (a.node? id.index).any fun n => n.generation == id.generation && n.token.isSome := by
  unfold isCurrent
  cases a.node? id.index <;> rfl

theorem isCurrent_of_node? {id : NodeId} {t : Token} {next : Option NodeId}
    (hn : a.node? id.index = some ⟨some t, next, id.generation⟩) : a.isCurrent id = true := by
  rw [isCurrent_eq, hn]
  exact Bool.and_eq_true_iff.2 ⟨beq_self_eq_true _, rfl⟩

/-! ## chains -/

/-- From the node `head` on, the nodes `ids` are linked, and they hold the tokens `ts`. -/
inductive Chain (a : Arena) : Option NodeId → List NodeId → List Token → Prop
  | nil : Chain a none [] []
  | cons {id : NodeId} {next : Option NodeId} {t : Token} {ids : List NodeId} {ts : List Token} :
      a.node? id.index = some ⟨some t, next, id.generation⟩ → Chain a next ids ts →
      Chain a (some id) (id :: ids) (t :: ts)

/-- The handle leads over the nodes `ids` with the tokens `ts`. -/
structure Holds (a : Arena) (l : TokenList) (ids : List NodeId) (ts : List Token) : Prop where
  chain : a.Chain l.head ids ts
  tail : l.tail = ids.getLast?
  length : l.length = ts.length

/-- The nodes `ids` and the free ones are all nodes, each once. -/
def Partition (a : Arena) (ids : List NodeId) : Prop :=
  (ids.map NodeId.place ++ a.free.map UInt32.toNat).Perm (List.range a.nodes.size)

namespace Chain

variable {head : Option NodeId} {ids : List NodeId} {ts : List Token}

/-- The tokens lie in the nodes. -/
theorem node (h : a.Chain head ids ts) :
    ∀ id ∈ ids, ∃ t next, a.node? id.index = some ⟨some t, next, id.generation⟩ := by
  induction h with
  | nil => simp
  | @cons id next t ids ts hn _ ih =>
    intro k hk
    obtain rfl | hk := List.mem_cons.1 hk
    · exact ⟨t, next, hn⟩
    · exact ih k hk

theorem head_eq (h : a.Chain head ids ts) : head = ids.head? := by
  cases h <;> rfl

theorem length_eq (h : a.Chain head ids ts) : ids.length = ts.length := by
  induction h with
  | nil => rfl
  | cons _ _ ih => rw [List.length_cons, List.length_cons, ih]

/-- A chain depends on its own nodes only. -/
theorem frame (h : a.Chain head ids ts) (hsame : ∀ id ∈ ids, a'.node? id.index = a.node? id.index) :
    a'.Chain head ids ts := by
  induction h with
  | nil => exact .nil
  | @cons id next t ids ts hn _ ih =>
    refine .cons ?_ (ih fun k hk => hsame k (List.mem_cons_of_mem _ hk))
    rw [hsame id List.mem_cons_self, hn]

/-- Every node of a chain is current. -/
theorem isCurrent (h : a.Chain head ids ts) : ∀ id ∈ ids, a.isCurrent id = true := by
  intro id hid
  obtain ⟨t, next, hn⟩ := h.node id hid
  exact isCurrent_of_node? hn

theorem admits_head (h : a.Chain head ids ts) : a.admits head = true := by
  rw [h.head_eq]
  cases ids with
  | nil => rfl
  | cons id ids => exact h.isCurrent id List.mem_cons_self

/-- Enough steps read the whole chain. -/
theorem read (h : a.Chain head ids ts) {steps : Nat} (hsteps : ids.length ≤ steps) :
    a.chain steps head = ts := by
  induction h generalizing steps with
  | nil => cases steps <;> rfl
  | @cons id next t ids ts hn _ ih =>
    obtain ⟨steps, rfl⟩ : ∃ n, steps = n + 1 := ⟨steps - 1, by rw [List.length_cons] at hsteps; omega⟩
    rw [chain, hn]
    exact congrArg (t :: ·) (ih (Nat.le_of_succ_le_succ hsteps))

/-- A chain goes on at its last node: all other nodes stay, the last one is linked to a new one. -/
theorem extend (h : a.Chain head ids ts) {last id : NodeId} (hlast : ids.getLast? = some last)
    {t : Token} (hnodup : (ids.map NodeId.place).Nodup)
    (hnew : a'.node? id.index = some ⟨some t, none, id.generation⟩)
    (hlink : a'.node? last.index
      = (a.node? last.index).map fun n => { n with next := some id })
    (hsame : ∀ k ∈ ids, k.index ≠ last.index → a'.node? k.index = a.node? k.index) :
    a'.Chain head (ids ++ [id]) (ts ++ [t]) := by
  induction h with
  | nil => cases hlast
  | @cons k next u ids ts hn hrest ih =>
    obtain ⟨hk, hnodup⟩ := List.nodup_cons.1 hnodup
    cases ids with
    | nil =>
      cases hrest
      obtain rfl : k = last := Option.some.inj hlast
      refine .cons ?_ (.cons hnew .nil)
      rw [hlink, hn]
      rfl
    | cons j js =>
      have hlast' : (j :: js).getLast? = some last := by
        rwa [List.getLast?_cons_cons] at hlast
      refine .cons ?_ (ih hlast' hnodup fun m hm => hsame m (List.mem_cons_of_mem _ hm))
      rw [← hn]
      apply hsame k List.mem_cons_self
      intro heq
      apply hk
      show k.index.toNat ∈ _
      rw [heq]
      exact List.mem_map_of_mem (List.mem_of_getLast? hlast')

end Chain

/-! ## partitions -/

namespace Partition

variable {ids others : List NodeId}

theorem perm (h : a.Partition ids) (hperm : ids.Perm others) : a.Partition others :=
  ((hperm.map NodeId.place).symm.append_right _).trans h

/-- Only the number of nodes and the free ones matter. -/
theorem congr (h : a.Partition ids) (hfree : a'.free = a.free)
    (hsize : a'.nodes.size = a.nodes.size) : a'.Partition ids := by
  unfold Partition
  rw [hfree, hsize]
  exact h

theorem nodup_all (h : a.Partition ids) :
    (ids.map NodeId.place ++ a.free.map UInt32.toNat).Nodup :=
  h.nodup_iff.2 List.nodup_range

theorem nodup (h : a.Partition ids) : (ids.map NodeId.place).Nodup :=
  (List.nodup_append.1 h.nodup_all).1

theorem nodup_free (h : a.Partition ids) : a.free.Nodup :=
  List.Pairwise.of_map UInt32.toNat (fun _ _ hne heq => hne (congrArg _ heq))
    (List.nodup_append.1 h.nodup_all).2.1

theorem not_free (h : a.Partition ids) {id : NodeId} (hid : id ∈ ids) : id.index ∉ a.free := by
  intro hfree
  exact (List.nodup_append.1 h.nodup_all).2.2 id.place (List.mem_map_of_mem hid) id.place
    (List.mem_map_of_mem hfree) rfl

theorem free_lt (h : a.Partition ids) : ∀ k ∈ a.free, k.toNat < a.nodes.size := by
  intro k hk
  apply List.mem_range.1
  rw [← h.mem_iff]
  exact List.mem_append_right _ (List.mem_map_of_mem hk)

theorem length (h : a.Partition ids) : ids.length + a.free.length = a.nodes.size := by
  have := h.length_eq
  rwa [List.length_append, List.length_map, List.length_map, List.length_range] at this

theorem liveCount (h : a.Partition ids) : a.liveCount = ids.length := by
  have := h.length
  unfold Arena.liveCount
  omega

/-- The nodes of two lists are apart. -/
theorem apart (h : a.Partition (ids ++ others)) {i j : NodeId} (hi : i ∈ ids) (hj : j ∈ others) :
    i.index ≠ j.index := by
  intro heq
  have hnodup := h.nodup
  rw [List.map_append] at hnodup
  exact (List.nodup_append.1 hnodup).2.2 i.place (List.mem_map_of_mem hi) j.place
    (List.mem_map_of_mem hj) (congrArg UInt32.toNat heq)

end Partition

/-! ## operations -/

/-- When no node is free, a token goes into a new one. -/
theorem allocate_full (hfull : a.free = []) (t : Token) : a.allocate t =
    (⟨a.nodes.size.toUInt32, 0⟩, { a with nodes := a.nodes.push ⟨some t, none, 0⟩ }) := by
  unfold allocate
  rw [hfull]

theorem node?_allocate_full (hfull : a.free = []) (t : Token) {k : UInt32} {n : Node}
    (hn : a.node? k = some n) : (a.allocate t).2.node? k = some n := by
  rw [allocate_full hfull]
  unfold node? at hn ⊢
  dsimp only
  rw [Array.getElem?_push, if_neg (Nat.ne_of_lt (lt_size_of_node? hn)), hn]

/-- A node for a token is a free one, or a new one behind all others. -/
theorem allocate_spec {ids : List NodeId} (h : a.Partition ids)
    (hroom : a.free = [] → a.nodes.size < UInt32.size) (t : Token) :
    (a.allocate t).2.node? (a.allocate t).1.index = some ⟨some t, none, (a.allocate t).1.generation⟩ ∧
    (∀ k, k ≠ (a.allocate t).1.index → (a.allocate t).2.node? k = a.node? k) ∧
    (a.allocate t).2.Partition ((a.allocate t).1 :: ids) := by
  cases hfree : a.free with
  | cons index free =>
    obtain ⟨n, hn⟩ := node?_of_lt (h.free_lt index (hfree ▸ List.mem_cons_self))
    have hn' : ({ a with free := free } : Arena).node? index = some n := hn
    unfold allocate
    rw [hfree]
    refine ⟨?_, fun k hk => ?_, ?_⟩
    · dsimp only
      rw [node?_setNode, if_pos rfl, hn', hn]
      rfl
    · dsimp only
      rw [node?_setNode, if_neg (Ne.symm hk)]
      rfl
    · unfold Partition at h ⊢
      dsimp only
      rw [size_setNode, free_setNode]
      rw [hfree] at h
      exact List.perm_middle.symm.trans h
  | nil =>
    have hindex : a.nodes.size.toUInt32.toNat = a.nodes.size := by
      show a.nodes.size % UInt32.size = _
      exact Nat.mod_eq_of_lt (hroom hfree)
    rw [allocate_full hfree]
    refine ⟨?_, fun k hk => ?_, ?_⟩
    · unfold node?
      dsimp only
      rw [Array.getElem?_push, if_pos hindex]
    · unfold node?
      dsimp only
      rw [Array.getElem?_push, if_neg]
      intro heq
      exact hk (UInt32.toNat_inj.1 (heq.trans hindex.symm))
    · unfold Partition at h ⊢
      rw [hfree] at h
      dsimp only
      rw [hfree, Array.size_push, List.range_succ, List.map_cons]
      show ([a.nodes.size.toUInt32.toNat] ++ (ids.map NodeId.place ++ [].map _)).Perm _
      rw [hindex]
      exact List.perm_append_comm.trans (h.append_right _)

namespace Holds

variable {l : TokenList} {ids others : List NodeId} {ts : List Token}

theorem empty : a.Holds .empty [] [] := ⟨.nil, rfl, rfl⟩

theorem frame (h : a.Holds l ids ts) (hsame : ∀ id ∈ ids, a'.node? id.index = a.node? id.index) :
    a'.Holds l ids ts :=
  ⟨h.chain.frame hsame, h.tail, h.length⟩

theorem tokens (h : a.Holds l ids ts) (hp : a.Partition (ids ++ others)) :
    a.tokens l = .ok ts a := by
  have hlength := hp.length
  rw [List.length_append] at hlength
  unfold Arena.tokens
  rw [if_pos h.chain.admits_head, h.chain.read (by omega)]

theorem admits_tail (h : a.Holds l ids ts) : a.admits l.tail = true := by
  rw [h.tail]
  cases hlast : ids.getLast? with
  | none => rfl
  | some last => exact h.chain.isCurrent last (List.mem_of_getLast? hlast)

/-- A token is appended in a node of its own. -/
theorem push (h : a.Holds l ids ts) (hp : a.Partition (ids ++ others))
    (hroom : a.free = [] → a.nodes.size < UInt32.size) (t : Token) :
    ∃ l' a' id, a.push l t = .ok l' a' ∧ a'.Holds l' (ids ++ [id]) (ts ++ [t]) ∧
      a'.Partition (ids ++ [id] ++ others) ∧
      ∀ k ∈ others, a'.node? k.index = a.node? k.index := by
  obtain ⟨hnew, hsame, hpart⟩ := allocate_spec hp hroom t
  generalize hr : a.allocate t = r at hnew hsame hpart
  obtain ⟨id, b⟩ := r
  dsimp only at hnew hsame hpart
  have hfresh : ∀ k ∈ ids ++ others, id.index ≠ k.index := fun k hk =>
    @Partition.apart b [id] (ids ++ others) hpart id k (List.mem_singleton.2 rfl) hk
  have hperm : (id :: (ids ++ others)).Perm (ids ++ [id] ++ others) := by
    rw [List.append_assoc]
    exact List.perm_middle.symm
  have hothers : ∀ k ∈ others, b.node? k.index = a.node? k.index := fun k hk =>
    hsame _ (hfresh k (List.mem_append_right _ hk)).symm
  have hadmits := h.admits_tail
  unfold Arena.push
  rw [if_pos hadmits, hr]
  cases hlast : ids.getLast? with
  | none =>
    obtain rfl := List.getLast?_eq_none_iff.1 hlast
    have hchain := h.chain
    have hts : ts = [] := List.eq_nil_of_length_eq_zero hchain.length_eq.symm
    rw [h.tail, hlast]
    refine ⟨_, b, id, rfl, ⟨?_, rfl, ?_⟩, hpart.perm hperm, hothers⟩
    · rw [hts]
      exact .cons hnew .nil
    · rw [List.length_append, ← h.length]
      rfl
  | some last =>
    have hmem : last ∈ ids := List.mem_of_getLast? hlast
    have hids : ∀ k ∈ ids, id.index ≠ k.index := fun k hk => hfresh k (List.mem_append_left _ hk)
    rw [h.tail, hlast]
    refine ⟨_, b.setNode last.index fun n => { n with next := some id }, id, rfl, ⟨?_, ?_, ?_⟩,
      (hpart.perm hperm).congr rfl (size_setNode ..), fun k hk => ?_⟩
    · have hnodup := hp.nodup
      rw [List.map_append] at hnodup
      refine h.chain.extend hlast (List.nodup_append.1 hnodup).1 ?_ ?_ fun k hk hne => ?_
      · rw [node?_setNode, if_neg (hids last hmem).symm, hnew]
      · rw [node?_setNode, if_pos rfl, hsame _ (hids last hmem).symm]
      · rw [node?_setNode, if_neg hne.symm, hsame _ (hids k hk).symm]
    · exact List.getLast?_concat.symm
    · rw [List.length_append, ← h.length]
      rfl
    · rw [node?_setNode, if_neg (hp.apart hmem hk), hothers k hk]

end Holds

/-- Releasing a chain frees its nodes, the last one on top, and leaves all others alone. -/
theorem Chain.release {head : Option NodeId} {ids : List NodeId} {ts : List Token}
    (h : a.Chain head ids ts) (hnodup : (ids.map NodeId.place).Nodup) {steps : Nat}
    (hsteps : ids.length ≤ steps) :
    ∃ a', a.releaseChain steps head = .ok () a' ∧
      a'.free = (ids.map NodeId.index).reverse ++ a.free ∧ a'.nodes.size = a.nodes.size ∧
      ∀ k, k ∉ ids.map NodeId.index → a'.node? k = a.node? k := by
  induction ids generalizing a head ts steps with
  | nil =>
    cases h
    refine ⟨a, ?_, rfl, rfl, fun _ _ => rfl⟩
    cases steps <;> rfl
  | cons id ids ih =>
    have hcurrent := h.isCurrent id List.mem_cons_self
    cases h with
    | @cons _ next t _ ts hn hrest =>
      obtain ⟨hid, hnodup⟩ := List.nodup_cons.1 hnodup
      obtain ⟨steps, rfl⟩ : ∃ n, steps = n + 1 :=
        ⟨steps - 1, by rw [List.length_cons] at hsteps; omega⟩
      have hsame : ∀ k, k ≠ id.index → (a.freeNode id.index).node? k = a.node? k := by
        intro k hk
        show (a.setNode id.index _).node? k = _
        rw [node?_setNode, if_neg hk.symm]
      have hapart : ∀ k ∈ ids, k.index ≠ id.index := by
        intro k hk heq
        apply hid
        show id.index.toNat ∈ _
        rw [← heq]
        exact List.mem_map_of_mem hk
      obtain ⟨a', hrun, hfree, hsize, hother⟩ :=
        ih (hrest.frame fun k hk => hsame _ (hapart k hk)) hnodup (Nat.le_of_succ_le_succ hsteps)
      refine ⟨a', ?_, ?_, hsize.trans (size_setNode ..), fun k hk => ?_⟩
      · rw [releaseChain, if_pos hcurrent, hn]
        exact hrun
      · rw [hfree, List.map_cons, List.reverse_cons, List.append_assoc]
        rfl
      · rw [List.map_cons, List.mem_cons, not_or] at hk
        rw [hother k hk.2, hsame k hk.1]

/-- A list that is given back frees its nodes. -/
theorem Holds.release {l : TokenList} {ids others : List NodeId} {ts : List Token}
    (h : a.Holds l ids ts) (hp : a.Partition (ids ++ others)) :
    ∃ a', a.release l = .ok () a' ∧ a'.Partition others ∧
      a'.free = (ids.map NodeId.index).reverse ++ a.free ∧
      ∀ k ∈ others, a'.node? k.index = a.node? k.index := by
  have hlength := hp.length
  have hnodup := hp.nodup
  rw [List.length_append] at hlength
  rw [List.map_append] at hnodup
  have hsteps : ids.length ≤ a.nodes.size + 1 := by omega
  obtain ⟨a', hrun, hfree, hsize, hother⟩ :=
    h.chain.release (List.nodup_append.1 hnodup).1 hsteps
  refine ⟨a', hrun, ?_, hfree, fun k hk => hother _ ?_⟩
  · unfold Partition at hp ⊢
    rw [hfree, hsize, List.map_append, List.map_reverse, List.map_map]
    refine .trans ?_ hp
    rw [List.map_append, List.append_assoc]
    refine .trans (List.perm_append_comm_assoc ..) ?_
    exact (List.reverse_perm _).append_right _
  · intro hmem
    obtain ⟨i, hi, heq⟩ := List.mem_map.1 hmem
    exact hp.apart hi hk heq

/-! ## the number of nodes -/

/-- Nodes are never given up. -/
theorem size_push_le (a : Arena) (l : TokenList) (t : Token) :
    a.nodes.size ≤ (a.push l t).state.nodes.size := by
  have hallocate : a.nodes.size ≤ (a.allocate t).2.nodes.size := by
    unfold allocate
    split
    · exact Nat.le_of_eq (size_setNode ..).symm
    · exact Nat.le_trans (Nat.le_succ _) (Nat.le_of_eq (Array.size_push _).symm)
  unfold Arena.push
  split
  · dsimp only
    split
    · exact Nat.le_trans hallocate (Nat.le_of_eq (size_setNode ..).symm)
    · exact hallocate
  · exact Nat.le_refl _

/-- A token takes a node at most. -/
theorem size_push_le_succ (a : Arena) (l : TokenList) (t : Token) :
    (a.push l t).state.nodes.size ≤ a.nodes.size + 1 := by
  have hallocate : (a.allocate t).2.nodes.size ≤ a.nodes.size + 1 := by
    unfold allocate
    split
    · exact Nat.le_trans (Nat.le_of_eq (size_setNode ..)) (Nat.le_succ _)
    · exact Nat.le_of_eq (Array.size_push _)
  unfold Arena.push
  split
  · dsimp only
    split
    · exact Nat.le_trans (Nat.le_of_eq (size_setNode ..)) hallocate
    · exact hallocate
  · exact Nat.le_succ _

/-- When no node is free, a token takes a new one. -/
theorem size_push_full {l : TokenList} (hadmits : a.admits l.tail = true) (hfull : a.free = [])
    (t : Token) : (a.push l t).state.nodes.size = a.nodes.size + 1 := by
  unfold Arena.push
  rw [if_pos hadmits, allocate_full hfull]
  dsimp only
  split
  · exact (size_setNode ..).trans (Array.size_push _)
  · exact Array.size_push _

theorem size_releaseChain (a : Arena) (steps : Nat) (head : Option NodeId) :
    (a.releaseChain steps head).state.nodes.size = a.nodes.size := by
  fun_induction releaseChain a steps head with
  | case1 a head => rfl
  | case2 a steps => rfl
  | case3 a steps id hcurrent next ih => exact ih.trans (size_setNode ..)
  | case4 a steps id hcurrent => rfl

end Arena

end HeaderLex
