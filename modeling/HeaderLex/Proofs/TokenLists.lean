import HeaderLex.Proofs.Chains
import Mathlib.Algebra.GroupWithZero.Nat
import Mathlib.Data.List.Perm.Basic

/-!
# Lists of tokens side by side

A caller holds the handles of several lists and works on one after the other.  Nodes go from list to
list, and still every list has the tokens that were pushed to it, whatever happens to the others.

* `ListOp`, `Shelf`          operations on numbered lists, and the handles that the caller holds;
* `Shelf.pushedTo`           what was pushed to a list, read off the operations;
* `Shelf.Sound`              every handle leads over nodes of its own;
* `Shelf.Turn`, `Sound.apply`   what one operation does to the lists that are held;
* `lists_keep_tokens`        no operation fails, and every list has its tokens.
-/

namespace HeaderLex

/-- What a caller does with the lists of an arena.  Lists are numbered in the order in which they are
borrowed. -/
inductive ListOp where
  | borrow
  | push (i : Nat) (t : Token)
  | release (i : Nat)
deriving DecidableEq, Repr

/-- The list that an operation works on, if it is there already. -/
def ListOp.target : ListOp → Option Nat
  | borrow => none
  | push i _ => some i
  | release i => some i

/-- An arena with the handles of its lists, in the order in which they were borrowed.  Every handle is
held once: pushing puts the new one in place of the old one, and nothing stays of a released one. -/
structure Shelf where
  arena : Arena
  lists : List (Option TokenList)

namespace Shelf

def fresh : Shelf := ⟨.empty, []⟩

/-- The handle of a list that is held. -/
def list? (s : Shelf) (i : Nat) : Option TokenList := s.lists[i]?.join

/-- Without a handle the caller can do nothing. -/
def apply (s : Shelf) : ListOp → Outcome Shelf Unit
  | .borrow => .ok () { s with lists := s.lists ++ [some .empty] }
  | .push i t =>
    match s.list? i with
    | none => .ok () s
    | some l =>
      let o := s.arena.push l t
      match o.result with
      | .ok l => ⟨.ok (), ⟨o.state, s.lists.set i (some l)⟩, o.events⟩
      | .error f => ⟨.error f, ⟨o.state, s.lists⟩, o.events⟩
  | .release i =>
    match s.list? i with
    | none => .ok () s
    | some l =>
      let o := s.arena.release l
      match o.result with
      | .ok () => ⟨.ok (), ⟨o.state, s.lists.set i none⟩, o.events⟩
      | .error f => ⟨.error f, ⟨o.state, s.lists⟩, o.events⟩

theorem apply_dead {s : Shelf} {op : ListOp} {i : Nat} (htarget : op.target = some i)
    (hl : s.list? i = none) : s.apply op = .ok () s := by
  cases op with
  | borrow => cases htarget
  | push j t =>
    obtain rfl := Option.some.inj htarget
    simp only [apply, hl]
  | release j =>
    obtain rfl := Option.some.inj htarget
    simp only [apply, hl]

theorem arena_push {s : Shelf} {i : Nat} {l : TokenList} (hl : s.list? i = some l) (t : Token) :
    (s.apply (.push i t)).state.arena = (s.arena.push l t).state := by
  simp only [apply, hl]
  split <;> rfl

theorem arena_release {s : Shelf} {i : Nat} {l : TokenList} (hl : s.list? i = some l) :
    (s.apply (.release i)).state.arena = (s.arena.release l).state := by
  simp only [apply, hl]
  split <;> rfl

theorem apply_push {s : Shelf} {i : Nat} {l l' : TokenList} {t : Token} {a : Arena}
    (hl : s.list? i = some l) (hrun : s.arena.push l t = .ok l' a) :
    s.apply (.push i t) = .ok () ⟨a, s.lists.set i (some l')⟩ := by
  simp only [apply, hl, hrun, Outcome.ok]

theorem apply_release {s : Shelf} {i : Nat} {l : TokenList} {a : Arena}
    (hl : s.list? i = some l) (hrun : s.arena.release l = .ok () a) :
    s.apply (.release i) = .ok () ⟨a, s.lists.set i none⟩ := by
  simp only [apply, hl, hrun, Outcome.ok]

def run (s : Shelf) (ops : List ListOp) : Shelf := ops.foldl (fun s op => (s.apply op).state) s

/-! ## what was pushed -/

/-- The tokens of all lists after one more operation; none for a list that was released. -/
def told (texts : List (Option (List Token))) : ListOp → List (Option (List Token))
  | .borrow => texts ++ [some []]
  | .push i t => texts.modify i (Option.map (· ++ [t]))
  | .release i => texts.set i none

/-- Nothing is told of a list that is not there. -/
theorem told_dead {texts : List (Option (List Token))} {op : ListOp} {i : Nat}
    (htarget : op.target = some i) (hi : texts[i]?.join = none) : told texts op = texts := by
  have hslot : ∀ x, texts[i]? = some x → x = none := by
    intro x hx
    rw [hx] at hi
    exact hi
  apply List.ext_getElem?
  intro j
  cases op with
  | borrow => cases htarget
  | push k t =>
    obtain rfl := Option.some.inj htarget
    rw [told, List.getElem?_modify]
    cases hj : texts[j]? with
    | none => rfl
    | some x =>
      by_cases heq : k = j
      · obtain rfl := hslot x (heq ▸ hj)
        simp
      · simp [heq]
  | release k =>
    obtain rfl := Option.some.inj htarget
    rw [told, List.getElem?_set]
    split
    · next heq =>
      subst heq
      split
      · next hlt =>
        rw [List.getElem?_eq_getElem hlt] at hslot ⊢
        rw [hslot _ rfl]
      · next hge => rw [List.getElem?_eq_none (Nat.le_of_not_lt hge)]
    · rfl

/-- The tokens that a row of operations pushes to a list, if it is not released in the end. -/
def pushedTo (ops : List ListOp) (i : Nat) : Option (List Token) := (ops.foldl told [])[i]?.join

/-! ## the lists that are held -/

/-- A handle with the nodes and the tokens behind it. -/
structure Kept where
  handle : TokenList
  nodes : List NodeId
  tokens : List Token

def Kept.nodesOf (e : Option Kept) : List NodeId := e.elim [] Kept.nodes

/-- Every handle leads over its own nodes to its own tokens. -/
structure Sound (s : Shelf) (kept : List (Option Kept)) : Prop where
  lists : s.lists = kept.map (Option.map Kept.handle)
  holds : ∀ e, some e ∈ kept → s.arena.Holds e.handle e.nodes e.tokens
  partition : s.arena.Partition (kept.flatMap Kept.nodesOf)

/-- What an operation does to the lists that are held. -/
inductive Turn (kept : List (Option Kept)) : ListOp → List (Option Kept) → Prop
  | borrow : Turn kept .borrow (kept ++ [some ⟨.empty, [], []⟩])
  | push {i : Nat} {e : Kept} (t : Token) (handle : TokenList) (id : NodeId) :
      kept[i]? = some (some e) →
      Turn kept (.push i t) (kept.set i (some ⟨handle, e.nodes ++ [id], e.tokens ++ [t]⟩))
  | release {i : Nat} {e : Kept} : kept[i]? = some (some e) →
      Turn kept (.release i) (kept.set i none)
  | dead {op : ListOp} {i : Nat} : op.target = some i → kept[i]?.join = none → Turn kept op kept

namespace Turn

variable {kept kept' : List (Option Kept)} {op : ListOp}

/-- The tokens of the lists are those that were pushed. -/
theorem told (h : Turn kept op kept') : kept'.map (Option.map Kept.tokens)
    = Shelf.told (kept.map (Option.map Kept.tokens)) op := by
  cases h with
  | borrow => simp only [Shelf.told, List.map_append, List.map_cons, List.map_nil, Option.map_some]
  | push t handle id hi =>
    apply List.ext_getElem?
    intro j
    simp only [Shelf.told, List.getElem?_map, List.getElem?_set, List.getElem?_modify]
    split
    · next heq =>
      subst heq
      rw [if_pos (List.getElem?_eq_some_iff.1 hi).1, hi]
      rfl
    · cases kept[j]? <;> rfl
  | release hi => rw [List.map_set]; rfl
  | @dead op i htarget hi =>
    refine (told_dead htarget ?_).symm
    rw [List.getElem?_map]
    cases hk : kept[i]? with
    | none => rfl
    | some x =>
      rw [hk] at hi
      obtain rfl : x = none := hi
      rfl

/-- An operation works on one list, and the others stay. -/
theorem other (h : Turn kept op kept') {j : Nat} {e : Kept} (hj : op.target ≠ some j)
    (he : kept[j]? = some (some e)) : kept'[j]? = some (some e) := by
  cases h with
  | borrow => rw [List.getElem?_append_left (List.getElem?_eq_some_iff.1 he).1, he]
  | push t handle id hi =>
    rw [List.getElem?_set_ne (fun heq => hj (congrArg some heq)), he]
  | release hi => rw [List.getElem?_set_ne (fun heq => hj (congrArg some heq)), he]
  | dead => exact he

end Turn

/-! ## one operation -/

/-- The nodes of all lists but one. -/
def others (kept : List (Option Kept)) (i : Nat) : List NodeId :=
  (kept.eraseIdx i).flatMap Kept.nodesOf

theorem mem_others {kept : List (Option Kept)} {i j : Nat} {e : Kept} (hne : j ≠ i)
    (hj : kept[j]? = some (some e)) : ∀ k ∈ e.nodes, k ∈ others kept i := fun _ hk =>
  List.mem_flatMap.2 ⟨some e, List.mem_eraseIdx_iff_getElem?.2 ⟨j, hne, hj⟩, hk⟩

namespace Sound

variable {s : Shelf} {kept : List (Option Kept)} {i : Nat} {e : Kept}

theorem fresh : fresh.Sound [] := ⟨rfl, fun _ he => absurd he List.not_mem_nil, .refl _⟩

theorem list? (h : s.Sound kept) (i : Nat) : s.list? i = kept[i]?.join.map Kept.handle := by
  unfold Shelf.list?
  rw [h.lists, List.getElem?_map]
  cases kept[i]? <;> rfl

theorem handle (h : s.Sound kept) (hi : kept[i]? = some (some e)) :
    s.list? i = some e.handle := by
  rw [h.list? i, hi]
  rfl

theorem held (h : s.Sound kept) (hi : kept[i]? = some (some e)) :
    s.arena.Holds e.handle e.nodes e.tokens :=
  h.holds e (List.mem_of_getElem? hi)

theorem parted (h : s.Sound kept) (hi : kept[i]? = some (some e)) :
    s.arena.Partition (e.nodes ++ others kept i) := by
  obtain ⟨hlt, hget⟩ := List.getElem?_eq_some_iff.1 hi
  have hperm := (List.set_perm_cons_eraseIdx hlt (some e)).flatMap_right Kept.nodesOf
  rw [← hget, List.set_getElem_self, hget] at hperm
  exact h.partition.perm hperm

/-- A list is exchanged, or given back, and no node of the others is touched. -/
theorem set (h : s.Sound kept) (hi : kept[i]? = some (some e)) {a : Arena} {y : Option Kept}
    (hy : ∀ e', y = some e' → a.Holds e'.handle e'.nodes e'.tokens)
    (hp : a.Partition (y.elim [] Kept.nodes ++ others kept i))
    (hsame : ∀ k ∈ others kept i, a.node? k.index = s.arena.node? k.index) :
    Sound ⟨a, s.lists.set i (y.map Kept.handle)⟩ (kept.set i y) where
  lists := by rw [h.lists, List.map_set]
  holds e' he' := by
    obtain ⟨j, hj⟩ := List.mem_iff_getElem?.1 he'
    rw [List.getElem?_set] at hj
    split at hj
    · split at hj
      · exact hy e' (Option.some.inj hj)
      · cases hj
    · next hne => exact (h.held hj).frame fun k hk => hsame k (mem_others (Ne.symm hne) hj k hk)
  partition := by
    have hlt := (List.getElem?_eq_some_iff.1 hi).1
    exact hp.perm ((List.set_perm_cons_eraseIdx hlt y).flatMap_right Kept.nodesOf).symm

theorem push (h : s.Sound kept) (hi : kept[i]? = some (some e))
    (hroom : s.arena.free = [] → s.arena.nodes.size < UInt32.size) (t : Token) : ∃ s' handle id,
      s.apply (.push i t) = .ok () s' ∧
      s'.Sound (kept.set i (some ⟨handle, e.nodes ++ [id], e.tokens ++ [t]⟩)) := by
  obtain ⟨l, a, id, hrun, hholds, hpart, hsame⟩ := (h.held hi).push (h.parted hi) hroom t
  refine ⟨⟨a, s.lists.set i (some l)⟩, l, id, apply_push (h.handle hi) hrun,
    h.set hi (y := some ⟨l, e.nodes ++ [id], e.tokens ++ [t]⟩) ?_ hpart hsame⟩
  rintro e' ⟨⟩
  exact hholds

theorem release (h : s.Sound kept) (hi : kept[i]? = some (some e)) : ∃ s',
    s.apply (.release i) = .ok () s' ∧ s'.Sound (kept.set i none) ∧
      s'.arena.free = (e.nodes.map NodeId.index).reverse ++ s.arena.free := by
  obtain ⟨a, hrun, hpart, hfree, hsame⟩ := (h.held hi).release (h.parted hi)
  exact ⟨⟨a, s.lists.set i none⟩, apply_release (h.handle hi) hrun,
    h.set hi (y := none) (fun _ hy => by cases hy) hpart hsame, hfree⟩

theorem borrow (h : s.Sound kept) :
    Sound ⟨s.arena, s.lists ++ [some .empty]⟩ (kept ++ [some ⟨.empty, [], []⟩]) where
  lists := by rw [h.lists, List.map_append]; rfl
  holds e he := by
    rw [List.mem_append, List.mem_singleton] at he
    obtain he | he := he
    · exact h.holds e he
    · obtain rfl := Option.some.inj he
      exact .empty
  partition := by
    rw [List.flatMap_append]
    show s.arena.Partition (kept.flatMap Kept.nodesOf ++ [])
    rw [List.append_nil]
    exact h.partition

/-- Every operation succeeds and keeps all handles sound, as long as indices suffice. -/
theorem apply (h : s.Sound kept) {op : ListOp}
    (hsize : (s.apply op).state.arena.nodes.size ≤ UInt32.size) :
    ∃ s' kept', s.apply op = .ok () s' ∧ Turn kept op kept' ∧ s'.Sound kept' := by
  have hdead : ∀ i, op.target = some i → kept[i]?.join = none →
      ∃ s' kept', s.apply op = .ok () s' ∧ Turn kept op kept' ∧ s'.Sound kept' := by
    intro i htarget hi
    refine ⟨s, kept, apply_dead htarget ?_, .dead htarget hi, h⟩
    rw [h.list? i, hi]
    rfl
  cases op with
  | borrow => exact ⟨_, _, rfl, .borrow, h.borrow⟩
  | push i t =>
    cases hi : kept[i]?.join with
    | none => exact hdead i rfl hi
    | some e =>
      have hi := Option.join_eq_some_iff.1 hi
      have hroom : s.arena.free = [] → s.arena.nodes.size < UInt32.size := by
        intro hfull
        have hgrown := Arena.size_push_full (h.held hi).admits_tail hfull t
        rw [arena_push (h.handle hi), hgrown] at hsize
        exact hsize
      obtain ⟨s', handle, id, hrun, hsound⟩ := h.push hi hroom t
      exact ⟨s', _, hrun, .push t handle id hi, hsound⟩
  | release i =>
    cases hi : kept[i]?.join with
    | none => exact hdead i rfl hi
    | some e =>
      have hi := Option.join_eq_some_iff.1 hi
      obtain ⟨s', hrun, hsound, -⟩ := h.release hi
      exact ⟨s', _, hrun, .release hi, hsound⟩

end Sound

/-! ## rows of operations -/

/-- An operation takes a node at most, and gives none up. -/
theorem size_apply (s : Shelf) (op : ListOp) :
    s.arena.nodes.size ≤ (s.apply op).state.arena.nodes.size ∧
      (s.apply op).state.arena.nodes.size ≤ s.arena.nodes.size + 1 := by
  have hdead : ∀ i, op.target = some i → s.list? i = none →
      s.arena.nodes.size ≤ (s.apply op).state.arena.nodes.size ∧
        (s.apply op).state.arena.nodes.size ≤ s.arena.nodes.size + 1 := by
    intro i htarget hl
    rw [apply_dead htarget hl]
    exact ⟨Nat.le_refl _, Nat.le_succ _⟩
  cases op with
  | borrow => exact ⟨Nat.le_refl _, Nat.le_succ _⟩
  | push i t =>
    cases hl : s.list? i with
    | none => exact hdead i rfl hl
    | some l =>
      rw [arena_push hl]
      exact ⟨s.arena.size_push_le l t, s.arena.size_push_le_succ l t⟩
  | release i =>
    cases hl : s.list? i with
    | none => exact hdead i rfl hl
    | some l =>
      have hsame : (s.arena.release l).state.nodes.size = s.arena.nodes.size :=
        s.arena.size_releaseChain _ l.head
      rw [arena_release hl, hsame]
      exact ⟨Nat.le_refl _, Nat.le_succ _⟩

theorem size_run_le (s : Shelf) (ops : List ListOp) :
    s.arena.nodes.size ≤ (s.run ops).arena.nodes.size := by
  induction ops generalizing s with
  | nil => exact Nat.le_refl _
  | cons op ops ih => exact Nat.le_trans (s.size_apply op).1 (ih _)

/-- All handles stay sound, with the tokens that were pushed. -/
theorem Sound.run {s : Shelf} {kept : List (Option Kept)} (h : s.Sound kept) (ops : List ListOp)
    (hsize : (s.run ops).arena.nodes.size ≤ UInt32.size) : ∃ kept', (s.run ops).Sound kept' ∧
      kept'.map (Option.map Kept.tokens) = ops.foldl told (kept.map (Option.map Kept.tokens)) := by
  induction ops generalizing s kept with
  | nil => exact ⟨kept, h, rfl⟩
  | cons op ops ih =>
    obtain ⟨s', kept', hrun, hturn, hsound⟩ :=
      h.apply (Nat.le_trans (size_run_le _ ops) hsize)
    have hstep : s.run (op :: ops) = s'.run ops := by
      show (s.apply op).state.run ops = _
      rw [hrun]
      rfl
    rw [hstep] at hsize ⊢
    obtain ⟨last, hlast, htokens⟩ := ih hsound hsize
    exact ⟨last, hlast, by rw [htokens, hturn.told]; rfl⟩

theorem run_append (s : Shelf) (before after : List ListOp) :
    s.run (before ++ after) = (s.run before).run after :=
  List.foldl_append

/-! ## what the caller sees -/

namespace Sound

variable {s : Shelf} {kept : List (Option Kept)}

/-- Every handle that is held belongs to a list. -/
theorem kept_of_list? (h : s.Sound kept) {i : Nat} {l : TokenList} (hl : s.list? i = some l) :
    ∃ e, kept[i]? = some (some e) ∧ e.handle = l := by
  rw [h.list? i] at hl
  obtain ⟨e, he, rfl⟩ := Option.map_eq_some_iff.1 hl
  exact ⟨e, Option.join_eq_some_iff.1 he, rfl⟩

/-- The handle of a list gives its tokens and their number. -/
theorem reads (h : s.Sound kept) {i : Nat} {ts : List Token}
    (hi : kept[i]?.join.map Kept.tokens = some ts) : ∃ l, s.list? i = some l ∧
      s.arena.tokens l = .ok ts s.arena ∧ l.length = ts.length := by
  obtain ⟨e, he, rfl⟩ := Option.map_eq_some_iff.1 hi
  have he := Option.join_eq_some_iff.1 he
  exact ⟨e.handle, h.handle he, (h.held he).tokens (h.parted he), (h.held he).length⟩

/-- No two lists share a node, and no list has a free one. -/
theorem disjoint (h : s.Sound kept) : ∃ nodes : Nat → List NodeId,
    (∀ i l, s.list? i = some l → ∃ ts, s.arena.Chain l.head (nodes i) ts) ∧
    (∀ i j, i ≠ j → ∀ m ∈ nodes i, ∀ n ∈ nodes j, m.index ≠ n.index) ∧
    ∀ i, ∀ m ∈ nodes i, m.index ∉ s.arena.free := by
  have hnodes : ∀ (i : Nat), ∀ m ∈ Kept.nodesOf kept[i]?.join,
      ∃ e : Kept, kept[i]? = some (some e) ∧ m ∈ e.nodes := by
    intro i m hm
    cases he : kept[i]?.join with
    | none =>
      rw [he] at hm
      exact absurd hm List.not_mem_nil
    | some e =>
      rw [he] at hm
      exact ⟨e, Option.join_eq_some_iff.1 he, hm⟩
  refine ⟨fun i => Kept.nodesOf kept[i]?.join, fun i l hl => ?_, fun i j hij m hm n hn => ?_,
    fun i m hm => ?_⟩
  · obtain ⟨e, he, rfl⟩ := h.kept_of_list? hl
    dsimp only
    rw [he]
    exact ⟨e.tokens, (h.held he).chain⟩
  · obtain ⟨e, he, hm⟩ := hnodes i m hm
    obtain ⟨f, hf, hn⟩ := hnodes j n hn
    exact (h.parted he).apart hm (mem_others hij.symm hf n hn)
  · obtain ⟨e, he, hm⟩ := hnodes i m hm
    exact (h.parted he).not_free (List.mem_append_left _ hm)

theorem liveCount (h : s.Sound kept) :
    s.arena.liveCount = (s.lists.map fun l => l.elim 0 TokenList.length).sum := by
  rw [h.partition.liveCount, List.length_flatMap, h.lists, List.map_map]
  refine congrArg List.sum (List.map_congr_left fun x hx => ?_)
  cases x with
  | none => rfl
  | some e => exact (h.holds e hx).chain.length_eq.trans (h.holds e hx).length.symm

/-- An operation on one list leaves the handles and the tokens of all others. -/
theorem unchanged (h : s.Sound kept) (hsize : s.arena.nodes.size < UInt32.size) {op : ListOp} {j : Nat}
    {l : TokenList} (hj : op.target ≠ some j) (hl : s.list? j = some l) :
    (s.apply op).state.list? j = some l ∧
      ((s.apply op).state.arena.tokens l).result = (s.arena.tokens l).result := by
  obtain ⟨s', kept', hrun, hturn, hsound⟩ := h.apply (Nat.le_trans (s.size_apply op).2 hsize)
  obtain ⟨e, he, rfl⟩ := h.kept_of_list? hl
  have he' := hturn.other hj he
  rw [hrun]
  refine ⟨hsound.handle he', ?_⟩
  show (s'.arena.tokens _).result = _
  rw [(h.held he).tokens (h.parted he), (hsound.held he').tokens (hsound.parted he')]
  rfl

end Sound

/-- After some operations of a row the handles are sound, and the tokens are those that were pushed. -/
theorem sound_run {before after : List ListOp}
    (hsize : (fresh.run (before ++ after)).arena.nodes.size < UInt32.size) :
    (fresh.run before).arena.nodes.size < UInt32.size ∧ ∃ kept, (fresh.run before).Sound kept ∧
      ∀ i, pushedTo before i = kept[i]?.join.map Kept.tokens := by
  rw [run_append] at hsize
  have hless := Nat.lt_of_le_of_lt (size_run_le _ after) hsize
  obtain ⟨kept, h, htokens⟩ := Sound.fresh.run before (Nat.le_of_lt hless)
  refine ⟨hless, kept, h, fun i => ?_⟩
  show (before.foldl told (([] : List (Option Kept)).map (Option.map Kept.tokens)))[i]?.join = _
  rw [← htokens, List.getElem?_map]
  cases kept[i]? <;> rfl

/-- At every moment of a row of operations on the lists of an arena, in whatever order: no operation
fails, every list that is held has the tokens that were pushed to it, no node is shared, and an
operation on one list leaves the others as they are. -/
theorem lists_keep_tokens (before after : List ListOp)
    (hsize : (fresh.run (before ++ after)).arena.nodes.size < UInt32.size) :
    let s := fresh.run before
    (∀ op, (s.apply op).result = .ok () ∧ (s.apply op).events = []) ∧
    (∀ i, pushedTo before i = none → s.list? i = none) ∧
    (∀ i ts, pushedTo before i = some ts → ∃ l, s.list? i = some l ∧
      s.arena.tokens l = .ok ts s.arena ∧ l.length = ts.length) ∧
    (∃ nodes : Nat → List NodeId,
      (∀ i l, s.list? i = some l → ∃ ts, s.arena.Chain l.head (nodes i) ts) ∧
      (∀ i j, i ≠ j → ∀ m ∈ nodes i, ∀ n ∈ nodes j, m.index ≠ n.index) ∧
      ∀ i, ∀ m ∈ nodes i, m.index ∉ s.arena.free) ∧
    s.arena.free.Nodup ∧
    s.arena.liveCount = (s.lists.map fun l => l.elim 0 TokenList.length).sum ∧
    ∀ op j l, op.target ≠ some j → s.list? j = some l →
      (s.apply op).state.list? j = some l ∧
      ((s.apply op).state.arena.tokens l).result = (s.arena.tokens l).result := by
  intro s
  obtain ⟨hless, kept, h, hpushed⟩ := sound_run hsize
  refine ⟨fun op => ?_, fun i hi => ?_, fun i ts hi => h.reads (hpushed i ▸ hi), h.disjoint,
    h.partition.nodup_free, h.liveCount, fun op j l hj hl => h.unchanged hless hj hl⟩
  · obtain ⟨s', -, hrun, -, -⟩ := h.apply (Nat.le_trans (s.size_apply op).2 hless)
    rw [hrun]
    exact ⟨rfl, rfl⟩
  · rw [hpushed i, Option.map_eq_none_iff] at hi
    rw [h.list? i, hi]
    rfl

/-- Nodes of a released list go into two others. -/
theorem lists_keep_tokens_sample :
    let word (text : String) : Token := ⟨.identifier, text, ⟨0, 1⟩, ⟨0, 1⟩⟩
    let ops : List ListOp := [.borrow, .borrow, .push 0 (word "A"), .push 1 (word "B"),
      .push 0 (word "C"), .release 0, .borrow, .push 2 (word "D"), .push 1 (word "E"),
      .push 2 (word "F")]
    (fresh.run ops).arena.nodes.size = 4 ∧ (fresh.run ops).list? 0 = none ∧
    (∃ l, (fresh.run ops).list? 1 = some l ∧
      (fresh.run ops).arena.tokens l = .ok [word "B", word "E"] (fresh.run ops).arena ∧
      l.length = 2) ∧
    ∃ l, (fresh.run ops).list? 2 = some l ∧
      (fresh.run ops).arena.tokens l = .ok [word "D", word "F"] (fresh.run ops).arena ∧
      l.length = 2 := by
  intro word ops
  have hsize : (fresh.run ops).arena.nodes.size = 4 := by decide +kernel
  have hless : (fresh.run (ops ++ [])).arena.nodes.size < UInt32.size := by
    rw [List.append_nil]
    exact Nat.lt_of_le_of_lt (Nat.le_of_eq hsize) (by decide)
  obtain ⟨-, hgone, hheld, -⟩ := lists_keep_tokens ops [] hless
  exact ⟨hsize, hgone 0 (by decide +kernel), hheld 1 _ (by decide +kernel),
    hheld 2 _ (by decide +kernel)⟩

end Shelf

end HeaderLex
