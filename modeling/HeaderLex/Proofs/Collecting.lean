import HeaderLex.Proofs.Acceptance
import HeaderLex.Proofs.Chains
import HeaderLex.Proofs.Compositional
import HeaderLex.Proofs.SignedConstants

/-!
# Collecting tokens in an arena

A parser that collects tokens pushes what it takes off the stream to one list of an arena.  The nodes of
all other lists stay as they are, whatever it meets.

* `Bystanders`         the nodes of the other lists, and what they are in an arena;
* `Bystanders.Beside`  a list under construction, with the others as they were;
* `Widens`             no parser gives up nodes;
* `Collects`           the judgment: what is taken is what is pushed, and a failure is an error of the
                       source;
* `Collects.bind`, `Collects.look`, `Collects.take`, `Collects.loop`   how it goes over a parser.
-/

namespace HeaderLex

open HeaderLex.Operation HeaderLex.Parser HeaderLex.Grammar

/-! ## a list under construction -/

/-- What stays while a list is built: nodes of other lists, as they are in an arena. -/
structure Bystanders where
  arena : Arena
  nodes : List NodeId

namespace Bystanders

variable {o : Bystanders} {a : Arena} {l : TokenList} {ts : List Token}

/-- The bystanders are in the arena what they were. -/
def Kept (o : Bystanders) (a : Arena) : Prop :=
  ∀ k ∈ o.nodes, a.node? k.index = o.arena.node? k.index

/-- The list holds the tokens in nodes of its own, and the bystanders are what they were. -/
def Beside (o : Bystanders) (a : Arena) (l : TokenList) (ts : List Token) : Prop :=
  ∃ ids, a.Holds l ids ts ∧ a.Partition (ids ++ o.nodes) ∧ o.Kept a

theorem Beside.push (h : o.Beside a l ts) (hsize : a.nodes.size < UInt32.size) (t : Token) :
    ∃ l' a', a.push l t = .ok l' a' ∧ o.Beside a' l' (ts ++ [t]) := by
  obtain ⟨ids, hholds, hparts, hkept⟩ := h
  obtain ⟨l', a', id, hrun, hholds', hparts', hsame⟩ := hholds.push hparts (fun _ => hsize) t
  exact ⟨l', a', hrun, ids ++ [id], hholds', hparts', fun k hk => (hsame k hk).trans (hkept k hk)⟩

theorem Beside.release (h : o.Beside a l ts) :
    ∃ a', a.release l = .ok () a' ∧ a'.Partition o.nodes ∧ o.Kept a' := by
  obtain ⟨ids, hholds, hparts, hkept⟩ := h
  obtain ⟨a', hrun, hparts', -, hsame⟩ := hholds.release hparts
  exact ⟨a', hrun, hparts', fun k hk => (hsame k hk).trans (hkept k hk)⟩

end Bystanders

/-! ## the number of nodes -/

/-- The parser gives up no node of the arena. -/
def Widens {υ α : Type} (p : Parser υ α) : Prop :=
  ∀ x, x.arena.nodes.size ≤ (p x).state.arena.nodes.size

theorem size_le_bind {υ α β : Type} (p : Parser υ α) {f : α → Parser υ β} (hf : ∀ a, Widens (f a))
    (x : Session υ) : (p x).state.arena.nodes.size ≤ ((p >>= f) x).state.arena.nodes.size := by
  cases h : (p x).result with
  | ok a =>
    rw [bind_of_ok h]
    exact hf a _
  | error f => exact Nat.le_of_eq (by rw [bind_of_error h])

theorem widens_repeatFor {υ β γ : Type} {body : β → Parser υ (β ⊕ γ)} (h : ∀ b, Widens (body b))
    (turns : Nat) (b : β) : Widens (repeatFor body turns b) := by
  induction turns generalizing b with
  | zero => exact fun _ => Nat.le_refl _
  | succ turns ih =>
    refine fun x => Nat.le_trans (h b x) (size_le_bind _ ?_ x)
    rintro (b | c)
    · exact ih b
    · exact fun _ => Nat.le_refl _

theorem compositional_widens : Compositional Widens where
  pure _ _ := Nat.le_refl _
  bind hp hf x := Nat.le_trans (hp x) (size_le_bind _ hf x)
  loop hbody b x := widens_repeatFor hbody _ b x
  withState init _ hp x := hp ⟨x.stream, x.arena, (x.user, init)⟩
  peek _ := Nat.le_refl _
  consume _ := Nat.le_refl _
  refuse _ _ := Nat.le_refl _
  user _ := Nat.le_refl _
  modifyUser _ _ := Nat.le_refl _
  push list t x := x.arena.size_push_le list t

/-! ## refusals -/

/-- The parser fails with an error of the source, and does no more than to look at the stream. -/
def Refuses {υ α : Type} (p : Parser υ α) (x : Session υ) : Prop :=
  ∃ e z, (p x).result = .error (.source e) ∧ (p x).state = { x with stream := z }

namespace Refuses

variable {υ α β : Type} {x : Session υ} {z : Stream}

theorem bind {p : Parser υ α} (h : Refuses p x) (f : α → Parser υ β) : Refuses (p >>= f) x := by
  obtain ⟨e, z, hresult, hstate⟩ := h
  rw [Refuses, bind_of_error hresult]
  exact ⟨e, z, rfl, hstate⟩

theorem after {p : Parser υ α} {a : α} (h : p.Ends x a { x with stream := z }) {f : α → Parser υ β}
    (hf : Refuses (f a) { x with stream := z }) : Refuses (p >>= f) x := by
  obtain ⟨e, z', hresult, hstate⟩ := hf
  rw [← h.2] at hresult hstate
  rw [Refuses, bind_of_ok h.1]
  refine ⟨e, z', hresult, hstate.trans ?_⟩
  rw [h.2]

theorem refuse (e : SourceError) : Refuses (Operation.refuse e : Parser υ α) x :=
  ⟨e, x.stream, rfl, rfl⟩

theorem peek {f : Failure} (h : x.stream.peek.result = .error f) : Refuses Parser.peek x := by
  obtain ⟨e, rfl⟩ := Stream.peek_fails h
  exact ⟨e, x.stream.peek.state, h, rfl⟩

end Refuses

/-! ## the judgment -/

/-- From the stream `z`, which stands at `s`, and a list with the tokens `ts`: the parser takes some
tokens and has pushed them to the list, so that `post` holds of its result, these tokens and the place
behind them, or it fails with an error of the source.  The bystanders are what they were in both
cases. -/
def Collects {υ α : Type} (o : Bystanders) (z s : Stream) (ts : List Token)
    (p : Parser (υ × TokenList) α) (post : α → List Token → Stream → Prop) : Prop :=
  ∀ (x : Session (υ × TokenList)), x.stream = z → o.Beside x.arena x.user.2 ts →
    (p x).state.arena.nodes.size < UInt32.size →
    (p x).state.user.1 = x.user.1 ∧
    ((∃ a us s', (p x).result = .ok a ∧ s.Takes us s' ∧ (p x).state.stream.StandsAt s' ∧
      o.Beside (p x).state.arena (p x).state.user.2 (ts ++ us) ∧ post a us s') ∨
    ∃ e us, (p x).result = .error (.source e) ∧
      o.Beside (p x).state.arena (p x).state.user.2 (ts ++ us))

namespace Collects

variable {υ α β γ : Type} {o : Bystanders} {z s : Stream} {ts : List Token} {t : Token}
  {p : Parser (υ × TokenList) α} {post : α → List Token → Stream → Prop}

theorem pure (hz : z.StandsAt s) {a : α} (h : post a [] s) :
    Collects o z s ts (Pure.pure a : Parser (υ × TokenList) α) post := by
  rintro x rfl hbeside -
  exact ⟨rfl, .inl ⟨a, [], s, rfl, .nil s, hz, by rwa [List.append_nil], h⟩⟩

theorem of_refuses (h : ∀ x, x.stream = z → Refuses p x) : Collects o z s ts p post := by
  intro x hx hbeside _
  obtain ⟨e, z', hresult, hstate⟩ := h x hx
  rw [hstate]
  exact ⟨rfl, .inr ⟨e, [], hresult, by rwa [List.append_nil]⟩⟩

theorem weaken {post' : α → List Token → Stream → Prop} (h : Collects o z s ts p post)
    (hpost : ∀ a us s', s.Takes us s' → post a us s' → post' a us s') : Collects o z s ts p post' := by
  intro x hx hbeside hsize
  obtain ⟨huser, ⟨a, us, s', hresult, htakes, hstands, hgrown, hholds⟩ | hfails⟩ := h x hx hbeside hsize
  · exact ⟨huser, .inl ⟨a, us, s', hresult, htakes, hstands, hgrown, hpost a us s' htakes hholds⟩⟩
  · exact ⟨huser, .inr hfails⟩

/-- One parser after the other. -/
theorem bind {f : α → Parser (υ × TokenList) β} {post' : β → List Token → Stream → Prop}
    (h : Collects o z s ts p post) (hwidens : ∀ a, Widens (f a))
    (hf : ∀ a us s' z', s.Takes us s' → z'.StandsAt s' → post a us s' →
      Collects o z' s' (ts ++ us) (f a) fun b vs s'' => post' b (us ++ vs) s'') :
    Collects o z s ts (p >>= f) post' := by
  intro x hx hbeside hsize
  have hfirst := Nat.lt_of_le_of_lt (size_le_bind p hwidens x) hsize
  cases hp : (p x).result with
  | ok a =>
    rw [bind_of_ok hp] at hsize ⊢
    obtain ⟨huser, ⟨a', us, s', ha, htakes, hstands, hgrown, hpost⟩ | ⟨e, us, he, -⟩⟩ :=
      h x hx hbeside hfirst
    · obtain rfl : a = a' := Except.ok.inj (hp.symm.trans ha)
      obtain ⟨huser', hlater⟩ := hf a us s' _ htakes hstands hpost (p x).state rfl hgrown hsize
      refine ⟨huser'.trans huser, ?_⟩
      rcases hlater with ⟨b, vs, s'', hb, htakes', hstands', hgrown', hpost'⟩ | ⟨e, vs, he, hgrown'⟩
      · rw [List.append_assoc] at hgrown'
        exact .inl ⟨b, us ++ vs, s'', hb, htakes.trans htakes', hstands', hgrown', hpost'⟩
      · rw [List.append_assoc] at hgrown'
        exact .inr ⟨e, us ++ vs, he, hgrown'⟩
    · cases hp.symm.trans he
  | error f =>
    rw [bind_of_error hp]
    obtain ⟨huser, ⟨a, us, s', ha, -⟩ | ⟨e, us, he, hgrown⟩⟩ := h x hx hbeside hfirst
    · cases hp.symm.trans ha
    · obtain rfl := Except.error.inj (hp.symm.trans he)
      exact ⟨huser, .inr ⟨e, us, rfl, hgrown⟩⟩

/-! ### looks -/

/-- A look from a place finds the token there. -/
theorem peek_standing {x : Session υ} (hz : z.StandsAt s) (ht : s.peek.result = .ok t)
    (hx : x.stream = z) : Parser.peek.Ends x t { x with stream := s.peek.state } := by
  subst hx
  obtain ⟨hresult, hstate⟩ := hz.peek ht
  exact ⟨hresult, by rw [← hstate]; rfl⟩

theorem look (hz : z.StandsAt s) {f : Token → Parser (υ × TokenList) α}
    (h : ∀ t, s.peek.result = .ok t → Collects o s.peek.state s ts (f t) post) :
    Collects o z s ts (Parser.peek >>= f) post := by
  cases hpeek : s.peek.result with
  | ok t =>
    intro x hx hbeside hsize
    have hends := peek_standing hz hpeek hx
    have hrun := bind_of_ok (f := f) hends.1
    rw [hends.2] at hrun
    rw [hrun] at hsize ⊢
    exact h t hpeek { x with stream := s.peek.state } rfl hbeside hsize
  | error e =>
    obtain rfl := hz.eq_of_error hpeek
    refine of_refuses fun x hx => ?_
    subst hx
    exact (Refuses.peek hpeek).bind f

/-! ### tokens -/

theorem pushToken_eq (z : Stream) {arena a : Arena} (user : υ) {list l : TokenList}
    (h : arena.push list t = .ok l a) :
    pushToken t ⟨z, arena, (user, list)⟩ = .ok () ⟨z, a, (user, l)⟩ := by
  have hpush : (onArena (·.push list t) : Parser (υ × TokenList) TokenList) ⟨z, arena, (user, list)⟩
      = .ok l ⟨z, a, (user, list)⟩ := by
    show (arena.push list t).mapState _ = _
    rw [h]
    rfl
  exact (bind_ok rfl).trans (bind_ok hpush)

/-- A token that is taken and pushed. -/
theorem take (ht : s.peek.result = .ok t) {g : Parser (υ × TokenList) γ} (token : γ → Token)
    {q : γ → Parser (υ × TokenList) α} (c : γ)
    (hg : ∀ x, x.stream = z → g.Ends x c { x with stream := s.peek.state.consume.state })
    (htoken : token c = t) (hwidens : Widens (q c))
    (h : Collects o s.peek.state.consume.state s.peek.state.consume.state (ts ++ [t]) (q c)
      fun a us s' => post a (t :: us) s') :
    Collects o z s ts (g >>= fun c => pushToken (token c) >>= fun _ => q c) post := by
  rintro ⟨z', arena, user, list⟩ hx hbeside hsize
  obtain ⟨hresult, hstate⟩ := hg ⟨z', arena, user, list⟩ hx
  have hrun := bind_of_ok (f := fun c => pushToken (token c) >>= fun _ => q c) hresult
  rw [hstate, htoken] at hrun
  rw [hrun] at hsize ⊢
  have hwide : Widens (pushToken t >>= fun _ => q c) :=
    compositional_widens.bind (compositional_widens.pushToken t) fun _ => hwidens
  have hroom : arena.nodes.size < UInt32.size :=
    Nat.lt_of_le_of_lt (hwide ⟨s.peek.state.consume.state, arena, (user, list)⟩) hsize
  obtain ⟨l, a, hpush, hgrown⟩ := hbeside.push hroom t
  have hpushed := bind_ok (f := fun _ => q c) (pushToken_eq s.peek.state.consume.state user hpush)
  rw [hpushed] at hsize ⊢
  obtain ⟨huser, hends⟩ := h ⟨_, a, (user, l)⟩ rfl hgrown hsize
  refine ⟨huser, ?_⟩
  rcases hends with ⟨b, us, s', hb, htakes, hstands, hgrown', hpost⟩ | ⟨e, us, he, hgrown'⟩
  · rw [List.append_assoc] at hgrown'
    exact .inl ⟨b, t :: us, s', hb, .cons ht htakes, hstands, hgrown', hpost⟩
  · rw [List.append_assoc] at hgrown'
    exact .inr ⟨e, t :: us, he, hgrown'⟩

/-- The token that was looked at is taken and pushed. -/
theorem consume (ht : s.peek.result = .ok t) {q : Parser (υ × TokenList) α} (hwidens : Widens q)
    (h : Collects o s.peek.state.consume.state s.peek.state.consume.state (ts ++ [t]) q
      fun a us s' => post a (t :: us) s') :
    Collects o s.peek.state s ts (Parser.consume >>= fun _ => pushToken t >>= fun _ => q) post := by
  refine take ht (fun _ => t) () (fun x hx => ⟨?_, ?_⟩) rfl hwidens h
  · show x.stream.consume.result = _
    rw [hx, Stream.consume_peeked ht]
  · show ({ x with stream := x.stream.consume.state } : Session (υ × TokenList)) = _
    rw [hx]

theorem next (hz : z.StandsAt s) (ht : s.peek.result = .ok t) {q : Token → Parser (υ × TokenList) α}
    (hwidens : Widens (q t))
    (h : Collects o s.peek.state.consume.state s.peek.state.consume.state (ts ++ [t]) (q t)
      fun a us s' => post a (t :: us) s') :
    Collects o z s ts (Parser.next >>= fun t => pushToken t >>= fun _ => q t) post := by
  refine take ht id t (fun x hx => ?_) rfl hwidens h
  subst hx
  obtain ⟨hresult, hstate⟩ := hz.peek ht
  exact next_ends.mpr ⟨hresult, by rw [hstate]⟩

/-- A token of a kind is taken and pushed, or refused. -/
theorem require (hz : z.StandsAt s) {test : Token → Bool} {expected : String}
    {context : Option String}
    {q : Parser (υ × TokenList) α} (hwidens : Widens q)
    (h : ∀ t, s.peek.result = .ok t → test t = true →
      Collects o s.peek.state.consume.state s.peek.state.consume.state (ts ++ [t]) q
        fun a us s' => post a (t :: us) s') :
    Collects o z s ts (requireIf test expected context >>= fun t => pushToken t >>= fun _ => q) post := by
  cases hpeek : s.peek.result with
  | error f =>
    obtain rfl := hz.eq_of_error hpeek
    refine of_refuses fun x hx => ?_
    subst hx
    exact ((Refuses.peek hpeek).bind _).bind _
  | ok t =>
    cases htest : test t with
    | true =>
      refine take hpeek id t (fun x hx => ?_) rfl hwidens (h t hpeek htest)
      have hconsume : Parser.consume.Ends ({ x with stream := s.peek.state } : Session (υ × TokenList)) ()
          { x with stream := s.peek.state.consume.state } := ⟨Stream.consume_peeked hpeek, rfl⟩
      refine ends_bind.mpr ⟨t, _, peek_standing hz hpeek hx, ?_⟩
      rw [if_pos htest]
      exact ends_bind.mpr ⟨(), _, hconsume, ends_pure.mpr ⟨rfl, rfl⟩⟩
    | false =>
      refine of_refuses fun x hx => .bind (.after (peek_standing hz hpeek hx) ?_) _
      rw [if_neg (by rw [htest]; decide)]
      exact Refuses.refuse _

/-! ### loops -/

/-- What a turn of a loop has to show: it goes on with some more tokens before an end mark, or it ends
the loop. -/
def AfterTurn (inv : β → List Token → Prop) (post : γ → List Token → Stream → Prop) (us : List Token) :
    β ⊕ γ → List Token → Stream → Prop
  | .inl b, vs, _ => vs ≠ [] ∧ (∀ t ∈ vs, t.isEnd = false) ∧ inv b (us ++ vs)
  | .inr c, vs, s' => post c (us ++ vs) s'

/-- A loop whose turns take tokens before an end mark has turns enough, so an invariant of the tokens
taken so far carries it to its end. -/
theorem loop (hsound : s.Sound) (hz : z.StandsAt s) {body : β → Parser (υ × TokenList) (β ⊕ γ)}
    (hwidens : ∀ b, Widens (body b)) (inv : β → List Token → Prop)
    {post : γ → List Token → Stream → Prop} {b : β} (hinv : inv b [])
    (hbody : ∀ b us s' z', s.Takes us s' → z'.StandsAt s' → inv b us →
      Collects o z' s' (ts ++ us) (body b) (AfterTurn inv post us)) :
    Collects o z s ts (Parser.loop body b) post := by
  have hrepeat : ∀ turns b us s' z', s.Takes us s' → (∀ t ∈ us, t.isEnd = false) → z'.StandsAt s' →
      inv b us → s.budget ≤ us.length + turns →
      Collects o z' s' (ts ++ us) (repeatFor body turns b) fun c vs s'' => post c (us ++ vs) s'' := by
    intro turns
    induction turns with
    | zero =>
      intro b us s' z' htakes hcontent _ _ hturns
      exact absurd (htakes.length_lt_budget hsound hcontent) (Nat.not_lt_of_le hturns)
    | succ turns ih =>
      intro b us s' z' htakes hcontent hz' hinv hturns
      refine (hbody b us s' z' htakes hz' hinv).bind ?_ ?_
      · rintro (b' | c)
        · exact widens_repeatFor hwidens turns b'
        · exact compositional_widens.pure c
      · rintro (b' | c) vs s'' z'' htakes' hz'' hpost
        · obtain ⟨hne, hmore, hinv'⟩ := hpost
          have hlength := List.length_pos_iff.mpr hne
          have hlater := ih b' (us ++ vs) s'' z'' (htakes.trans htakes')
            (List.forall_mem_append.mpr ⟨hcontent, hmore⟩) hz'' hinv'
            (by rw [List.length_append]; omega)
          rw [List.append_assoc]
          exact hlater.weaken fun c ws last _ h => by rwa [← List.append_assoc]
        · exact Collects.pure hz'' (by rwa [List.append_nil])
  intro x hx
  have hfirst := hrepeat s.budget b [] s z (.nil s) (by simp) hz hinv (by simp)
  rw [List.append_nil, ← hz.budget, ← hx] at hfirst
  exact hfirst x rfl

end Collects

end HeaderLex
