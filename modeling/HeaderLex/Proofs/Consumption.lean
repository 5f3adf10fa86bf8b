import HeaderLex.Proofs.Crashes
import HeaderLex.Proofs.Execution
import HeaderLex.Proofs.Recording

/-!
# What a parser consumes

A parser that ends with a result has taken some tokens off its stream.  Those behind a checkpoint to
which it went back do not count.

* `Operation.Ends`     an operation ends with a result, in a state;
* `ends_bind`, `fails_bind`   how a sequence ends, and how it fails;
* `Stream.Takes`       tokens are taken one after the other;
* `Stream.Consumes`    the same with looks ahead, and with checkpoints that are ended;
* `Consumes.records`, `Consumes.served`   what is consumed is what a lexer records, and what a replay
                       has no longer before it;
* `Stream.Sound`, `Takes.length_lt_budget`   a loop has turns enough for the tokens before an end mark;
* `repeatFor_ends`, `repeatFor_fails`   an invariant of the tokens taken so far, over the turns of a
                       loop.
-/

namespace HeaderLex

open HeaderLex.Operation HeaderLex.Parser

/-! ## how an operation ends -/

section

variable {σ α β : Type}

/-- The operation ends with the result `a`, in the state `s'`. -/
def Operation.Ends (p : Operation σ α) (s : σ) (a : α) (s' : σ) : Prop :=
  (p s).result = .ok a ∧ (p s).state = s'

theorem ends_bind {p : Operation σ α} {f : α → Operation σ β} {s s'' : σ} {b : β} :
    (p >>= f).Ends s b s'' ↔ ∃ a s', p.Ends s a s' ∧ (f a).Ends s' b s'' := by
  unfold Ends
  cases h : (p s).result with
  | ok a =>
    rw [bind_of_ok h]
    constructor
    · exact fun hf => ⟨a, _, ⟨rfl, rfl⟩, hf⟩
    · rintro ⟨_, _, ⟨⟨⟩, rfl⟩, hf⟩
      exact hf
  | error e =>
    rw [bind_of_error h]
    constructor
    · rintro ⟨⟨⟩, -⟩
    · rintro ⟨_, _, ⟨⟨⟩, -⟩, -⟩

theorem ends_pure {s s' : σ} {a b : α} :
    (pure a : Operation σ α).Ends s b s' ↔ a = b ∧ s = s' := by
  unfold Ends
  rw [pure_apply]
  exact and_congr_left fun _ => Except.ok.injEq a b ▸ Iff.rfl

theorem fails_bind {p : Operation σ α} {f : α → Operation σ β} {s : σ} {e : Failure} :
    ((p >>= f) s).result = .error e ↔
      (p s).result = .error e ∨ ∃ a s', p.Ends s a s' ∧ (f a s').result = .error e := by
  unfold Ends
  cases h : (p s).result with
  | ok a =>
    rw [bind_of_ok h]
    constructor
    · exact fun hf => .inr ⟨a, _, ⟨rfl, rfl⟩, hf⟩
    · rintro (he | ⟨_, _, ⟨⟨⟩, rfl⟩, hf⟩)
      · cases he
      · exact hf
  | error e' =>
    rw [bind_of_error h]
    constructor
    · rintro ⟨⟩
      exact .inl rfl
    · rintro (he | ⟨_, _, ⟨he, -⟩, -⟩)
      · cases he
        rfl
      · cases he

end

/-! ## tokens taken off a stream -/

namespace Stream

variable {s s' s'' : Stream} {t : Token} {ts us : List Token}

/-- A look at the next token can be repeated. -/
theorem peek_again (h : s.peek.result = .ok t) : s.peek.state.peek = .ok t s.peek.state := by
  cases s with
  | replay r =>
    obtain rfl := Except.ok.inj h
    rfl
  | live lx =>
    obtain ⟨p, hp, rfl⟩ := @Lexer.current_peek lx t h
    show (lx.peek.state.peek).mapState live = _
    rw [Lexer.peek_of_current hp]
    rfl

theorem consume_peeked (h : s.peek.result = .ok t) : s.peek.state.consume.result = .ok () := by
  cases s with
  | replay r => rfl
  | live lx =>
    show lx.peek.state.consume.result = _
    rw [@Lexer.consume_peek lx t h]
    rfl

/-- The tokens are taken off the stream, one after the other. -/
inductive Takes : Stream → List Token → Stream → Prop
  | nil (s : Stream) : Takes s [] s
  | cons {s s' : Stream} {t : Token} {ts : List Token} : s.peek.result = .ok t →
      Takes s.peek.state.consume.state ts s' → Takes s (t :: ts) s'

theorem Takes.one (h : s.peek.result = .ok t) : s.Takes [t] s.peek.state.consume.state :=
  .cons h (.nil _)

theorem Takes.trans (h : s.Takes ts s') (h' : s'.Takes us s'') : s.Takes (ts ++ us) s'' := by
  induction h with
  | nil => exact h'
  | cons ht _ ih => exact .cons ht (ih h')

/-- The tokens are consumed on the way from one stream to the other.  On the way the stream may be
looked at, and checkpoints be set and ended; what lies behind one is not consumed where the way goes
back to it. -/
inductive Consumes : Stream → List Token → Stream → Prop
  | refl (s : Stream) : Consumes s [] s
  | look {s : Stream} {t : Token} : s.peek.result = .ok t → Consumes s [] s.peek.state
  | take {s : Stream} {t : Token} : s.peek.result = .ok t →
      Consumes s [t] s.peek.state.consume.state
  | trans {s s' s'' : Stream} {ts us : List Token} : Consumes s ts s' → Consumes s' us s'' →
      Consumes s (ts ++ us) s''
  | undone {s s' : Stream} {ts : List Token} : s.save.result = .ok () →
      Consumes s.save.state ts s' → Consumes s [] s'.restore.state
  | kept {s s' : Stream} {ts : List Token} : s.save.result = .ok () →
      Consumes s.save.state ts s' → Consumes s ts s'.abandon.state

theorem Takes.consumes (h : s.Takes ts s') : s.Consumes ts s' := by
  induction h with
  | nil s => exact .refl s
  | cons ht _ ih => exact (Consumes.take ht).trans ih

theorem free_of_save {lx : Lexer} (h : (live lx).save.result = .ok ()) :
    lx.saved.length < maxCheckpoints := by
  apply Nat.lt_of_not_le
  intro hfull
  replace h : lx.save.result = .ok () := h
  rw [Lexer.save, if_pos hfull] at h
  cases h

/-- A lexer that records adds what is consumed to its recording. -/
theorem Consumes.records (h : s.Consumes ts s') {lx : Lexer} (hs : s = .live lx)
    (hrec : lx.recording = true) : ∃ lx', s' = .live lx' ∧ lx.Records ts lx' := by
  induction h generalizing lx with
  | refl s => exact ⟨lx, hs, .refl lx⟩
  | look ht =>
    subst hs
    exact ⟨lx.peek.state, rfl, .peek lx⟩
  | @take _ t ht =>
    subst hs
    have hpeek := Lexer.Records.peek lx
    refine ⟨lx.peek.state.consume.state, rfl, ?_⟩
    rw [@Lexer.consume_peek lx t ht]
    exact hpeek.trans (.consumed (hpeek.recording.trans hrec) t)
  | trans _ _ ih ih' =>
    obtain ⟨lx', hs', hfirst⟩ := ih hs hrec
    obtain ⟨lx'', hs'', hlater⟩ := ih' hs' (hfirst.recording.trans hrec)
    exact ⟨lx'', hs'', hfirst.trans hlater⟩
  | undone hsave _ ih =>
    subst hs
    have hfree := free_of_save hsave
    obtain ⟨lx', rfl, hinner⟩ := ih rfl ((Lexer.save_records hfree).1.trans hrec)
    exact ⟨lx'.restore.state, rfl, .restored hfree hinner⟩
  | kept hsave _ ih =>
    subst hs
    have hfree := free_of_save hsave
    obtain ⟨lx', rfl, hinner⟩ := ih rfl ((Lexer.save_records hfree).1.trans hrec)
    exact ⟨lx'.abandon.state, rfl, .abandoned hfree hinner⟩

/-- A replay has served its own tokens, and its end mark when none of them was left. -/
structure Served (r : Replay) (ts : List Token) (r' : Replay) : Prop where
  saved : r'.saved = r.saved
  endMark : r'.endMark = r.endMark
  rest : ∃ own n, ts = own ++ List.replicate n r.endMark ∧ r.rest = own ++ r'.rest ∧
    (n = 0 ∨ r'.rest = [])

theorem Served.refl (r : Replay) : Served r [] r := ⟨rfl, rfl, [], 0, rfl, rfl, .inl rfl⟩

theorem Served.trans {r r' r'' : Replay} (h : Served r ts r') (h' : Served r' us r'') :
    Served r (ts ++ us) r'' := by
  obtain ⟨hsaved, hmark, own, n, rfl, hrest, hn⟩ := h
  obtain ⟨hsaved', hmark', own', n', rfl, hrest', hn'⟩ := h'
  refine ⟨hsaved'.trans hsaved, hmark'.trans hmark, ?_⟩
  rcases hn with rfl | hempty
  · exact ⟨own ++ own', n', by simp [hmark], by rw [hrest, hrest', List.append_assoc], hn'⟩
  · -- behind the first end mark there are only more of them
    obtain ⟨rfl, hempty'⟩ : own' = [] ∧ r''.rest = [] := by
      rw [hempty] at hrest'
      exact List.append_eq_nil_iff.mp hrest'.symm
    refine ⟨own, n + n', ?_, by rw [hrest, hempty, hempty'], .inr hempty'⟩
    rw [hmark, List.append_assoc, List.nil_append, List.replicate_append_replicate]

theorem Served.consume (r : Replay) : Served r [r.peek] r.consume := by
  obtain ⟨rest, saved, mark⟩ := r
  cases rest with
  | nil => exact ⟨rfl, rfl, [], 1, rfl, rfl, .inr rfl⟩
  | cons t rest => exact ⟨rfl, rfl, [t], 0, rfl, rfl, .inl rfl⟩

theorem save_replay {r : Replay} (h : (replay r).save.result = .ok ()) :
    r.save.state = { r with saved := r.rest :: r.saved } := by
  replace h : r.save.result = .ok () := h
  unfold Replay.save at h ⊢
  split at h
  · cases h
  · next hroom => rw [if_neg hroom]; rfl

/-- Forgetting a checkpoint keeps what was served behind it. -/
theorem Served.abandoned {r r' : Replay}
    (h : Served { r with saved := r.rest :: r.saved } ts r') : Served r ts r'.abandon.state := by
  obtain ⟨hsaved, hmark, hrest⟩ := h
  unfold Replay.abandon
  rw [hsaved]
  exact ⟨rfl, hmark, hrest⟩

/-- Going back to a checkpoint puts back what was served behind it. -/
theorem Served.restored {r r' : Replay}
    (h : Served { r with saved := r.rest :: r.saved } ts r') : Served r [] r'.restore.state := by
  obtain ⟨hsaved, hmark, -⟩ := h
  unfold Replay.restore
  rw [hsaved]
  exact ⟨rfl, hmark, [], 0, rfl, rfl, .inl rfl⟩

/-- What is consumed of a replay stood before it. -/
theorem Consumes.served (h : s.Consumes ts s') {r : Replay} (hs : s = .replay r) :
    ∃ r', s' = .replay r' ∧ Served r ts r' := by
  induction h generalizing r with
  | refl s => exact ⟨r, hs, .refl r⟩
  | look ht =>
    subst hs
    exact ⟨r, rfl, .refl r⟩
  | take ht =>
    subst hs
    obtain rfl := Except.ok.inj ht
    exact ⟨r.consume, rfl, .consume r⟩
  | trans _ _ ih ih' =>
    obtain ⟨r', hs', hfirst⟩ := ih hs
    obtain ⟨r'', hs'', hlater⟩ := ih' hs'
    exact ⟨r'', hs'', hfirst.trans hlater⟩
  | undone hsave _ ih =>
    subst hs
    obtain ⟨r', rfl, hinner⟩ := ih rfl
    rw [save_replay hsave] at hinner
    exact ⟨r'.restore.state, rfl, hinner.restored⟩
  | kept hsave _ ih =>
    subst hs
    obtain ⟨r', rfl, hinner⟩ := ih rfl
    rw [save_replay hsave] at hinner
    exact ⟨r'.abandon.state, rfl, hinner.abandoned⟩

/-! ## how much can be taken -/

/-- The lexer stands in its source; the end mark of the replay is one. -/
def Sound : Stream → Prop
  | live lx => lx.cursor.Within lx.source
  | replay r => r.endMark.isEnd = true

/-- Whatever was done with a lexer, it stands in its source. -/
theorem sound_run (source : String) (preferences : LexicalPreferences) (p : Option Preprocessor)
    (ops : List Op) :
    (live (((Lexer.ofSource source preferences).withPreprocessor p).run ops)).Sound := by
  show Cursor.Within _ (Lexer.source _)
  rw [Lexer.source_run]
  exact (Lexer.grounded_run source preferences p ops).place.1

theorem Takes.length_live (h : s.Takes ts s') {lx : Lexer} (hs : s = .live lx)
    (hcontent : ∀ t ∈ ts, t.isEnd = false) : ts.length ≤ lx.workLeft := by
  induction h generalizing lx with
  | nil => exact Nat.zero_le _
  | @cons s s' t ts ht _ ih =>
    subst hs
    obtain ⟨hend, hcontent⟩ := List.forall_mem_cons.mp hcontent
    have hnext : (live lx).peek.state.consume.state = live (lx.peek.state.consumed t) := by
      show live lx.peek.state.consume.state = _
      rw [@Lexer.consume_peek lx t ht]
      rfl
    exact Nat.lt_of_le_of_lt (ih hnext hcontent) (Lexer.workLeft_consumed ht hend)

theorem Takes.length_replay (h : s.Takes ts s') {r : Replay} (hs : s = .replay r)
    (hmark : r.endMark.isEnd = true) (hcontent : ∀ t ∈ ts, t.isEnd = false) :
    ts.length ≤ r.rest.length := by
  induction h generalizing r with
  | nil => exact Nat.zero_le _
  | @cons s s' t ts ht _ ih =>
    subst hs
    obtain ⟨hend, hlater⟩ := List.forall_mem_cons.mp hcontent
    obtain ⟨rest, saved, mark⟩ := r
    obtain rfl := Except.ok.inj ht
    cases rest with
    | nil => exact absurd (hmark.symm.trans hend) (by decide)
    | cons u rest => exact Nat.succ_le_succ (@ih ⟨rest, saved, mark⟩ rfl hmark hlater)

/-- A loop that takes a token at every turn has turns enough for the tokens before an end mark. -/
theorem Takes.length_lt_budget (h : s.Takes ts s') (hsound : s.Sound)
    (hcontent : ∀ t ∈ ts, t.isEnd = false) : ts.length < s.budget := by
  cases s with
  | live lx =>
    have hlength := h.length_live rfl hcontent
    have hwithin := congrArg List.length (show lx.cursor.Within lx.source from hsound).text
    rw [List.length_append] at hwithin
    show _ < 16 * (lx.source.length + 1)
    unfold Lexer.workLeft Lexer.unread at hlength
    split at hlength <;> omega
  | replay r => exact Nat.lt_of_le_of_lt (h.length_replay rfl hsound hcontent) (budget_replay r)

end Stream

/-! ## parsers and their streams -/

section

variable {υ : Type} {x x' : Session υ} {t : Token}

theorem peek_ends : Parser.peek.Ends x t x' ↔
    x.stream.peek.result = .ok t ∧ { x with stream := x.stream.peek.state } = x' := Iff.rfl

theorem consume_ends {u : Unit} : Parser.consume.Ends x u x' ↔
    x.stream.consume.result = .ok u ∧ { x with stream := x.stream.consume.state } = x' := Iff.rfl

/-- Taking a token is a look at it and one step behind it. -/
theorem next_ends : Parser.next.Ends x t x' ↔ x.stream.peek.result = .ok t ∧
    { x with stream := x.stream.peek.state.consume.state } = x' := by
  unfold Parser.next
  simp only [ends_bind, ends_pure, peek_ends, consume_ends]
  constructor
  · rintro ⟨t', _, ⟨ht, rfl⟩, u, _, ⟨-, rfl⟩, rfl, rfl⟩
    exact ⟨ht, rfl⟩
  · rintro ⟨ht, rfl⟩
    exact ⟨t, _, ⟨ht, rfl⟩, (), _, ⟨Stream.consume_peeked ht, rfl⟩, rfl, rfl⟩

/-- The mark is taken if it comes next. -/
theorem tryMark_ends {c : Char} {found : Bool} (h : (Grammar.tryMark c).Ends x found x') :
    ∃ t, x.stream.peek.result = .ok t ∧ t.isMark c = found ∧
      x'.stream = if found then x.stream.peek.state.consume.state else x.stream.peek.state := by
  obtain ⟨t?, y, htry, h⟩ := ends_bind.mp h
  obtain ⟨rfl, rfl⟩ := ends_pure.mp h
  obtain ⟨t, z, hlook, h⟩ := ends_bind.mp htry
  obtain ⟨hpeek, rfl⟩ := peek_ends.mp hlook
  refine ⟨t, hpeek, ?_⟩
  split at h
  · next hmark =>
    obtain ⟨u, w, hconsume, h⟩ := ends_bind.mp h
    obtain ⟨-, rfl⟩ := consume_ends.mp hconsume
    obtain ⟨rfl, rfl⟩ := ends_pure.mp h
    exact ⟨hmark, rfl⟩
  · next hmark =>
    obtain ⟨rfl, rfl⟩ := ends_pure.mp h
    exact ⟨eq_false_of_ne_true hmark, rfl⟩

end

/-! ## loops -/

section

variable {υ β γ : Type} {body : β → Parser υ (β ⊕ γ)} {goes : List Token → β → Session υ → Prop}
  (hmore : ∀ ts b b' x x', goes ts b x → (body b).Ends x (.inl b') x' →
    ∃ us, x.stream.Takes us x'.stream ∧ goes (ts ++ us) b' x')
  {ts : List Token} {b : β} {x : Session υ} (hgoes : goes ts b x) {turns : Nat}
include hmore hgoes

/-- A loop that ends: an invariant of the tokens taken so far holds at every turn, so it does at the
last one. -/
theorem repeatFor_ends {c : γ} {x' : Session υ}
    (h : (Parser.repeatFor body turns b).Ends x c x') :
    ∃ us b' y, x.stream.Takes us y.stream ∧ goes (ts ++ us) b' y ∧ (body b').Ends y (.inr c) x' := by
  induction turns generalizing ts b x with
  | zero => cases h.1
  | succ turns ih =>
    obtain ⟨r, y, hbody, hlater⟩ := ends_bind.mp h
    cases r with
    | inl b' =>
      obtain ⟨us, htaken, hgoes'⟩ := hmore ts b b' x y hgoes hbody
      obtain ⟨vs, b'', z, htaken', hgoes'', hlast⟩ := ih hgoes' hlater
      exact ⟨us ++ vs, b'', z, htaken.trans htaken', by rwa [← List.append_assoc], hlast⟩
    | inr c' =>
      obtain ⟨rfl, rfl⟩ := ends_pure.mp hlater
      exact ⟨[], b, x, .nil _, by rwa [List.append_nil], hbody⟩

/-- A loop that meets an error of the source meets it at some turn. -/
theorem repeatFor_fails {e : SourceError}
    (h : (Parser.repeatFor body turns b x).result = .error (.source e)) :
    ∃ us b' y, x.stream.Takes us y.stream ∧ goes (ts ++ us) b' y ∧
      (body b' y).result = .error (.source e) := by
  induction turns generalizing ts b x with
  | zero => cases h
  | succ turns ih =>
    rcases fails_bind.mp h with hbody | ⟨r, y, hbody, hlater⟩
    · exact ⟨[], b, x, .nil _, by rwa [List.append_nil], hbody⟩
    · cases r with
      | inl b' =>
        obtain ⟨us, htaken, hgoes'⟩ := hmore ts b b' x y hgoes hbody
        obtain ⟨vs, b'', z, htaken', hgoes'', hlast⟩ := ih hgoes' hlater
        exact ⟨us ++ vs, b'', z, htaken.trans htaken', by rwa [← List.append_assoc], hlast⟩
      | inr c => cases hlater

end

end HeaderLex
