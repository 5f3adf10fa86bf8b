import HeaderLex.Parser
import HeaderLex.Proofs.Service
import Mathlib.Data.List.Forall2

/-!
# Live and replayed streams

A lexer over a source that reads as some tokens, and a replay of these tokens, answer alike: the next
token is the same, or both are at their end marks, which may stand at different places.

* `Standing`         what is still to come from a stream, and from its checkpoints;
* `Matched`          a lexer and a replay at the same standing, with one lemma for each operation;
* `Agree`            two parsers on matched streams end alike, with matched streams;
* `Runs`             the same results, for parsers that leave the checkpoints as they were;
* `Runs.loop`        a loop whose turns consume tokens stalls on neither stream.
-/

namespace HeaderLex

open HeaderLex.Parser HeaderLex.Operation

/-! ## standings -/

/-- Where the end marks of a lexer and of a replay stand. -/
structure Ends where
  live : Position
  replay : Position

/-- A place in a stream: the tokens to come, and whether the next one was looked at. -/
structure Spot where
  looked : Bool
  rest : List Token

/-- Where a stream stands, and where it stood at its checkpoints, newest first. -/
structure Standing extends Spot where
  saved : List Spot

/-- The place of a lexer is this spot. -/
structure Spot.Holds (stop : Position) (spot : Spot) (c : Cursor) (p : Option Peeked) : Prop where
  serves : Serves stop c p spot.rest
  looked : spot.looked = true → p.isSome = true

/-- A lexer and a replay stand alike. -/
structure Matched (ends : Ends) (σ : Standing) (lx : Lexer) (r : Replay) : Prop where
  bare : lx.preprocessor = none
  place : σ.toSpot.Holds ends.live lx.cursor lx.current
  checkpoints : List.Forall₂ (fun spot s => spot.Holds ends.live s.cursor s.current) σ.saved lx.saved
  rest : r.rest = σ.rest
  saved : r.saved = σ.saved.map Spot.rest
  endMark : r.endMark.IsEndAt ends.replay
  /-- A source has more characters than tokens. -/
  fits : σ.rest.length ≤ lx.source.length
  checkpointsFit : ∀ spot ∈ σ.saved, spot.rest.length ≤ lx.source.length

/-- The tokens that matched streams show. -/
structure Seen (ends : Ends) (σ : Standing) (t u : Token) : Prop where
  live : Shows ends.live σ.rest t
  replay : Shows ends.replay σ.rest u

namespace Standing

/-- The next token was looked at. -/
def looking (σ : Standing) : Standing := ⟨⟨true, σ.rest⟩, σ.saved⟩

/-- The next token was consumed. -/
def behind (σ : Standing) : Standing := ⟨⟨false, σ.rest.tail⟩, σ.saved⟩

/-- A checkpoint was set. -/
def marked (σ : Standing) : Standing := ⟨σ.toSpot, σ.toSpot :: σ.saved⟩

/-- The checkpoints are the same, and no token has come back. -/
structure Keeps (σ σ' : Standing) : Prop where
  saved : σ'.saved = σ.saved
  shorter : σ'.rest.length ≤ σ.rest.length

theorem Keeps.refl (σ : Standing) : σ.Keeps σ := ⟨rfl, Nat.le_refl _⟩

theorem Keeps.trans {σ σ' σ'' : Standing} (h : σ.Keeps σ') (h' : σ'.Keeps σ'') : σ.Keeps σ'' :=
  ⟨h'.saved.trans h.saved, Nat.le_trans h'.shorter h.shorter⟩

theorem keeps_looking (σ : Standing) : σ.Keeps σ.looking := ⟨rfl, Nat.le_refl _⟩

theorem keeps_behind (σ : Standing) : σ.Keeps σ.behind := by
  refine ⟨rfl, ?_⟩
  show σ.rest.tail.length ≤ σ.rest.length
  rw [List.length_tail]
  exact Nat.sub_le _ _

end Standing

/-! ## the operations of matched streams -/

namespace Matched

variable {ends : Ends} {σ : Standing} {lx : Lexer} {r : Replay}

theorem peek (h : Matched ends σ lx r) : ∃ t, lx.peek.result = .ok t ∧ Seen ends σ t r.peek ∧
    Matched ends σ.looking lx.peek.state r := by
  obtain ⟨p, hresult, hshows, hserves, hcurrent⟩ := h.place.serves.peek h.bare
  have hreplay : Shows ends.replay σ.rest r.peek := by
    unfold Replay.peek
    rw [h.rest]
    obtain ⟨hnil, -⟩ | ⟨hkind, ts, hcons⟩ := hshows
    · rw [hnil]
      exact .inl ⟨rfl, h.endMark⟩
    · rw [hcons]
      exact .inr ⟨hkind, ts, rfl⟩
  obtain ⟨hbare, hsaved, hsource⟩ : lx.peek.state.preprocessor = none ∧
      lx.peek.state.saved = lx.saved ∧ lx.peek.state.source = lx.source := by
    cases hc : lx.current with
    | some q =>
      rw [Lexer.peek_of_current hc]
      exact ⟨h.bare, rfl, rfl⟩
    | none =>
      obtain ⟨q, -, -, hstate⟩ := Lexer.peek_fresh hc hresult
      rw [hstate]
      exact ⟨Lexer.stable_bare.lexToken h.bare, Lexer.saved_lexToken lx,
        congrArg Lexer.Ledger.source (Lexer.ledger_lexToken lx)⟩
  refine ⟨p.token, hresult, ⟨hshows, hreplay⟩, hbare, ⟨?_, ?_⟩, ?_, h.rest, h.saved, h.endMark, ?_, ?_⟩
  · rw [hcurrent]
    exact hserves
  · rw [hcurrent]
    exact fun _ => rfl
  · rw [hsaved]
    exact h.checkpoints
  · rw [hsource]
    exact h.fits
  · rw [hsource]
    exact h.checkpointsFit

theorem consume (h : Matched ends σ lx r) (hlooked : σ.looked = true) :
    ∃ t, lx.consume = .ok () (lx.consumed t) ∧ Matched ends σ.behind (lx.consumed t) r.consume := by
  obtain ⟨p, hcurrent⟩ := Option.isSome_iff_exists.1 (h.place.looked hlooked)
  have hserves := h.place.serves
  rw [hcurrent] at hserves
  refine ⟨p.token, ?_, h.bare, ⟨hserves.consumed, fun hfalse => by cases hfalse⟩, h.checkpoints, ?_,
    h.saved, h.endMark, Nat.le_trans σ.keeps_behind.shorter h.fits, h.checkpointsFit⟩
  · unfold Lexer.consume
    rw [hcurrent]
  · show r.rest.tail = σ.rest.tail
    rw [h.rest]

/-- A replay has room for fewer checkpoints than a lexer. -/
theorem save (h : Matched ends σ lx r) (hroom : σ.saved.length < maxReplayCheckpoints) :
    lx.save.result = .ok () ∧ r.save.result = .ok () ∧
      Matched ends σ.marked lx.save.state r.save.state := by
  have hlive : lx.saved.length < maxCheckpoints := by
    rw [← h.checkpoints.length_eq]
    exact Nat.lt_of_lt_of_le hroom (by decide)
  have hreplay : r.saved.length < maxReplayCheckpoints := by
    rw [h.saved, List.length_map]
    exact hroom
  unfold Lexer.save Replay.save
  rw [if_neg (Nat.not_le.2 hlive), if_neg (Nat.not_le.2 hreplay)]
  refine ⟨rfl, rfl, ?_, h.place, .cons h.place h.checkpoints, h.rest, ?_, h.endMark, h.fits, ?_⟩
  · show lx.preprocessor.map _ = none
    rw [h.bare]
    rfl
  · show r.rest :: r.saved = σ.rest :: σ.saved.map Spot.rest
    rw [h.rest, h.saved]
  · intro spot hspot
    rcases List.mem_cons.1 hspot with rfl | hspot
    · exact h.fits
    · exact h.checkpointsFit spot hspot

theorem restore (h : Matched ends σ lx r) {spot : Spot} {saved : List Spot}
    (hsaved : σ.saved = spot :: saved) :
    lx.restore.result = .ok () ∧ r.restore.result = .ok () ∧
      Matched ends ⟨spot, saved⟩ lx.restore.state r.restore.state := by
  have hcheckpoints := h.checkpoints
  have hreplay := h.saved
  have hfit := h.checkpointsFit
  rw [hsaved] at hcheckpoints hreplay hfit
  obtain ⟨s, older, hspot, holder, hlive⟩ := List.forall₂_cons_left_iff.1 hcheckpoints
  unfold Lexer.restore Replay.restore
  rw [hlive, hreplay]
  refine ⟨rfl, rfl, ?_, hspot, holder, rfl, rfl, h.endMark, hfit spot List.mem_cons_self,
    fun other hother => hfit other (List.mem_cons_of_mem _ hother)⟩
  show lx.preprocessor.map _ = none
  rw [h.bare]
  rfl

theorem abandon (h : Matched ends σ lx r) {spot : Spot} {saved : List Spot}
    (hsaved : σ.saved = spot :: saved) :
    lx.abandon.result = .ok () ∧ r.abandon.result = .ok () ∧
      Matched ends ⟨σ.toSpot, saved⟩ lx.abandon.state r.abandon.state := by
  have hcheckpoints := h.checkpoints
  have hreplay := h.saved
  have hfit := h.checkpointsFit
  rw [hsaved] at hcheckpoints hreplay hfit
  obtain ⟨s, older, -, holder, hlive⟩ := List.forall₂_cons_left_iff.1 hcheckpoints
  unfold Lexer.abandon Replay.abandon
  rw [hlive, hreplay]
  refine ⟨rfl, rfl, ?_, h.place, holder, h.rest, rfl, h.endMark, h.fits,
    fun other hother => hfit other (List.mem_cons_of_mem _ hother)⟩
  show lx.preprocessor.map _ = none
  rw [h.bare]
  rfl

end Matched

/-! ## parsers on matched streams -/

/-- Sessions that differ in their streams, which are matched. -/
structure Met {υ : Type} (ends : Ends) (σ : Standing) (s s' : Session υ) : Prop where
  streams : ∃ lx r, s.stream = .live lx ∧ s'.stream = .replay r ∧ Matched ends σ lx r
  arena : s'.arena = s.arena
  user : s'.user = s.user

/-- The same failure, but for the place of an end mark. -/
def Failure.Alike (ends : Ends) (f g : Failure) : Prop :=
  f = g ∨ ∃ cause, f = .source ⟨cause, ends.live⟩ ∧ g = .source ⟨cause, ends.replay⟩

/-- From sessions that stand alike the parsers both give a result or both fail, with sessions that
stand alike again. -/
def Agree {υ α β : Type} (ends : Ends) (σ : Standing) (p : Parser υ α) (q : Parser υ β)
    (Q : Standing → α → β → Prop) (E : Standing → Failure → Failure → Prop) : Prop :=
  ∀ ⦃s s' : Session υ⦄, Met ends σ s s' → ∃ σ', Met ends σ' (p s).state (q s').state ∧
    ((∃ a b, (p s).result = .ok a ∧ (q s').result = .ok b ∧ Q σ' a b) ∨
      ∃ f g, (p s).result = .error f ∧ (q s').result = .error g ∧ E σ' f g)

namespace Agree

variable {υ α β γ δ : Type} {ends : Ends} {σ : Standing} {p : Parser υ α} {q : Parser υ β}
  {Q Q' : Standing → α → β → Prop} {E E' : Standing → Failure → Failure → Prop}

theorem mono (h : Agree ends σ p q Q E) (hok : ∀ σ' a b, Q σ' a b → Q' σ' a b)
    (herr : ∀ σ' f g, E σ' f g → E' σ' f g) : Agree ends σ p q Q' E' := by
  intro s s' hmet
  obtain ⟨σ', hmet', ⟨a, b, ha, hb, hq⟩ | ⟨f, g, hf, hg, he⟩⟩ := h hmet
  · exact ⟨σ', hmet', .inl ⟨a, b, ha, hb, hok σ' a b hq⟩⟩
  · exact ⟨σ', hmet', .inr ⟨f, g, hf, hg, herr σ' f g he⟩⟩

theorem pure {a : α} {b : β} (h : Q σ a b) :
    Agree ends σ (Pure.pure a : Parser υ α) (Pure.pure b : Parser υ β) Q E :=
  fun _ _ hmet => ⟨σ, hmet, .inl ⟨a, b, rfl, rfl, h⟩⟩

theorem bind {f : α → Parser υ γ} {g : β → Parser υ δ} {R : Standing → γ → δ → Prop}
    (h : Agree ends σ p q Q E') (hok : ∀ σ' a b, Q σ' a b → Agree ends σ' (f a) (g b) R E)
    (herr : ∀ σ' f g, E' σ' f g → E σ' f g) : Agree ends σ (p >>= f) (q >>= g) R E := by
  intro s s' hmet
  obtain ⟨σ', hmet', ⟨a, b, ha, hb, hq⟩ | ⟨e, e', he, he', hfail⟩⟩ := h hmet
  · obtain ⟨σ'', hmet'', hends⟩ := hok σ' a b hq hmet'
    refine ⟨σ'', ?_⟩
    rw [bind_apply, bind_apply, ha, hb]
    exact ⟨hmet'', hends⟩
  · refine ⟨σ', ?_⟩
    rw [bind_apply, bind_apply, he, he']
    exact ⟨hmet', .inr ⟨e, e', rfl, rfl, herr σ' e e' hfail⟩⟩

/-- The first parser cannot fail. -/
theorem andThen {f : α → Parser υ γ} {g : β → Parser υ δ} {R : Standing → γ → δ → Prop}
    (h : Agree ends σ p q Q fun _ _ _ => False)
    (hok : ∀ σ' a b, Q σ' a b → Agree ends σ' (f a) (g b) R E) :
    Agree ends σ (p >>= f) (q >>= g) R E :=
  h.bind hok fun _ _ _ => False.elim

theorem fail {f g : Failure} (h : E σ f g) :
    Agree ends σ (Operation.fail f : Parser υ α) (Operation.fail g : Parser υ β) Q E :=
  fun _ _ hmet => ⟨σ, hmet, .inr ⟨f, g, rfl, rfl, h⟩⟩

theorem refuse {e e' : SourceError} (h : E σ (.source e) (.source e')) :
    Agree ends σ (Operation.refuse e : Parser υ α) (Operation.refuse e' : Parser υ β) Q E :=
  fun _ _ hmet => ⟨σ, hmet, .inr ⟨_, _, rfl, rfl, h⟩⟩

theorem log (event event' : Event) :
    Agree ends σ (Operation.log event : Parser υ Unit) (Operation.log event' : Parser υ Unit)
      (fun σ' _ _ => σ' = σ) E :=
  fun _ _ hmet => ⟨σ, hmet, .inl ⟨(), (), rfl, rfl, rfl⟩⟩

theorem user : Agree ends σ (Parser.user : Parser υ υ) Parser.user
    (fun σ' u v => σ' = σ ∧ u = v) E :=
  fun _ _ hmet => ⟨σ, hmet, .inl ⟨_, _, rfl, rfl, rfl, hmet.user.symm⟩⟩

theorem modifyUser (f : υ → υ) : Agree ends σ (Parser.modifyUser f) (Parser.modifyUser f)
    (fun σ' _ _ => σ' = σ) E :=
  fun _ _ hmet =>
    ⟨σ, ⟨hmet.streams, hmet.arena, congrArg f hmet.user⟩, .inl ⟨(), (), rfl, rfl, rfl⟩⟩

/-- The arenas are the same, so what is done with them is the same. -/
theorem onArena (f : Arena → Outcome Arena α) :
    Agree ends σ (Parser.onArena f : Parser υ α) (Parser.onArena f : Parser υ α)
      (fun σ' a b => σ' = σ ∧ a = b) (fun σ' e e' => σ' = σ ∧ e = e') := by
  intro s s' hmet
  have hsame : f s'.arena = f s.arena := congrArg f hmet.arena
  refine ⟨σ, ⟨hmet.streams, congrArg Outcome.state hsame, hmet.user⟩, ?_⟩
  cases hr : (f s.arena).result with
  | ok a => exact .inl ⟨a, a, hr, (congrArg Outcome.result hsame).trans hr, rfl, rfl⟩
  | error e => exact .inr ⟨e, e, hr, (congrArg Outcome.result hsame).trans hr, rfl, rfl⟩

/-! ### the stream -/

theorem peek : Agree ends σ (Parser.peek : Parser υ Token) Parser.peek
    (fun σ' t u => σ' = σ.looking ∧ Seen ends σ t u) E := by
  rintro ⟨_, arena, user⟩ ⟨_, _, _⟩ ⟨⟨lx, r, rfl, rfl, hmatched⟩, rfl, rfl⟩
  obtain ⟨t, hresult, hseen, hmatched'⟩ := hmatched.peek
  exact ⟨σ.looking, ⟨⟨_, _, rfl, rfl, hmatched'⟩, rfl, rfl⟩,
    .inl ⟨t, r.peek, hresult, rfl, rfl, hseen⟩⟩

theorem consume (hlooked : σ.looked = true) : Agree ends σ (Parser.consume : Parser υ Unit)
    Parser.consume (fun σ' _ _ => σ' = σ.behind) E := by
  rintro ⟨_, arena, user⟩ ⟨_, _, _⟩ ⟨⟨lx, r, rfl, rfl, hmatched⟩, rfl, rfl⟩
  obtain ⟨t, hresult, hmatched'⟩ := hmatched.consume hlooked
  refine ⟨σ.behind, ⟨⟨lx.consumed t, _, ?_, rfl, hmatched'⟩, rfl, rfl⟩, .inl ⟨(), (), ?_, rfl, rfl⟩⟩
  · show Stream.live lx.consume.state = _
    rw [hresult]
    rfl
  · show lx.consume.result = _
    rw [hresult]
    rfl

theorem next : Agree ends σ (Parser.next : Parser υ Token) Parser.next
    (fun σ' t u => σ' = σ.behind ∧ Seen ends σ t u) E := by
  apply peek.andThen
  rintro _ t u ⟨rfl, hseen⟩
  apply (consume rfl).andThen
  rintro _ _ _ rfl
  exact .pure ⟨rfl, hseen⟩

theorem save (hroom : σ.saved.length < maxReplayCheckpoints) :
    Agree ends σ (Parser.save : Parser υ Unit) Parser.save (fun σ' _ _ => σ' = σ.marked) E := by
  rintro ⟨_, arena, user⟩ ⟨_, _, _⟩ ⟨⟨lx, r, rfl, rfl, hmatched⟩, rfl, rfl⟩
  obtain ⟨hlive, hreplay, hmatched'⟩ := hmatched.save hroom
  exact ⟨_, ⟨⟨_, _, rfl, rfl, hmatched'⟩, rfl, rfl⟩, .inl ⟨(), (), hlive, hreplay, rfl⟩⟩

theorem restore {spot : Spot} {saved : List Spot} (hsaved : σ.saved = spot :: saved) :
    Agree ends σ (Parser.restore : Parser υ Unit) Parser.restore
      (fun σ' _ _ => σ' = ⟨spot, saved⟩) E := by
  rintro ⟨_, arena, user⟩ ⟨_, _, _⟩ ⟨⟨lx, r, rfl, rfl, hmatched⟩, rfl, rfl⟩
  obtain ⟨hlive, hreplay, hmatched'⟩ := hmatched.restore hsaved
  exact ⟨_, ⟨⟨_, _, rfl, rfl, hmatched'⟩, rfl, rfl⟩, .inl ⟨(), (), hlive, hreplay, rfl⟩⟩

theorem abandon {spot : Spot} {saved : List Spot} (hsaved : σ.saved = spot :: saved) :
    Agree ends σ (Parser.abandon : Parser υ Unit) Parser.abandon
      (fun σ' _ _ => σ' = ⟨σ.toSpot, saved⟩) E := by
  rintro ⟨_, arena, user⟩ ⟨_, _, _⟩ ⟨⟨lx, r, rfl, rfl, hmatched⟩, rfl, rfl⟩
  obtain ⟨hlive, hreplay, hmatched'⟩ := hmatched.abandon hsaved
  exact ⟨_, ⟨⟨_, _, rfl, rfl, hmatched'⟩, rfl, rfl⟩, .inl ⟨(), (), hlive, hreplay, rfl⟩⟩

/-! ### failures as results, and more state -/

theorem attempt (h : Agree ends σ p q Q E) (halike : ∀ σ' f g, E σ' f g → Failure.Alike ends f g) :
    Agree ends σ p.attempt q.attempt
      (fun σ' x y => (∃ a b, x = .ok a ∧ y = .ok b ∧ Q σ' a b) ∨
        ∃ e e', x = .error e ∧ y = .error e' ∧ E σ' (.source e) (.source e')) E := by
  intro s s' hmet
  obtain ⟨σ', hmet', hends⟩ := h hmet
  refine ⟨σ', hmet', ?_⟩
  unfold Operation.attempt
  dsimp only
  obtain ⟨a, b, ha, hb, hq⟩ | ⟨f, g, hf, hg, he⟩ := hends
  · rw [ha, hb]
    exact .inl ⟨_, _, rfl, rfl, .inl ⟨a, b, rfl, rfl, hq⟩⟩
  · rw [hf, hg]
    obtain rfl | ⟨cause, rfl, rfl⟩ := halike σ' f g he
    · cases f with
      | source e => exact .inl ⟨_, _, rfl, rfl, .inr ⟨e, e, rfl, rfl, he⟩⟩
      | misuse m => exact .inr ⟨_, _, rfl, rfl, he⟩
      | fault c => exact .inr ⟨_, _, rfl, rfl, he⟩
    · exact .inl ⟨_, _, rfl, rfl, .inr ⟨_, _, rfl, rfl, he⟩⟩

theorem withState {δ : Type} {p : Parser (υ × δ) α} {q : Parser (υ × δ) β} (init : δ)
    (h : Agree ends σ p q Q E) : Agree ends σ (Parser.withState init p) (Parser.withState init q)
      (fun σ' x y => Q σ' x.1 y.1 ∧ x.2 = y.2) E := by
  intro s s' hmet
  have hmet₀ : Met ends σ (⟨s.stream, s.arena, (s.user, init)⟩ : Session (υ × δ))
      ⟨s'.stream, s'.arena, (s'.user, init)⟩ :=
    ⟨hmet.streams, hmet.arena, congrArg (·, init) hmet.user⟩
  obtain ⟨σ', hmet', hends⟩ := h hmet₀
  refine ⟨σ', ⟨hmet'.streams, hmet'.arena, congrArg Prod.fst hmet'.user⟩, ?_⟩
  unfold Parser.withState
  dsimp only
  obtain ⟨a, b, ha, hb, hq⟩ | ⟨f, g, hf, hg, he⟩ := hends
  · rw [ha, hb]
    exact .inl ⟨_, _, rfl, rfl, hq, congrArg Prod.snd hmet'.user.symm⟩
  · rw [hf, hg]
    exact .inr ⟨f, g, rfl, rfl, he⟩

end Agree

/-! ## the same results -/

namespace Seen

variable {ends : Ends} {σ : Standing} {t u : Token}

/-- Matched streams show the same token, or both their end marks. -/
theorem cases (h : Seen ends σ t u) :
    (σ.rest = [] ∧ t.IsEndAt ends.live ∧ u.IsEndAt ends.replay) ∨
      t.isEnd = false ∧ u = t ∧ ∃ ts, σ.rest = t :: ts := by
  obtain ⟨hnil, hlive⟩ | ⟨hkind, ts, hcons⟩ := h.live
  · obtain ⟨-, hreplay⟩ | ⟨-, us, hcons⟩ := h.replay
    · exact .inl ⟨hnil, hlive, hreplay⟩
    · rw [hnil] at hcons
      cases hcons
  · obtain ⟨hnil, -⟩ | ⟨-, us, hcons'⟩ := h.replay
    · rw [hnil] at hcons
      cases hcons
    · rw [hcons] at hcons'
      exact .inr ⟨hkind, (List.cons.inj hcons').1.symm, ts, hcons⟩

end Seen

theorem Token.IsEndAt.isEnd {t : Token} {stop : Position} (h : t.IsEndAt stop) : t.isEnd = true := by
  unfold Token.isEnd
  rw [h.kind]
  rfl

/-- The parsers give the same result or fail alike, and the checkpoints are as they were.  Fewer than
`n` tokens are left after a result that says that something was `taken`. -/
def Runs {υ α : Type} (ends : Ends) (σ : Standing) (n : Nat) (p q : Parser υ α) (taken : α → Prop) :
    Prop :=
  Agree ends σ p q (fun σ' a b => σ.Keeps σ' ∧ a = b ∧ (taken a → σ'.rest.length < n))
    (fun σ' f g => σ.Keeps σ' ∧ Failure.Alike ends f g)

namespace Runs

variable {υ α β γ : Type} {ends : Ends} {σ : Standing} {n : Nat} {taken : α → Prop}

theorem pure {a : α} (h : taken a → σ.rest.length < n) :
    Runs ends σ n (Pure.pure a : Parser υ α) (Pure.pure a) taken :=
  Agree.pure ⟨.refl σ, rfl, h⟩

theorem refuse {e e' : SourceError} (h : Failure.Alike ends (.source e) (.source e')) :
    Runs ends σ n (Operation.refuse e : Parser υ α) (Operation.refuse e') taken :=
  Agree.refuse ⟨.refl σ, h⟩

/-- After something that keeps the checkpoints, the rest of a parser. -/
theorem after {p q : Parser υ β} {Q : Standing → β → β → Prop}
    {E : Standing → Failure → Failure → Prop} {f g : β → Parser υ α}
    (h : Agree ends σ p q Q E) (hok : ∀ σ' a b, Q σ' a b → σ.Keeps σ' ∧
      Runs ends σ' n (f a) (g b) taken)
    (herr : ∀ σ' e e', E σ' e e' → σ.Keeps σ' ∧ Failure.Alike ends e e') :
    Runs ends σ n (p >>= f) (q >>= g) taken := by
  apply h.bind
  · intro σ' a b hq
    obtain ⟨hkeeps, hruns⟩ := hok σ' a b hq
    apply hruns.mono
    · exact fun σ'' a b ⟨hkeeps', heq, htaken⟩ => ⟨hkeeps.trans hkeeps', heq, htaken⟩
    · exact fun σ'' e e' ⟨hkeeps', halike⟩ => ⟨hkeeps.trans hkeeps', halike⟩
  · exact herr

theorem bind {p q : Parser υ β} {before : β → Prop} {f g : β → Parser υ α}
    (h : Runs ends σ σ.rest.length p q before) (hf : ∀ σ' b, σ.Keeps σ' →
      (before b → σ'.rest.length < σ.rest.length) → Runs ends σ' n (f b) (g b) taken) :
    Runs ends σ n (p >>= f) (q >>= g) taken := by
  apply after h
  · rintro σ' b _ ⟨hkeeps, rfl, hbefore⟩
    exact ⟨hkeeps, hf σ' b hkeeps hbefore⟩
  · exact fun _ _ _ h => h

theorem weaken {p q : Parser υ α} {before : α → Prop} (h : Runs ends σ σ.rest.length p q before)
    (hn : ∀ a, taken a → (before a ∧ σ.rest.length ≤ n) ∨ σ.rest.length < n) :
    Runs ends σ n p q taken := by
  apply h.mono
  · rintro σ' a b ⟨hkeeps, heq, hbefore⟩
    refine ⟨hkeeps, heq, ?_⟩
    intro htaken
    obtain ⟨hb, hle⟩ | hlt := hn a htaken
    · exact Nat.lt_of_lt_of_le (hbefore hb) hle
    · exact Nat.lt_of_le_of_lt hkeeps.shorter hlt
  · exact fun _ _ _ h => h

/-! ### single tokens -/

theorem look {f g : Token → Parser υ α}
    (h : ∀ t u, Seen ends σ t u → Runs ends σ.looking n (f t) (g u) taken) :
    Runs ends σ n (Parser.peek >>= f) (Parser.peek >>= g) taken := by
  refine after (E := fun _ _ _ => False) Agree.peek ?_ (fun _ _ _ h => h.elim)
  rintro _ t u ⟨rfl, hseen⟩
  exact ⟨σ.keeps_looking, h t u hseen⟩

theorem take {f g : Unit → Parser υ α} (hlooked : σ.looked = true)
    (h : Runs ends σ.behind n (f ()) (g ()) taken) :
    Runs ends σ n (Parser.consume >>= f) (Parser.consume >>= g) taken := by
  refine after (E := fun _ _ _ => False) (Agree.consume hlooked) ?_ (fun _ _ _ h => h.elim)
  rintro _ _ _ rfl
  exact ⟨σ.keeps_behind, h⟩

theorem next {f g : Token → Parser υ α}
    (h : ∀ t u, Seen ends σ t u → Runs ends σ.behind n (f t) (g u) taken) :
    Runs ends σ n (Parser.next >>= f) (Parser.next >>= g) taken := by
  refine after (E := fun _ _ _ => False) Agree.next ?_ (fun _ _ _ h => h.elim)
  rintro _ t u ⟨rfl, hseen⟩
  exact ⟨σ.keeps_behind, h t u hseen⟩

/-! ### the end of a checkpoint -/

/-- Back at the checkpoint, everything is as it was. -/
theorem goBack {σ' : Standing} (hsaved : σ'.saved = σ.toSpot :: σ.saved) {a : α} (ha : ¬ taken a)
    {E : Standing → Failure → Failure → Prop} :
    Agree ends σ' (Parser.restore >>= fun _ => Pure.pure a : Parser υ α)
      (Parser.restore >>= fun _ => Pure.pure a)
      (fun σ'' a b => σ.Keeps σ'' ∧ a = b ∧ (taken a → σ''.rest.length < n)) E := by
  apply Agree.andThen (Agree.restore hsaved)
  rintro _ _ _ rfl
  exact .pure ⟨.refl σ, rfl, fun h => absurd h ha⟩

/-- The tokens after the checkpoint are consumed for good. -/
theorem goOn {σ' : Standing} (hsaved : σ'.saved = σ.toSpot :: σ.saved)
    (hshorter : σ'.rest.length ≤ σ.rest.length) {a : α} (ha : ¬ taken a)
    {E : Standing → Failure → Failure → Prop} :
    Agree ends σ' (Parser.abandon >>= fun _ => Pure.pure a : Parser υ α)
      (Parser.abandon >>= fun _ => Pure.pure a)
      (fun σ'' a b => σ.Keeps σ'' ∧ a = b ∧ (taken a → σ''.rest.length < n)) E := by
  apply Agree.andThen (Agree.abandon hsaved)
  rintro _ _ _ rfl
  exact .pure ⟨⟨rfl, hshorter⟩, rfl, fun h => absurd h ha⟩

/-! ### loops -/

theorem repeatFor {body body' : β → Parser υ (β ⊕ γ)}
    (hbody : ∀ σ' b, σ.Keeps σ' →
      Runs ends σ' σ'.rest.length (body b) (body' b) (fun r => r.isLeft = true))
    (turns turns' : Nat) {σ' : Standing} (b : β) (hkeeps : σ.Keeps σ') (hlong : σ'.rest.length < turns)
    (hlong' : σ'.rest.length < turns') :
    Runs ends σ' n (Parser.repeatFor body turns b) (Parser.repeatFor body' turns' b)
      (fun _ => False) := by
  induction turns generalizing turns' σ' b with
  | zero => exact absurd hlong (Nat.not_lt_zero _)
  | succ turns ih =>
    cases turns' with
    | zero => exact absurd hlong' (Nat.not_lt_zero _)
    | succ turns' =>
      apply (hbody σ' b hkeeps).bind
      intro σ'' r hkeeps' hprogress
      cases r with
      | inr c => exact .pure False.elim
      | inl b =>
        have hless : σ''.rest.length < σ'.rest.length := hprogress rfl
        exact ih turns' b (hkeeps.trans hkeeps') (by omega) (by omega)

/-- Every turn that is not the last one consumes a token, and there are more turns than tokens. -/
theorem loop {body body' : β → Parser υ (β ⊕ γ)} (hbody : ∀ σ' b, σ.Keeps σ' →
      Runs ends σ' σ'.rest.length (body b) (body' b) (fun r => r.isLeft = true)) (b : β) :
    Runs ends σ n (Parser.loop body b) (Parser.loop body' b) (fun _ => False) := by
  rintro ⟨_, arena, user⟩ ⟨_, _, _⟩ ⟨⟨lx, r, rfl, rfl, hmatched⟩, rfl, rfl⟩
  have hfits := hmatched.fits
  have hrest : r.rest.length = σ.rest.length := congrArg List.length hmatched.rest
  have hlive : σ.rest.length < (Stream.live lx).budget := by
    show _ < 16 * (lx.source.length + 1)
    omega
  have hreplay : σ.rest.length < (Stream.replay r).budget := by
    show _ < 16 * (r.rest.length + r.saved.flatten.length + 1)
    omega
  exact repeatFor hbody _ _ b (.refl σ) hlive hreplay ⟨⟨lx, r, rfl, rfl, hmatched⟩, rfl, rfl⟩

end Runs

/-! ## parsers that leave the stream alone -/

/-- The parser does the same on all matched streams, and does not move them. -/
def Still {υ α : Type} (p : Parser υ α) : Prop :=
  ∀ (ends : Ends) (σ : Standing), Agree ends σ p p (fun σ' a b => σ' = σ ∧ a = b)
    (fun σ' f g => σ' = σ ∧ f = g)

namespace Still

variable {υ α β : Type}

theorem pure (a : α) : Still (Pure.pure a : Parser υ α) := fun _ _ => .pure ⟨rfl, rfl⟩

theorem refuse (e : SourceError) : Still (Operation.refuse e : Parser υ α) :=
  fun _ _ => .refuse ⟨rfl, rfl⟩

theorem user : Still (Parser.user : Parser υ υ) := fun _ _ => Agree.user

theorem modifyUser (f : υ → υ) : Still (Parser.modifyUser f) :=
  fun _ _ => (Agree.modifyUser f).mono (fun _ _ _ h => ⟨h, rfl⟩) (fun _ _ _ h => h)

theorem onArena (f : Arena → Outcome Arena α) : Still (Parser.onArena f : Parser υ α) :=
  fun _ _ => Agree.onArena f

theorem bind {p : Parser υ α} {f : α → Parser υ β} (h : Still p) (hf : ∀ a, Still (f a)) :
    Still (p >>= f) := by
  intro ends σ
  apply (h ends σ).bind
  · rintro _ a _ ⟨rfl, rfl⟩
    exact hf a ends _
  · exact fun _ _ _ h => h

/-- What follows on streams that were not moved. -/
theorem runs {ends : Ends} {σ : Standing} {n : Nat} {taken : β → Prop} {p : Parser υ α}
    {f g : α → Parser υ β} (h : Still p) (hf : ∀ a, Runs ends σ n (f a) (g a) taken) :
    Runs ends σ n (p >>= f) (p >>= g) taken := by
  apply Runs.after (h ends σ)
  · rintro _ a _ ⟨rfl, rfl⟩
    exact ⟨.refl _, hf a⟩
  · rintro _ e _ ⟨rfl, rfl⟩
    exact ⟨.refl _, .inl rfl⟩

end Still

end HeaderLex
