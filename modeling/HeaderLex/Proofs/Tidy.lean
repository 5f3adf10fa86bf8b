import HeaderLex.Proofs.Compositional
import HeaderLex.Proofs.Run

/-!
# Parsers that end their checkpoints

A parser that sets a checkpoint must end it on every way out, with a result and with an error alike;
else there is one more checkpoint after the call than before it, and nobody ends that one.

* `returned`         the call came back to its caller, with a result or with an error of the source;
* `Stream.Rises`     how many checkpoints were added to a stream;
* `Tidy`             with room for some more checkpoints, a parser that comes back has added none;
* `Settles`          the same for a parser that ends a checkpoint set before it;
* `Tidy.bind`, `Tidy.loop`, ...   how such parsers are put together;
* `Tidy.bracket`     a checkpoint around a parser that ends it on every way out;
* `compositional_tidy`   so the routines of the grammar are tidy if the parsers they begin with are;
* `tidy_trySigned`, `tidy_tryQualifiedName`   the routines that set a checkpoint or catch an error.
-/

namespace HeaderLex

open HeaderLex.Parser HeaderLex.Operation HeaderLex.Grammar

/-- The call came back, with a result or with an error of the source; misuse and faults end the
computation. -/
def returned {α : Type} : Except Failure α → Bool
  | .ok _ | .error (.source _) => true
  | .error (.misuse _) | .error (.fault _) => false

/-! ## checkpoints of a stream -/

namespace Stream

/-- The checkpoints that a stream may hold at once. -/
def capacity : Stream → Nat
  | live _ => maxCheckpoints
  | replay _ => maxReplayCheckpoints

/-- The later stream has `more` checkpoints than the earlier one, and as much room for them. -/
structure Rises (more : Nat) (s s' : Stream) : Prop where
  checkpoints : s'.checkpoints = s.checkpoints + more
  capacity : s'.capacity = s.capacity

variable {s s' s'' : Stream} {m n : Nat}

theorem Rises.refl (s : Stream) : s.Rises 0 s := ⟨rfl, rfl⟩

theorem Rises.trans (h : s.Rises m s') (h' : s'.Rises n s'') : s.Rises (m + n) s'' where
  checkpoints := by rw [h'.checkpoints, h.checkpoints, Nat.add_assoc]
  capacity := h'.capacity.trans h.capacity

/-- Each checkpoint takes some of the room. -/
theorem Rises.room {k : Nat} (h : s.Rises m s') (hroom : s.checkpoints + (k + m) ≤ s.capacity) :
    s'.checkpoints + k ≤ s'.capacity := by
  rw [h.checkpoints, h.capacity]
  omega

/-- Two ways to the same height. -/
theorem Rises.back (h : s.Rises m s'') (h' : s'.Rises m s'') : s.Rises 0 s' where
  checkpoints := by
    have heights := h.checkpoints.symm.trans h'.checkpoints
    omega
  capacity := h'.capacity.symm.trans h.capacity

theorem rises_peek (s : Stream) : s.Rises 0 s.peek.state := by
  cases s with
  | replay r => exact .refl _
  | live lx =>
    refine ⟨?_, rfl⟩
    show lx.peek.state.saved.length = lx.saved.length
    cases hc : lx.current with
    | some p => rw [Lexer.peek_of_current hc]; rfl
    | none => rw [Lexer.saved_peek hc]

theorem rises_consume (s : Stream) : s.Rises 0 s.consume.state := by
  cases s with
  | replay r => exact ⟨rfl, rfl⟩
  | live lx =>
    refine ⟨?_, rfl⟩
    show lx.consume.state.saved.length = lx.saved.length
    unfold Lexer.consume
    split <;> rfl

theorem rises_save (hroom : s.checkpoints + 1 ≤ s.capacity) :
    s.save.result = .ok () ∧ s.Rises 1 s.save.state := by
  cases s with
  | live lx =>
    have hsave : lx.save = _ := if_neg (Nat.not_le_of_lt hroom)
    show lx.save.result = .ok () ∧ Rises 1 (live lx) (live lx.save.state)
    rw [hsave]
    exact ⟨rfl, rfl, rfl⟩
  | replay r =>
    have hsave : r.save = _ := if_neg (Nat.not_le_of_lt hroom)
    show r.save.result = .ok () ∧ Rises 1 (replay r) (replay r.save.state)
    rw [hsave]
    exact ⟨rfl, rfl, rfl⟩

/-- Going back ends a checkpoint, unless there is none. -/
theorem rises_restore (s : Stream) (h : returned s.restore.result = true) :
    s.restore.state.Rises 1 s := by
  cases s with
  | live lx =>
    show Rises 1 (live lx.restore.state) (live lx)
    replace h : returned lx.restore.result = true := h
    unfold Lexer.restore at h ⊢
    cases hs : lx.saved with
    | nil =>
      rw [hs] at h
      cases h
    | cons c saved => exact ⟨congrArg List.length hs, rfl⟩
  | replay r =>
    show Rises 1 (replay r.restore.state) (replay r)
    replace h : returned r.restore.result = true := h
    unfold Replay.restore at h ⊢
    cases hs : r.saved with
    | nil =>
      rw [hs] at h
      cases h
    | cons c saved => exact ⟨congrArg List.length hs, rfl⟩

/-- So does forgetting it. -/
theorem rises_abandon (s : Stream) (h : returned s.abandon.result = true) :
    s.abandon.state.Rises 1 s := by
  cases s with
  | live lx =>
    show Rises 1 (live lx.abandon.state) (live lx)
    replace h : returned lx.abandon.result = true := h
    unfold Lexer.abandon at h ⊢
    cases hs : lx.saved with
    | nil =>
      rw [hs] at h
      cases h
    | cons c saved => exact ⟨congrArg List.length hs, rfl⟩
  | replay r =>
    show Rises 1 (replay r.abandon.state) (replay r)
    replace h : returned r.abandon.result = true := h
    unfold Replay.abandon at h ⊢
    cases hs : r.saved with
    | nil =>
      rw [hs] at h
      cases h
    | cons c saved => exact ⟨congrArg List.length hs, rfl⟩

end Stream

/-! ## the judgments -/

section

variable {υ α β γ : Type} {k : Nat}

/-- With room for `k` more checkpoints, the parser leaves as many checkpoints as it found whenever
it comes back. -/
def Tidy (k : Nat) (p : Parser υ α) : Prop :=
  ∀ s : Session υ, s.stream.checkpoints + k ≤ s.stream.capacity → returned (p s).result = true →
    s.stream.Rises 0 (p s).state.stream

/-- The same for a parser that is run above a checkpoint and has ended it whenever it comes back. -/
def Settles (k : Nat) (p : Parser υ α) : Prop :=
  ∀ s : Session υ, s.stream.checkpoints + k ≤ s.stream.capacity → returned (p s).result = true →
    (p s).state.stream.Rises 1 s.stream

/-- The parser reports no error of the source. -/
def Sure (p : Parser υ α) : Prop := ∀ s e, (p s).result ≠ .error (.source e)

theorem returned_error {e : Failure} (h : returned (.error e : Except Failure α) = true) :
    ∃ cause, e = .source cause := by
  cases e with
  | source cause => exact ⟨cause, rfl⟩
  | misuse cause => cases h
  | fault cause => cases h

namespace Tidy

variable {p : Parser υ α}

/-- A parser that leaves the stream alone. -/
theorem still (h : ∀ s, (p s).state.stream = s.stream) : Tidy k p := by
  intro s _ _
  rw [h s]
  exact .refl _

theorem pure (a : α) : Tidy k (Pure.pure a : Parser υ α) := still fun _ => rfl

theorem refuse (e : SourceError) : Tidy k (Operation.refuse e : Parser υ α) := still fun _ => rfl

theorem rethrow (e : SourceError) : Tidy k (Operation.rethrow e : Parser υ α) := still fun _ => rfl

theorem log (event : Event) : Tidy k (Operation.log event : Parser υ Unit) := still fun _ => rfl

theorem user : Tidy k (Parser.user : Parser υ υ) := still fun _ => rfl

theorem modifyUser (f : υ → υ) : Tidy k (Parser.modifyUser f) := still fun _ => rfl

theorem onArena (f : Arena → Outcome Arena α) : Tidy k (Parser.onArena f : Parser υ α) :=
  still fun _ => rfl

theorem peek : Tidy k (Parser.peek : Parser υ Token) := fun s _ _ => s.stream.rises_peek

theorem consume : Tidy k (Parser.consume : Parser υ Unit) := fun s _ _ => s.stream.rises_consume

/-- One parser after the other, whether the first one fails or not. -/
theorem bind {f : α → Parser υ β} (h : Tidy k p) (hf : ∀ a, Tidy k (f a)) :
    Tidy k (p >>= f) := by
  intro s hroom hreturned
  cases hr : (p s).result with
  | error e =>
    rw [bind_of_error hr] at hreturned ⊢
    obtain ⟨cause, rfl⟩ := returned_error hreturned
    exact h s hroom (by rw [hr]; rfl)
  | ok a =>
    rw [bind_of_ok hr] at hreturned ⊢
    have hp := h s hroom (by rw [hr]; rfl)
    exact hp.trans (hf a (p s).state (hp.room hroom) hreturned)

theorem next : Tidy k (Parser.next : Parser υ Token) :=
  peek.bind fun t => consume.bind fun _ => .pure t

theorem attempt (h : Tidy k p) : Tidy k (Operation.attempt p) := by
  intro s hroom hreturned
  apply h s hroom
  unfold Operation.attempt at hreturned
  dsimp only at hreturned
  cases hr : (p s).result with
  | ok a => rfl
  | error e =>
    cases e with
    | source cause => rfl
    | misuse cause =>
      rw [hr] at hreturned
      cases hreturned
    | fault cause =>
      rw [hr] at hreturned
      cases hreturned

theorem withState {p : Parser (υ × β) α} (init : β) (h : Tidy k p) :
    Tidy k (Parser.withState init p) := by
  intro s hroom hreturned
  apply h ⟨s.stream, s.arena, (s.user, init)⟩ hroom
  unfold Parser.withState at hreturned
  dsimp only at hreturned
  cases hr : (p ⟨s.stream, s.arena, (s.user, init)⟩).result with
  | ok a => rfl
  | error e =>
    rw [hr] at hreturned
    obtain ⟨cause, rfl⟩ := returned_error hreturned
    rfl

theorem repeatFor {body : β → Parser υ (β ⊕ γ)} (h : ∀ b, Tidy k (body b)) (turns : Nat) (b : β) :
    Tidy k (Parser.repeatFor body turns b) := by
  induction turns generalizing b with
  | zero => exact still fun _ => rfl
  | succ turns ih =>
    apply (h b).bind
    intro r
    cases r with
    | inl b => exact ih b
    | inr c => exact .pure c

/-- A loop is level if its turns are. -/
theorem loop {body : β → Parser υ (β ⊕ γ)} (h : ∀ b, Tidy k (body b)) (b : β) :
    Tidy k (Parser.loop body b) :=
  fun s => repeatFor h s.stream.budget b s

end Tidy

/-! ### brackets -/

namespace Settles

variable {p : Parser υ α}

theorem restore : Settles k (Parser.restore : Parser υ Unit) :=
  fun s _ hreturned => s.stream.rises_restore hreturned

theorem abandon : Settles k (Parser.abandon : Parser υ Unit) :=
  fun s _ hreturned => s.stream.rises_abandon hreturned

/-- The checkpoint is ended first. -/
theorem bind {f : α → Parser υ β} (h : Settles k p) (hf : ∀ a, Tidy k (f a)) :
    Settles k (p >>= f) := by
  intro s hroom hreturned
  cases hr : (p s).result with
  | error e =>
    rw [bind_of_error hr] at hreturned ⊢
    obtain ⟨cause, rfl⟩ := returned_error hreturned
    exact h s hroom (by rw [hr]; rfl)
  | ok a =>
    rw [bind_of_ok hr] at hreturned ⊢
    have hp := h s hroom (by rw [hr]; rfl)
    have hroom' : (p s).state.stream.checkpoints + k ≤ (p s).state.stream.capacity := by
      have hheight := hp.checkpoints
      rw [← hp.capacity]
      omega
    have hlater := hf a (p s).state hroom' hreturned
    exact ⟨hp.checkpoints.trans (congrArg (· + 1) hlater.checkpoints.symm),
      hp.capacity.trans hlater.capacity.symm⟩

/-- The checkpoint is ended later; until then nothing may fail. -/
theorem after {f : α → Parser υ β} (h : Tidy k p) (hsure : Sure p) (hf : ∀ a, Settles k (f a)) :
    Settles k (p >>= f) := by
  intro s hroom hreturned
  cases hr : (p s).result with
  | error e =>
    rw [bind_of_error hr] at hreturned
    obtain ⟨cause, rfl⟩ := returned_error hreturned
    exact absurd hr (hsure s cause)
  | ok a =>
    rw [bind_of_ok hr] at hreturned ⊢
    have hp := h s hroom (by rw [hr]; rfl)
    have hlater := hf a (p s).state (hp.room hroom) hreturned
    exact ⟨hp.checkpoints.symm.trans hlater.checkpoints, hp.capacity.symm.trans hlater.capacity⟩

end Settles

theorem sure_consume : Sure (Parser.consume : Parser υ Unit) := by
  intro s e
  show s.stream.consume.result ≠ _
  cases s.stream with
  | replay r => exact fun h => by cases h
  | live lx =>
    show lx.consume.result ≠ _
    unfold Lexer.consume
    split <;> exact fun h => by cases h

theorem sure_attempt (p : Parser υ α) : Sure (Operation.attempt p) := by
  intro s e
  unfold Operation.attempt
  dsimp only
  split <;> simp_all

theorem save_ok {s : Session υ} (hroom : s.stream.checkpoints < s.stream.capacity) :
    (Parser.save s).result = .ok () ∧ s.stream.Rises 1 (Parser.save s).state.stream :=
  s.stream.rises_save hroom

/-- A checkpoint, and a parser that ends it on every way out. -/
theorem Tidy.bracket {p : Parser υ α} (h : Settles k p) :
    Tidy (k + 1) (Parser.save >>= fun _ => p) := by
  intro s hroom hreturned
  obtain ⟨hsave, hrises⟩ := @save_ok υ s (by omega)
  rw [bind_of_ok hsave] at hreturned ⊢
  exact hrises.back (h (Parser.save s).state (hrises.room hroom) hreturned)

end

/-- The ways to put parsers together keep the checkpoints level. -/
theorem compositional_tidy (k : Nat) : Compositional (fun p => Tidy k p) where
  pure := .pure
  bind := .bind
  loop := .loop
  withState init _ := .withState init
  peek := .peek
  consume := .consume
  refuse := .refuse
  user := .user
  modifyUser := .modifyUser
  push _ _ := .onArena _

namespace Grammar

variable {υ α : Type} {k : Nat}

/-- The only checkpoint of the routines below: whatever comes after the sign, it is ended. -/
theorem tidy_trySigned (decode : Token → Option α) (negate : α → α) :
    Tidy (k + 1) (trySigned decode negate : Parser υ (Option α)) := by
  apply Tidy.peek.bind
  intro sign
  split
  · apply Tidy.bracket
    apply Settles.after .consume sure_consume
    intro _
    apply Settles.after ((compositional_tidy k).tryDecoded decode).attempt (sure_attempt _)
    intro value
    split
    · exact Settles.abandon.bind fun _ => .pure _
    · exact Settles.restore.bind fun _ => .pure none
    · exact Settles.restore.bind fun _ => .rethrow _
  · exact (compositional_tidy _).tryDecoded decode

theorem tidy_tryQualifiedName (templates : Bool) :
    Tidy k (tryQualifiedName templates : Parser υ (Option TokenList)) := by
  apply Tidy.peek.bind
  intro t
  split
  · have hname := ((compositional_tidy k).nameTokens (υ := υ) templates).attempt
    apply (Tidy.withState TokenList.empty hname).bind
    rintro ⟨_ | _, list⟩
    · exact (Tidy.onArena _).bind fun _ => .rethrow _
    · exact .pure (some list)
  · exact .pure none

end Grammar

end HeaderLex
