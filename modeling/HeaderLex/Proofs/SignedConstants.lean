import HeaderLex.Proofs.Backtracking
import HeaderLex.Proofs.Consumption
import HeaderLex.Proofs.Indifference
import HeaderLex.Proofs.Tidy

/-!
# Constants with a sign before them

A routine for a signed constant sets a checkpoint at the sign, takes the sign and looks at the token
behind it.  The look may cross comments, directives and excluded regions, or fail; without a number
the routine goes back, and nothing of this is left.

* `Stream.Alike`             streams that differ at most in the counts of a lexer;
* `Stream.look_back`         a token taken above a checkpoint, a look behind it, and the way back;
* `trySigned_outcome`        the constant is the one of the token behind the sign, or there is none and
                             the routine has gone back;
* `signed_without_number`    so nobody can tell that the routine was called.
-/

namespace HeaderLex

open HeaderLex.Operation HeaderLex.Parser

/-! ## a look behind a checkpoint -/

namespace Stream

/-- The same replay, or lexers that differ at most in their counts. -/
inductive Alike : Stream → Stream → Prop
  | live {lx lx' : Lexer} : lx.Alike lx' → Alike (.live lx) (.live lx')
  | replay (r : Replay) : Alike (.replay r) (.replay r)

theorem Alike.kin {s s' : Stream} (h : s.Alike s') : s.Kin s' := by
  cases h with
  | live h =>
    obtain ⟨m, p, rfl, -⟩ := Lexer.alike_iff_kin.1 h
    exact .live ⟨m, p, rfl, False.elim⟩
  | replay r => exact .replay r

/-- No preprocessor keeps a transcript of its own. -/
def Unscripted : Stream → Prop
  | live lx => lx.Unscripted
  | replay _ => True

variable {s : Stream} {t : Token}

theorem unscripted_peek (h : s.Unscripted) : s.peek.state.Unscripted := by
  cases s with
  | live lx => exact (Lexer.carries_peek h).unscripted h
  | replay r => trivial

theorem peek_fails {f : Failure} (h : s.peek.result = .error f) : ∃ e, f = .source e := by
  cases s with
  | replay r => cases h
  | live lx =>
    have hcrash := lx.crashed_peek
    have hresult : lx.peek.result = .error f := h
    unfold Outcome.crashed at hcrash
    rw [hresult] at hcrash
    cases f with
    | source e => exact ⟨e, rfl⟩
    | misuse m => cases hcrash
    | fault f => cases hcrash

theorem save_replay_of_free {r : Replay} (h : r.saved.length < maxReplayCheckpoints) :
    (Stream.replay r).save = .ok () (.replay { r with saved := r.rest :: r.saved }) := by
  show r.save.mapState replay = _
  rw [Replay.save, if_neg (Nat.not_le_of_lt h)]
  rfl

/-- A checkpoint does not take the current token away. -/
theorem consume_saved (h : s.peek.result = .ok t)
    (hfree : s.peek.state.checkpoints < s.peek.state.capacity) :
    s.peek.state.save.state.consume.result = .ok () := by
  cases s with
  | replay r =>
    show (Stream.replay r).save.state.consume.result = _
    rw [save_replay_of_free hfree]
    rfl
  | live lx =>
    obtain ⟨p, hp, -⟩ := @Lexer.current_peek lx t h
    show lx.peek.state.save.state.consume.result = _
    rw [Lexer.save_of_free hfree]
    unfold Lexer.consume
    simp only [Outcome.ok, hp]

/-- A checkpoint can be gone back to, or forgotten. -/
theorem checkpoint_ends (h : 0 < s.checkpoints) :
    s.restore.result = .ok () ∧ s.abandon.result = .ok () := by
  cases s with
  | live lx =>
    show lx.restore.result = _ ∧ lx.abandon.result = _
    unfold Lexer.restore Lexer.abandon
    cases hs : lx.saved with
    | nil =>
      rw [show (live lx).checkpoints = lx.saved.length from rfl, hs] at h
      cases h
    | cons c saved => exact ⟨rfl, rfl⟩
  | replay r =>
    show r.restore.result = _ ∧ r.abandon.result = _
    unfold Replay.restore Replay.abandon
    cases hs : r.saved with
    | nil =>
      rw [show (replay r).checkpoints = r.saved.length from rfl, hs] at h
      cases h
    | cons c saved => exact ⟨rfl, rfl⟩

/-- A token is taken above a checkpoint, the next one is looked at, and the way back leaves the stream
as it was at the checkpoint. -/
theorem look_back (hs : s.Unscripted) (hfree : s.checkpoints < s.capacity) :
    let above := s.save.state.consume.state.peek.state
    above.restore.result = .ok () ∧ s.Alike above.restore.state := by
  cases s with
  | live lx =>
    have hs' : lx.save.state.Unscripted := hs.apply .save
    have htaken : lx.save.state.Carries lx.save.state.consume.state :=
      @Lexer.carries_apply _ hs' .consume rfl
    have hlooked := htaken.trans (Lexer.carries_peek (htaken.unscripted hs'))
    obtain ⟨hresult, halike⟩ := Lexer.Carries.restored hs hfree hlooked
    exact ⟨hresult, .live halike⟩
  | replay r =>
    rw [save_replay_of_free hfree]
    exact ⟨rfl, .replay r⟩

end Stream

/-! ## the routines -/

section

variable {σ α β : Type} {p : Operation σ α} {f : α → Operation σ β} {s s' : σ} {a : α}

/-- What follows an operation that ended with a result decides how the sequence ends. -/
theorem Operation.Ends.bind (h : p.Ends s a s') :
    ((p >>= f) s).result = (f a s').result ∧ ((p >>= f) s).state = (f a s').state := by
  obtain ⟨hresult, rfl⟩ := h
  rw [bind_of_ok hresult]
  exact ⟨rfl, rfl⟩

theorem Operation.Ends.attempt (h : p.Ends s a s') : p.attempt.Ends s (.ok a) s' := by
  obtain ⟨hresult, rfl⟩ := h
  refine ⟨?_, rfl⟩
  unfold Operation.attempt
  simp only [hresult]

theorem Operation.attempt_fails {e : SourceError} (h : (p s).result = .error (.source e)) :
    p.attempt.Ends s (.error e) (p s).state := by
  refine ⟨?_, rfl⟩
  unfold Operation.attempt
  simp only [h]

end

namespace Grammar

variable {υ α : Type} {decode : Token → Option α} {negate : α → α} {s : Session υ} {t sign : Token}

theorem tryDecoded_none (h : s.stream.peek.result = .ok t) (hvalue : decode t = none) :
    (tryDecoded decode).Ends s none { s with stream := s.stream.peek.state } := by
  have hpeek : Parser.peek.Ends s t { s with stream := s.stream.peek.state } := ⟨h, rfl⟩
  refine ends_bind.2 ⟨t, _, hpeek, ?_⟩
  rw [hvalue]
  exact ⟨rfl, rfl⟩

theorem tryDecoded_some {v : α} (h : s.stream.peek.result = .ok t) (hvalue : decode t = some v) :
    (tryDecoded decode).Ends s (some v) { s with stream := s.stream.peek.state.consume.state } := by
  have hpeek : Parser.peek.Ends s t { s with stream := s.stream.peek.state } := ⟨h, rfl⟩
  have hconsume : Parser.consume.Ends { s with stream := s.stream.peek.state } ()
      { s with stream := s.stream.peek.state.consume.state } := ⟨Stream.consume_peeked h, rfl⟩
  refine ends_bind.2 ⟨t, _, hpeek, ?_⟩
  rw [hvalue]
  exact ends_bind.2 ⟨(), _, hconsume, rfl, rfl⟩

theorem tryDecoded_fails {f : Failure} (h : s.stream.peek.result = .error f) :
    (tryDecoded decode s).result = .error f ∧
      (tryDecoded decode s).state = { s with stream := s.stream.peek.state } := by
  have hpeek : (Parser.peek s).result = .error f := h
  unfold tryDecoded
  rw [bind_of_error hpeek]
  exact ⟨rfl, rfl⟩

/-- The value of the next token, or none, or why there is no token. -/
theorem tryDecoded_result :
    (tryDecoded decode s).result = s.stream.peek.result.map decode := by
  cases hr : s.stream.peek.result with
  | error f => exact (tryDecoded_fails hr).1
  | ok t =>
    rw [Except.map]
    cases hvalue : decode t with
    | none => exact (tryDecoded_none hr hvalue).1
    | some v => exact (tryDecoded_some hr hvalue).1

/-- Without a sign of its own the constant is the one of the next token. -/
theorem trySigned_of_other (h : s.stream.peek.result = .ok t)
    (hmark : (t.isMark '-' || t.isMark '+') = false) :
    (trySigned decode negate s).result = .ok (decode t) := by
  have hpeek : Parser.peek.Ends s t { s with stream := s.stream.peek.state } := ⟨h, rfl⟩
  unfold trySigned
  rw [hpeek.bind.1, if_neg (by simp [hmark]), tryDecoded_result, Stream.peek_again h]
  rfl

theorem trySigned_fails {f : Failure} (h : s.stream.peek.result = .error f) :
    (trySigned decode negate s).result = .error f := by
  have hpeek : (Parser.peek s).result = .error f := h
  exact bind_error hpeek

/-- The stream behind its next token, above a checkpoint in front of it. -/
def behindSign (s : Stream) : Stream := s.peek.state.save.state.consume.state

section

variable (hsign : s.stream.peek.result = .ok sign)
  (hmark : (sign.isMark '-' || sign.isMark '+') = true)
  (hfree : s.stream.peek.state.checkpoints < s.stream.peek.state.capacity)
include hsign hmark hfree

/-- How a signed constant is read once its sign is taken. -/
theorem trySigned_behind :
    let tail : Except SourceError (Option α) → Parser υ (Option α)
      | .ok (some v) => do
        abandon
        return some (if sign.isMark '-' then negate v else v)
      | .ok none => do
        restore
        return none
      | .error e => do
        restore
        rethrow e
    let number := (tryDecoded decode).attempt >>= tail
    let s' : Session υ := { s with stream := behindSign s.stream }
    (trySigned decode negate s).result = (number s').result ∧
      (trySigned decode negate s).state = (number s').state := by
  intro tail number s'
  have hpeek : Parser.peek.Ends s sign { s with stream := s.stream.peek.state } := ⟨hsign, rfl⟩
  have hsave : Parser.save.Ends { s with stream := s.stream.peek.state } ()
      { s with stream := s.stream.peek.state.save.state } :=
    ⟨(Stream.rises_save hfree).1, rfl⟩
  have hconsume : Parser.consume.Ends { s with stream := s.stream.peek.state.save.state } () s' :=
    ⟨Stream.consume_saved hsign hfree, rfl⟩
  unfold trySigned
  rw [hpeek.bind.1, hpeek.bind.2, if_pos hmark, hsave.bind.1, hsave.bind.2, hconsume.bind.1,
    hconsume.bind.2]
  exact ⟨rfl, rfl⟩

omit hsign hmark in
theorem rises_behind : s.stream.peek.state.Rises 1 (behindSign s.stream) :=
  (Stream.rises_save hfree).2.trans (Stream.rises_consume _)

/-- The constant is the one of the token behind the sign, with the sign.  Where there is none, the
routine has gone back. -/
theorem trySigned_outcome :
    (trySigned decode negate s).result = (behindSign s.stream).peek.result.map (fun t =>
        (decode t).map fun v => if sign.isMark '-' then negate v else v) ∧
      ((∀ v, (trySigned decode negate s).result ≠ .ok (some v)) →
        (trySigned decode negate s).state =
          { s with stream := (behindSign s.stream).peek.state.restore.state }) := by
  have hone : (behindSign s.stream).peek.state.checkpoints = s.stream.peek.state.checkpoints + 1 :=
    ((rises_behind hfree).trans (Stream.rises_peek _)).checkpoints
  have hrestore : Parser.restore.Ends { s with stream := (behindSign s.stream).peek.state } ()
      { s with stream := (behindSign s.stream).peek.state.restore.state } :=
    ⟨(Stream.checkpoint_ends (hone ▸ Nat.succ_pos _)).1, rfl⟩
  obtain ⟨hresult, hstate⟩ := @trySigned_behind υ α decode negate s sign hsign hmark hfree
  rw [hresult, hstate]
  cases hlook : (behindSign s.stream).peek.result with
  | error f =>
    obtain ⟨e, rfl⟩ := Stream.peek_fails hlook
    obtain ⟨hfail, hleft⟩ := @tryDecoded_fails υ α decode { s with stream := behindSign s.stream } _ hlook
    have hattempt := attempt_fails hfail
    rw [hleft] at hattempt
    rw [hattempt.bind.1, hattempt.bind.2]
    exact ⟨hrestore.bind.1, fun _ => hrestore.bind.2⟩
  | ok t =>
    rw [Except.map]
    cases hvalue : decode t with
    | none =>
      have hattempt := (@tryDecoded_none υ α decode { s with stream := behindSign s.stream } t hlook
        hvalue).attempt
      rw [hattempt.bind.1, hattempt.bind.2]
      exact ⟨hrestore.bind.1, fun _ => hrestore.bind.2⟩
    | some v =>
      have hattempt := (@tryDecoded_some υ α decode { s with stream := behindSign s.stream } t v hlook
        hvalue).attempt
      have htaken : 0 < (behindSign s.stream).peek.state.consume.state.checkpoints := by
        rw [(Stream.rises_consume _).checkpoints]
        omega
      have habandon : Parser.abandon.Ends
          { s with stream := (behindSign s.stream).peek.state.consume.state } ()
          { s with stream := (behindSign s.stream).peek.state.consume.state.abandon.state } :=
        ⟨(Stream.checkpoint_ends htaken).2, rfl⟩
      rw [hattempt.bind.1, hattempt.bind.2]
      exact ⟨habandon.bind.1, fun hno => absurd habandon.bind.1 (hno _)⟩

end

/-- The routines for a constant with an optional sign. -/
inductive SignedConstant {υ : Type} : {α : Type} → Parser υ (Option α) → Prop
  | int : SignedConstant tryIntExpression
  | long : SignedConstant tryLongExpression
  | float : SignedConstant tryFloatExpression
  | double : SignedConstant tryDoubleExpression

theorem SignedConstant.trySigned {p : Parser υ (Option α)} (h : SignedConstant p) :
    ∃ decode negate, p = Grammar.trySigned decode negate := by
  cases h <;> exact ⟨_, _, rfl⟩

/-- A sign comes next, and there is room for a checkpoint.  If a routine for a signed constant reports
no constant or an error, it leaves all as it was after the look at the sign, but for the counts of a
lexer; and whatever a caller does later, it sees the same as if the routine had not been called. -/
theorem signed_without_number {p : Parser υ (Option α)} (hp : SignedConstant p)
    (hs : s.stream.Unscripted) (hfree : s.stream.checkpoints < s.stream.capacity)
    (hsign : s.stream.peek.result = .ok sign)
    (hmark : sign.isMark '+' = true ∨ sign.isMark '-' = true)
    (hno : ∀ v, (p s).result ≠ .ok (some v)) :
    let here : Session υ := { s with stream := s.stream.peek.state }
    ((p s).result = .ok none ∨ ∃ e, (p s).result = .error (.source e)) ∧
      (∃ stream, (p s).state = { here with stream } ∧ here.stream.Alike stream) ∧
      ∀ {β : Type} (caller : Caller υ β) (meanwhile : Nat → Facility → Facility) (steps : Nat)
        (seen : List (View β)) (facility : Facility),
        (caller.run meanwhile steps seen ⟨(p s).state, facility⟩).1
          = (caller.run meanwhile steps seen ⟨here, facility⟩).1 := by
  intro here
  have hroom : s.stream.peek.state.checkpoints < s.stream.peek.state.capacity :=
    @Stream.Rises.room _ _ 0 1 s.stream.rises_peek hfree
  have hmark' : (sign.isMark '-' || sign.isMark '+') = true := by
    rw [Bool.or_eq_true]
    exact hmark.symm
  obtain ⟨decode, negate, rfl⟩ := hp.trySigned
  obtain ⟨hresult, hstate⟩ := @trySigned_outcome υ α decode negate s sign hsign hmark' hroom
  have hback := hstate hno
  have halike : here.stream.Alike (behindSign s.stream).peek.state.restore.state :=
    (Stream.look_back (Stream.unscripted_peek hs) hroom).2
  refine ⟨?_, ⟨_, hback, halike⟩, ?_⟩
  · cases hlook : (behindSign s.stream).peek.result with
    | error f =>
      obtain ⟨e, rfl⟩ := Stream.peek_fails hlook
      rw [hlook] at hresult
      exact .inr ⟨e, hresult⟩
    | ok t =>
      rw [hlook] at hresult
      cases hvalue : decode t with
      | none =>
        rw [Except.map, hvalue] at hresult
        exact .inl hresult
      | some v =>
        rw [Except.map, hvalue] at hresult
        exact absurd hresult (hno _)
  · intro β caller meanwhile steps seen facility
    rw [hback]
    have hkin : here.Kin { s with stream := (behindSign s.stream).peek.state.restore.state } :=
      ⟨halike.kin, rfl, rfl⟩
    exact (@Caller.run_kin υ β caller meanwhile meanwhile steps seen ⟨here, facility⟩
      ⟨_, facility⟩ hkin).1

/-- Behind the sign stand a comment, an excluded region and a literal without its end. -/
theorem signed_without_number_sample :
    let lx := (Lexer.ofSource "/* a */ - // b\n#if 0\nx\n#endif\n'c" ⟨true, false, false, true⟩).withPreprocessor
      (some (.conditional Conditional.standard))
    let s : Session Unit := ⟨.live lx, .empty, ()⟩
    let sign : Token := ⟨.symbol, "-", ⟨8, 1⟩, Position.start⟩
    s.stream.Unscripted ∧ s.stream.checkpoints < s.stream.capacity ∧
      s.stream.peek.result = .ok sign ∧ (∀ v, (tryLongExpression s).result ≠ .ok (some v)) ∧
      ∃ stream, (tryLongExpression s).state = { s with stream } ∧ s.stream.peek.state.Alike stream := by
  intro lx s sign
  have hs : s.stream.Unscripted := fun t h => by cases h
  have hfree : s.stream.checkpoints < s.stream.capacity := by decide
  have hsign : s.stream.peek.result = .ok sign := ok_of_toOption (by decide +kernel)
  have herror : (tryLongExpression s).result = .error (.source ⟨.unterminatedChar, ⟨30, 5⟩⟩) :=
    error_of_failure? (by decide +kernel)
  have hno : ∀ v, (tryLongExpression s).result ≠ .ok (some v) := by
    intro v hv
    cases herror.symm.trans hv
  exact ⟨hs, hfree, hsign, hno,
    (signed_without_number .long hs hfree hsign (.inr (by decide)) hno).2.1⟩

end Grammar

end HeaderLex
