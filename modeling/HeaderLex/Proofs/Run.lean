import HeaderLex.Parser
import HeaderLex.Proofs.Invariant

/-!
# Runs of stream operations

A caller works on a lexer with one operation after the other, and may go on after a failure.

* `Op`, `Lexer.apply`       the operations of a stream, and what they do to a lexer;
* `Lexer.run`               the lexer after a row of operations;
* `Lexer.run_invariant`     what every operation keeps, every run keeps;
* `Lexer.preprocessor_apply`   what an operation that looks for no token does to the preprocessor;
* `Stream.Reaches`          operations lead from one stream to another.
-/

namespace HeaderLex

/-- What a caller can ask of a stream. -/
inductive Op where
  | peek
  | consume
  | next
  | atEnd
  | line
  | rawText (terminator : Char) (options : RawTextOptions)
  | clearComments
  | disableComments
  | enableComments
  | commitComments
  | save
  | restore
  | abandon
  | startRecording
  | record (t : Token)
  | stopRecording

/-- The operations that look for the next token. -/
def Op.isLook : Op → Bool
  | peek | next | atEnd => true
  | _ => false

/-- What a stream answers. -/
inductive Answer where
  | done
  | token (t : Token)
  | flag (b : Bool)
  | text (s : String)
deriving DecidableEq, Repr

namespace Lexer

/-! ## the operations -/

/-- The next token, consumed. -/
def next (lx : Lexer) : Outcome Lexer Token :=
  let o := lx.peek
  match o.result with
  | .ok t =>
    let consumed := o.state.consume
    ⟨consumed.result.map fun _ => t, consumed.state, o.events ++ consumed.events⟩
  | .error f => ⟨.error f, o.state, o.events⟩

/-- The lexer is at an end mark. -/
def atEnd (lx : Lexer) : Outcome Lexer Bool :=
  let o := lx.peek
  ⟨o.result.map Token.isEnd, o.state, o.events⟩

/-- The outcome with its result as an answer. -/
def answered {α : Type} (f : α → Answer) (o : Outcome Lexer α) : Outcome Lexer Answer :=
  ⟨o.result.map f, o.state, o.events⟩

def apply (lx : Lexer) : Op → Outcome Lexer Answer
  | .peek => answered .token lx.peek
  | .consume => answered (fun _ => .done) lx.consume
  | .next => answered .token lx.next
  | .atEnd => answered .flag lx.atEnd
  | .line => answered .token lx.line
  | .rawText terminator options => answered .text (lx.rawText terminator options)
  | .clearComments => .ok .done lx.clearComments
  | .disableComments => .ok .done lx.disableComments
  | .enableComments => answered (fun _ => .done) lx.enableComments
  | .commitComments => .ok .done lx.commitComments
  | .save => answered (fun _ => .done) lx.save
  | .restore => answered (fun _ => .done) lx.restore
  | .abandon => answered (fun _ => .done) lx.abandon
  | .startRecording => answered (fun _ => .done) lx.startRecording
  | .record t => answered (fun _ => .done) (lx.record t)
  | .stopRecording => .ok .done lx.stopRecording

/-- The lexer after a row of operations; a failed one leaves its state behind and the caller goes
on. -/
def run (lx : Lexer) (ops : List Op) : Lexer := ops.foldl (fun lx op => (lx.apply op).state) lx

theorem run_invariant {P : Lexer → Prop} (h : ∀ lx op, P lx → P (lx.apply op).state) {lx : Lexer}
    (hx : P lx) (ops : List Op) : P (lx.run ops) := by
  induction ops generalizing lx with
  | nil => exact hx
  | cons op ops ih => exact ih (h lx op hx)

/-! ## consuming a token -/

theorem current_unget (lx : Lexer) : lx.unget.current = none := by
  unfold unget
  split
  · rfl
  · next hc => exact hc

/-- After a look there is a current token. -/
theorem current_peek {lx : Lexer} {t : Token} (h : lx.peek.result = .ok t) :
    ∃ p, lx.peek.state.current = some p ∧ p.token = t := by
  cases hc : lx.current with
  | none =>
    obtain ⟨p, -, hp, hs⟩ := peek_fresh hc h
    rw [hs]
    exact ⟨p, rfl, hp⟩
  | some p =>
    rw [peek_of_current hc] at h ⊢
    exact ⟨p, hc, Except.ok.inj h⟩

theorem saved_peek {lx : Lexer} (hc : lx.current = none) : lx.peek.state.saved = lx.saved := by
  cases hr : lx.lexToken.result with
  | ok p =>
    rw [peek_of_lexToken hc hr]
    exact saved_lexToken lx
  | error f =>
    rw [peek_of_error hc hr]
    exact saved_lexToken lx

theorem consume_peek {lx : Lexer} {t : Token} (h : lx.peek.result = .ok t) :
    lx.peek.state.consume = .ok () (lx.peek.state.consumed t) := by
  obtain ⟨p, hc, rfl⟩ := current_peek h
  unfold consume
  rw [hc]

theorem next_of_ok {lx : Lexer} {t : Token} (h : lx.peek.result = .ok t) :
    lx.next = ⟨.ok t, lx.peek.state.consumed t, lx.peek.events⟩ := by
  unfold next
  simp only [h, consume_peek h, Outcome.ok, List.append_nil]
  rfl

theorem next_of_error {lx : Lexer} {f : Failure} (h : lx.peek.result = .error f) :
    lx.next = ⟨.error f, lx.peek.state, lx.peek.events⟩ := by
  unfold next
  simp only [h]

/-- All ways to look at the next token find the same, and fail alike. -/
theorem apply_look (lx : Lexer) {op : Op} (h : op.isLook = true) :
    (∃ t answer, lx.peek.result = .ok t ∧ (lx.apply op).result = .ok answer ∧
      ((lx.apply op).state = lx.peek.state ∨ (lx.apply op).state = lx.peek.state.consumed t)) ∨
    ∃ f, lx.peek.result = .error f ∧ (lx.apply op).result = .error f ∧
      (lx.apply op).state = lx.peek.state := by
  cases hr : lx.peek.result with
  | error f =>
    refine .inr ⟨f, rfl, ?_⟩
    cases op with
    | peek => exact ⟨congrArg (Except.map Answer.token) hr, rfl⟩
    | next =>
      show Except.map Answer.token lx.next.result = _ ∧ lx.next.state = _
      rw [next_of_error hr]
      exact ⟨rfl, rfl⟩
    | atEnd => exact ⟨congrArg (Except.map Answer.flag ∘ Except.map Token.isEnd) hr, rfl⟩
    | _ => cases h
  | ok t =>
    refine .inl ⟨t, ?_⟩
    cases op with
    | peek => exact ⟨.token t, rfl, congrArg (Except.map Answer.token) hr, .inl rfl⟩
    | next =>
      refine ⟨.token t, rfl, ?_⟩
      show Except.map Answer.token lx.next.result = _ ∧ (lx.next.state = _ ∨ lx.next.state = _)
      rw [next_of_ok hr]
      exact ⟨rfl, .inr rfl⟩
    | atEnd =>
      exact ⟨.flag t.isEnd, rfl, congrArg (Except.map Answer.flag ∘ Except.map Token.isEnd) hr, .inl rfl⟩
    | _ => cases h

theorem answered_ok {α : Type} {f : α → Answer} {o : Outcome Lexer α} {answer : Answer}
    (h : (answered f o).result = .ok answer) : ∃ a, o.result = .ok a ∧ f a = answer := by
  replace h : Except.map f o.result = .ok answer := h
  cases hr : o.result with
  | error e =>
    rw [hr] at h
    cases h
  | ok a =>
    rw [hr] at h
    exact ⟨a, rfl, Except.ok.inj h⟩

/-- The operations that answer with a token look for it, or read a raw line. -/
theorem apply_token {lx : Lexer} {op : Op} {t : Token} (h : (lx.apply op).result = .ok (.token t)) :
    lx.peek.result = .ok t ∨ (op = .line ∧ lx.line.result = .ok t) := by
  cases op with
  | peek =>
    obtain ⟨u, hu, hut⟩ := answered_ok h
    obtain rfl := Answer.token.inj hut
    exact .inl hu
  | next =>
    obtain ⟨u, hu, hut⟩ := answered_ok h
    obtain rfl := Answer.token.inj hut
    left
    cases hr : lx.peek.result with
    | error f =>
      rw [next_of_error hr] at hu
      cases hu
    | ok v =>
      rw [next_of_ok hr] at hu
      exact hu
  | line =>
    obtain ⟨u, hu, hut⟩ := answered_ok h
    obtain rfl := Answer.token.inj hut
    exact .inr ⟨rfl, hu⟩
  | clearComments | disableComments | commitComments | stopRecording => cases h
  | _ =>
    obtain ⟨_, _, hut⟩ := answered_ok h
    cases hut

/-! ## the preprocessor -/

theorem preprocessor_unget (lx : Lexer) : lx.unget.preprocessor = lx.preprocessor := by
  unfold unget
  split <;> rfl

/-- Apart from looks, only checkpoints change the preprocessor. -/
theorem preprocessor_apply (lx : Lexer) {op : Op} (h : op.isLook = false) :
    (lx.apply op).state.preprocessor = lx.preprocessor ∨
      (lx.apply op).state.preprocessor = lx.preprocessor.map (·.save) ∨
      (lx.apply op).state.preprocessor = lx.preprocessor.map (·.restore) ∨
      (lx.apply op).state.preprocessor = lx.preprocessor.map (·.abandon) := by
  cases op with
  | peek => cases h
  | next => cases h
  | atEnd => cases h
  | consume =>
    left
    show lx.consume.state.preprocessor = _
    unfold consume
    split <;> rfl
  | line =>
    left
    show lx.line.state.preprocessor = _
    unfold line
    dsimp only
    split <;> exact preprocessor_unget lx
  | rawText terminator options =>
    left
    show (lx.rawText terminator options).state.preprocessor = _
    unfold rawText
    dsimp only
    split
    · exact preprocessor_unget lx
    · split
      · exact preprocessor_unget lx
      · split <;> exact preprocessor_unget lx
  | clearComments => exact .inl rfl
  | disableComments => exact .inl rfl
  | enableComments =>
    left
    show lx.enableComments.state.preprocessor = _
    unfold enableComments
    split <;> rfl
  | commitComments => exact .inl rfl
  | save =>
    show lx.save.state.preprocessor = _ ∨ lx.save.state.preprocessor = _ ∨ _
    unfold save
    split
    · exact .inl rfl
    · exact .inr (.inl rfl)
  | restore =>
    show lx.restore.state.preprocessor = _ ∨ _ ∨ lx.restore.state.preprocessor = _ ∨ _
    unfold restore
    split
    · exact .inl rfl
    · exact .inr (.inr (.inl rfl))
  | abandon =>
    show lx.abandon.state.preprocessor = _ ∨ _ ∨ _ ∨ lx.abandon.state.preprocessor = _
    unfold abandon
    split
    · exact .inl rfl
    · exact .inr (.inr (.inr rfl))
  | startRecording =>
    left
    show lx.startRecording.state.preprocessor = _
    unfold startRecording
    split <;> rfl
  | record t =>
    left
    show (lx.record t).state.preprocessor = _
    unfold record
    split <;> rfl
  | stopRecording => exact .inl rfl

end Lexer

/-! ## streams -/

namespace Stream

/-- Operations lead from the first stream to the second. -/
def Reaches : Stream → Stream → Prop
  | live lx, live lx' => ∃ ops, lx' = lx.run ops
  | replay _, replay _ => True
  | _, _ => False

theorem Reaches.refl (s : Stream) : s.Reaches s := by
  cases s with
  | live lx => exact ⟨[], rfl⟩
  | replay r => trivial

theorem Reaches.trans {s s' s'' : Stream} (h : s.Reaches s') (h' : s'.Reaches s'') : s.Reaches s'' := by
  cases s with
  | live lx =>
    cases s' with
    | live lx' =>
      cases s'' with
      | live lx'' =>
        obtain ⟨ops, rfl⟩ := h
        obtain ⟨ops', rfl⟩ := h'
        exact ⟨ops ++ ops', (List.foldl_append ..).symm⟩
      | replay r'' => exact h'.elim
    | replay r' => exact h.elim
  | replay r =>
    cases s' with
    | live lx' => exact h.elim
    | replay r' =>
      cases s'' with
      | live lx'' => exact h'.elim
      | replay r'' => trivial

/-- One operation of a lexer. -/
theorem reaches_apply (lx : Lexer) (op : Op) : (live lx).Reaches (live (lx.apply op).state) :=
  ⟨[op], rfl⟩

theorem reaches_peek (s : Stream) : s.Reaches s.peek.state := by
  cases s with
  | live lx => exact reaches_apply lx .peek
  | replay r => trivial

end Stream

end HeaderLex
