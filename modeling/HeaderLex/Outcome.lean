import HeaderLex.Diagnostic.SourceError

/-!
# Outcomes

An operation on a state ends with a result or a failure, leaves a state behind in both cases, and
logs some events on the way.

* `Outcome`          result, state and events;
* `Operation`        functions from states to outcomes, as a monad: events add up, a failure keeps
                     the state in which it happened.
-/

namespace HeaderLex

/-- How an operation on states `σ` ended. -/
structure Outcome (σ α : Type) where
  result : Except Failure α
  /-- The state left behind, also by a failure. -/
  state : σ
  /-- Events logged on the way, oldest first. -/
  events : List Event

namespace Outcome

variable {σ τ α : Type}

def ok (a : α) (s : σ) : Outcome σ α := ⟨.ok a, s, []⟩

def fail (f : Failure) (s : σ) : Outcome σ α := ⟨.error f, s, []⟩

/-- The caller did something wrong: the failure is logged. -/
def misuse (m : Misuse) (s : σ) : Outcome σ α := ⟨.error (.misuse m), s, [m.event]⟩

/-- A source error, logged with its place. -/
def refuse (e : SourceError) (s : σ) : Outcome σ α := ⟨.error (.source e), s, [e.event]⟩

/-- The same outcome seen as one on a larger state. -/
def mapState (f : σ → τ) (o : Outcome σ α) : Outcome τ α := ⟨o.result, f o.state, o.events⟩

/-- Events of an earlier operation come first. -/
def after (events : List Event) (o : Outcome σ α) : Outcome σ α :=
  { o with events := events ++ o.events }

end Outcome

/-- An operation on states `σ`. -/
def Operation (σ α : Type) : Type := σ → Outcome σ α

namespace Operation

variable {σ τ α β : Type}

protected def pure (a : α) : Operation σ α := fun s => .ok a s

protected def bind (x : Operation σ α) (f : α → Operation σ β) : Operation σ β := fun s =>
  let o := x s
  match o.result with
  | .ok a => (f a o.state).after o.events
  | .error e => ⟨.error e, o.state, o.events⟩

instance : Monad (Operation σ) where
  pure := Operation.pure
  bind := Operation.bind

def get : Operation σ σ := fun s => .ok s s

def modify (f : σ → σ) : Operation σ Unit := fun s => .ok () (f s)

def fail (f : Failure) : Operation σ α := fun s => .fail f s

def misuse (m : Misuse) : Operation σ α := fun s => .misuse m s

/-- Ends with a source error, logged with its place. -/
def refuse (e : SourceError) : Operation σ α := fun s => .refuse e s

def log (event : Event) : Operation σ Unit := fun s => ⟨.ok (), s, [event]⟩

/-- The result of an operation as a value: a source error is handed to the caller, while misuse
and faults still end the computation. -/
def attempt (x : Operation σ α) : Operation σ (Except SourceError α) := fun s =>
  let o := x s
  let result := match o.result with
    | .ok a => .ok (.ok a)
    | .error (.source e) => .ok (.error e)
    | .error f => .error f
  ⟨result, o.state, o.events⟩

/-- A source error again, without logging it once more. -/
def rethrow (e : SourceError) : Operation σ α := fun s => .fail (.source e) s

theorem bind_apply (x : Operation σ α) (f : α → Operation σ β) (s : σ) :
    (x >>= f) s = match (x s).result with
      | .ok a => (f a (x s).state).after (x s).events
      | .error e => ⟨.error e, (x s).state, (x s).events⟩ := rfl

theorem bind_of_ok {x : Operation σ α} {f : α → Operation σ β} {s : σ} {a : α}
    (h : (x s).result = .ok a) : (x >>= f) s = (f a (x s).state).after (x s).events := by
  rw [bind_apply, h]

theorem bind_of_error {x : Operation σ α} {f : α → Operation σ β} {s : σ} {e : Failure}
    (h : (x s).result = .error e) : (x >>= f) s = ⟨.error e, (x s).state, (x s).events⟩ := by
  rw [bind_apply, h]

theorem pure_apply (a : α) (s : σ) : (Pure.pure a : Operation σ α) s = .ok a s := rfl

end Operation

end HeaderLex
