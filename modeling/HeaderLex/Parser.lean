import HeaderLex.Arena
import HeaderLex.Stream

/-!
# Parsers

A parser works on a session: a token stream, the arena of its token lists, and a state of the
caller's own, which survives failures.

* `Parser.peek`, `Parser.consume`, ...   the operations of the stream;
* `Parser.loop`                          repetition, bounded by the size of the stream;
* `Parser.withState`, `Parser.collecting`   a parser with some more state, propagating or catching
                                         source errors.
-/

namespace HeaderLex

/-- What a parser works on; `υ` is the caller's own state. -/
structure Session (υ : Type) where
  stream : Stream
  arena : Arena
  user : υ

abbrev Parser (υ α : Type) : Type := Operation (Session υ) α

namespace Parser

variable {υ α β γ : Type}

/-! ### The stream and the arena -/

/-- An operation of the stream. -/
def onStream (f : Stream → Outcome Stream α) : Parser υ α := fun s =>
  (f s.stream).mapState fun stream => { s with stream }

/-- An operation of the arena. -/
def onArena (f : Arena → Outcome Arena α) : Parser υ α := fun s =>
  (f s.arena).mapState fun arena => { s with arena }

/-- The next token, without consuming it. -/
def peek : Parser υ Token := onStream Stream.peek

def consume : Parser υ Unit := onStream Stream.consume

/-- The next token, consumed. -/
def next : Parser υ Token := do
  let t ← peek
  consume
  return t

/-- The stream is at an end mark. -/
def atEnd : Parser υ Bool := do
  return (← peek).isEnd

def save : Parser υ Unit := onStream Stream.save

def restore : Parser υ Unit := onStream Stream.restore

def abandon : Parser υ Unit := onStream Stream.abandon

/-! ### The caller's own state -/

def user : Parser υ υ := fun s => .ok s.user s

def modifyUser (f : υ → υ) : Parser υ Unit := fun s => .ok () { s with user := f s.user }

/-- Runs a parser with some more state, and gives that state too. -/
def withState (init : β) (p : Parser (υ × β) α) : Parser υ (α × β) := fun s =>
  let o := p ⟨s.stream, s.arena, (s.user, init)⟩
  ⟨o.result.map fun a => (a, o.state.user.2), ⟨o.state.stream, o.state.arena, o.state.user.1⟩,
    o.events⟩

/-- Runs a parser with some more state, and gives that state too, also after a source error. -/
def collecting (init : β) (p : Parser (υ × β) α) : Parser υ (Except SourceError α × β) :=
  withState init p.attempt

/-! ### Repetition -/

/-- Repeats `body` until it answers on the right, for a number of turns. -/
def repeatFor (body : β → Parser υ (β ⊕ γ)) : Nat → β → Parser υ γ
  | 0, _ => Operation.fail (.fault .stalled)
  | turns + 1, b => do
    match ← body b with
    | .inl b => repeatFor body turns b
    | .inr c => return c

/-- Repeats `body` until it answers on the right. -/
def loop (body : β → Parser υ (β ⊕ γ)) (b : β) : Parser υ γ := fun s =>
  repeatFor body s.stream.budget b s

end Parser

end HeaderLex
