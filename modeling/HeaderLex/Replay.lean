import HeaderLex.Outcome
import HeaderLex.Token.Basic

/-!
# Replays

A replay serves tokens that were recorded before, and then an end mark for ever.

* `Replay.ofTokens`   a replay of some tokens with an end mark of a given kind;
* `ReplayPool`        counts the finished replays whose checkpoint stacks can be used again.
-/

namespace HeaderLex

structure Replay where
  /-- Tokens that are still to come. -/
  rest : List Token
  /-- Checkpoints, newest first. -/
  saved : List (List Token)
  endMark : Token
deriving DecidableEq, Repr

namespace Replay

/-- The end mark stands directly after the last token, on the line where that token starts. -/
def endPosition (tokens : List Token) : Position :=
  match tokens.getLast? with
  | some last => ⟨last.start.offset + Text.byteLength last.value.toList, last.start.line⟩
  | none => Position.start

def ofTokens (tokens : List Token) (endKind : TokenKind) : Except Fault Replay := do
  return ⟨tokens, [], ← Token.endAt endKind (endPosition tokens)⟩

/-- The next token, without consuming it. -/
def peek (r : Replay) : Token := r.rest.head?.getD r.endMark

/-- Consumes a token; the end mark stays. -/
def consume (r : Replay) : Replay := { r with rest := r.rest.tail }

def save (r : Replay) : Outcome Replay Unit :=
  if maxReplayCheckpoints ≤ r.saved.length then .misuse .replayCheckpointOverflow r
  else .ok () { r with saved := r.rest :: r.saved }

def restore (r : Replay) : Outcome Replay Unit :=
  match r.saved with
  | [] => .misuse .restoreWithoutSave r
  | rest :: saved => .ok () { r with rest, saved }

def abandon (r : Replay) : Outcome Replay Unit :=
  match r.saved with
  | [] => .misuse .abandonWithoutSave r
  | _ :: saved => .ok () { r with saved }

end Replay

/-- Finished replays whose checkpoint stacks wait for the next replay. -/
structure ReplayPool where
  available : Nat
deriving DecidableEq, Repr

namespace ReplayPool

def empty : ReplayPool := ⟨0⟩

/-- A replay on a used stack, if one waits. -/
def acquire (p : ReplayPool) (tokens : List Token) (endKind : TokenKind) :
    Except Fault Replay × ReplayPool :=
  (Replay.ofTokens tokens endKind, ⟨p.available - 1⟩)

/-- A replay is finished. -/
def release (p : ReplayPool) (_ : Replay) : ReplayPool := ⟨p.available + 1⟩

end ReplayPool

end HeaderLex
