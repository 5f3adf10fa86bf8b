/-!
# Limits

The sizes that bound names, literals, checkpoints, the token arena and log messages.

* `Limits`            the record of all bounds, with `validate` and `report`;
* `Limits.standard`   the bounds this library is built with;
* `maxName`, `maxText`, `maxNumber`, ...   the single bounds, as the scanners use them.
-/

namespace HeaderLex

structure Limits where
  /-- Longest identifier, in bytes. -/
  name : Nat
  /-- Longest string literal or raw text, in bytes. -/
  text : Nat
  /-- Longest numeric literal, in bytes. -/
  number : Nat
  /-- Checkpoints a lexer may hold at once. -/
  checkpoints : Nat
  /-- Checkpoints a replay may hold at once. -/
  replayCheckpoints : Nat
  /-- Nodes the token arena makes room for at first. -/
  arenaCapacity : Nat
  /-- Events a log buffer holds. -/
  logBuffer : Nat
  /-- Longest log message, in bytes. -/
  logMessage : Nat
  /-- The verbosity that no preference can go below, as a number. -/
  logFloor : Nat
deriving DecidableEq, Repr

namespace Limits

def standard : Limits where
  name := 1024
  text := 1024
  number := 256
  checkpoints := 4
  replayCheckpoints := 2
  arenaCapacity := 64
  logBuffer := 10000
  logMessage := 4096
  logFloor := 1

/-- Where the bounds come from, for diagnostics. -/
def origin : String := "Generated from config/development.toml"

/-- The bounds of the scanner are usable: none is zero. -/
def validate (l : Limits) : Except String Unit :=
  if l.name = 0 then .error "MAX_NAME_LENGTH cannot be zero"
  else if l.text = 0 then .error "MAX_STRING_LENGTH cannot be zero"
  else if l.number = 0 then .error "MAX_NUMBER_LENGTH cannot be zero"
  else if l.checkpoints = 0 ∨ l.replayCheckpoints = 0 then
    .error "save state stacks must allow at least one snapshot"
  else .ok ()

/-- The bounds of the log are usable. -/
def validateLog (l : Limits) : Except String Unit :=
  if l.logBuffer > 100000 then .error s!"Log buffer size too large: {l.logBuffer}"
  else if l.logBuffer < 100 then .error s!"Log buffer size too small: {l.logBuffer}"
  else if l.logMessage = 0 then .error "Max log message length cannot be zero"
  else .ok ()

def report (l : Limits) : String :=
  s!"name<={l.name} string<={l.text} number<={l.number} saved_states<={l.checkpoints} " ++
    s!"replay_saved_states<={l.replayCheckpoints}"

end Limits

/-- Longest identifier, in bytes. -/
def maxName : Nat := Limits.standard.name

/-- Longest string literal or raw text, in bytes. -/
def maxText : Nat := Limits.standard.text

/-- Longest numeric literal, in bytes. -/
def maxNumber : Nat := Limits.standard.number

/-- Checkpoints a lexer may hold at once. -/
def maxCheckpoints : Nat := Limits.standard.checkpoints

/-- Checkpoints a replay may hold at once. -/
def maxReplayCheckpoints : Nat := Limits.standard.replayCheckpoints

end HeaderLex
