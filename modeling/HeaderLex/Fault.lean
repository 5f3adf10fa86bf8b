/-!
# Faults

A fault is the end of a computation that its caller gave impossible values: a cut inside a
character, a sum beyond the word size, a span that ends before it starts, an end token of a kind
that is not an end, a loop that never gets anywhere.  Nothing recovers from a fault.
-/

namespace HeaderLex

inductive Fault where
  /-- A text was cut out of range, backwards or inside a character. -/
  | badSlice
  /-- A line number or an offset left its word. -/
  | overflow
  /-- A span would end before it starts. -/
  | reversedSpan
  /-- An end token was asked for with a kind that marks no end. -/
  | notAnEndKind
  /-- A repetition went on without consuming anything. -/
  | stalled
deriving DecidableEq, Repr

end HeaderLex
