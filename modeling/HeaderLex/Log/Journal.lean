import HeaderLex.Log.Event

/-!
# Journals

A journal keeps the events that reach its level, in order.
-/

namespace HeaderLex

structure Journal where
  minLevel : Level
  /-- Kept events, oldest first. -/
  events : List Event
deriving DecidableEq, Repr

/-- Counts of events. -/
structure JournalSummary where
  total : Nat
  errors : Nat
  warnings : Nat
  infos : Nat
  debugs : Nat
  /-- Errors after which processing must stop. -/
  critical : Nat
deriving DecidableEq, Repr

namespace Journal

def empty (minLevel : Level) : Journal := ⟨minLevel, []⟩

def admits (j : Journal) (level : Level) : Bool := level.admitted j.minLevel

/-- Keeps an event if its level is admitted. -/
def add (j : Journal) (e : Event) : Journal :=
  if j.admits e.level then { j with events := j.events ++ [e] } else j

def clear (j : Journal) : Journal := { j with events := [] }

def errors (j : Journal) : List Event := j.events.filter Event.isError

def warnings (j : Journal) : List Event := j.events.filter Event.isWarning

def hasError (j : Journal) (code : Code) : Bool :=
  j.events.any fun e => e.isError && e.code == code

def hasSuccess (j : Journal) (code : Code) : Bool :=
  j.events.any fun e => e.isInfo && e.code == code

def summary (j : Journal) : JournalSummary where
  total := j.events.length
  errors := j.events.countP Event.isError
  warnings := j.events.countP Event.isWarning
  infos := j.events.countP Event.isInfo
  debugs := j.events.countP Event.isDebug
  critical := j.events.countP fun e => e.isError && e.code.entry.halts

end Journal

end HeaderLex
