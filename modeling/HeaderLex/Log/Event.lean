import HeaderLex.Diagnostic.Code
import HeaderLex.Limits
import HeaderLex.Position

/-!
# Log events

An event has a level, a code, a message of bounded length, and optionally a span and some named
values.

* `Level`            verbosity, from errors to debugging;
* `Event.error`, `Event.warning`, ...   events of one level;
* `Event.line`, `Event.details`         one line, or all that is known, as text;
* `Event.record`                        the same as named fields.
-/

namespace HeaderLex

inductive Level where
  | error
  | warning
  | info
  | debug
deriving DecidableEq, Repr

namespace Level

/-- Place of a level in the order of verbosity. -/
def rank : Level → Nat
  | error => 0
  | warning => 1
  | info => 2
  | debug => 3

/-- A log with least level `least` takes an event of this level. -/
def admitted (level least : Level) : Bool := decide (level.rank ≤ least.rank)

/-- The more verbose of two levels. -/
def max (a b : Level) : Level := if a.rank < b.rank then b else a

/-- The level as log lines show it. -/
def tag : Level → String
  | error => "ERROR"
  | warning => "WARN"
  | info => "INFO"
  | debug => "DEBUG"

/-- The level as settings spell it. -/
def name : Level → String
  | error => "Error"
  | warning => "Warning"
  | info => "Info"
  | debug => "Debug"

def ofName? (s : String) : Option Level := [error, warning, info, debug].find? (·.name == s)

end Level

/-- Named values, sorted by name. -/
abbrev Context := List (String × String)

/-- Gives `key` the value `value`. -/
def Context.insert (key value : String) : Context → Context
  | [] => [(key, value)]
  | (k, v) :: rest =>
    if k = key then (key, value) :: rest
    else if key < k then (key, value) :: (k, v) :: rest
    else (k, v) :: Context.insert key value rest

structure Event where
  level : Level
  code : Code
  message : String
  span : Option Span
  context : Context
deriving DecidableEq, Repr

namespace Event

/-- The longest prefix of at most `n` bytes. -/
def prefixWithin : Nat → List Char → List Char
  | _, [] => []
  | n, c :: cs => if c.utf8Size ≤ n then c :: prefixWithin (n - c.utf8Size) cs else []

/-- A message of bounded length; dots mark that it was cut. -/
def bounded (message : String) : String :=
  if message.utf8ByteSize ≤ Limits.standard.logMessage then message
  else String.ofList (prefixWithin Limits.standard.logMessage message.toList) ++ "..."

def make (level : Level) (code : Code) (message : String) : Event :=
  ⟨level, code, bounded message, none, []⟩

def error (code : Code) (message : String) : Event := make .error code message

/-- A warning with a code of its own. -/
def warningOf (code : Code) (message : String) : Event := make .warning code message

/-- A warning with the general code. -/
def warning (message : String) : Event := warningOf Code.warning message

def success (code : Code) (message : String) : Event := make .info code message

def info (message : String) : Event := make .info Code.info message

def debug (message : String) : Event := make .debug Code.debug message

def withSpan (e : Event) (span : Span) : Event := { e with span := some span }

/-- The event with one more named value. -/
def withValue (e : Event) (key value : String) : Event :=
  { e with context := Context.insert key value e.context }

/-- The event with more named values, given in order. -/
def withValues (e : Event) (values : List (String × String)) : Event :=
  values.foldl (fun e (key, value) => e.withValue key value) e

def isError (e : Event) : Bool := e.level == .error

def isWarning (e : Event) : Bool := e.level == .warning

def isInfo (e : Event) : Bool := e.level == .info

def isDebug (e : Event) : Bool := e.level == .debug

/-- The event in one line. -/
def line (e : Event) : String :=
  let place := match e.span with
    | some span => s!" at line {span.start.line}"
    | none => ""
  s!"[{e.level.tag}] {e.code.text} - {e.message}" ++ place

/-- The event with its classification and its named values. -/
def details (e : Event) : String :=
  let entry := e.code.entry
  let classification := s!"\n  Category: {entry.category}\n  Severity: {entry.severity.name}"
  let halting := if e.isError then
      s!"\n  Recoverable: {entry.recoverable}\n  Requires halt: {entry.halts}"
    else ""
  let action := if entry.action = (Code.unknown e.code).action then ""
    else s!"\n  Recommended action: {entry.action}"
  let values := if e.context.isEmpty then ""
    else "\n  Context:" ++ String.join (e.context.map fun (key, value) => s!"\n    {key}: {value}")
  e.line ++ classification ++ halting ++ action ++ values

/-- What a record says of an error beyond its message. -/
structure ErrorNote where
  recoverable : Bool
  halts : Bool
  description : String
deriving DecidableEq, Repr

/-- An event as named fields, for tools that read logs. -/
structure Record where
  level : String
  code : String
  message : String
  category : String
  severity : String
  note : Option ErrorNote
  span : Option Span
  context : Option Context
deriving DecidableEq, Repr

def record (e : Event) : Record :=
  let entry := e.code.entry
  { level := e.level.tag
    code := e.code.text
    message := e.message
    category := entry.category
    severity := entry.severity.name
    note := if e.isError then some ⟨entry.recoverable, entry.halts, entry.description⟩ else none
    span := e.span
    context := if e.context.isEmpty then none else some e.context }

end Event

end HeaderLex
