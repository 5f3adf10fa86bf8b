import HeaderLex.Log.Event
import HeaderLex.Settings.Preferences

/-!
# The log of a process

Events pass through one facility: it knows the preferences, the header that is being read, and the
logger once one is installed.  What it writes is collected as output.

* `Facility.start`      installs the logger;
* `Facility.publish`    an event on its way to the logger;
* `Facility.deliver`    events as a listener of every level receives them.
-/

namespace HeaderLex

/-- A logger that writes lines or records. -/
structure Logger where
  structured : Bool
  minLevel : Level
deriving DecidableEq, Repr

/-- One piece of output. -/
inductive Written where
  | line (text : String)
  | record (event : Event)
deriving DecidableEq, Repr

/-- Output, split by where it goes. -/
structure Output where
  standard : List Written
  error : List Written
deriving DecidableEq, Repr

namespace Output

def empty : Output := ⟨[], []⟩

def print (o : Output) (w : Written) : Output := { o with standard := o.standard ++ [w] }

def printError (o : Output) (w : Written) : Output := { o with error := o.error ++ [w] }

end Output

/-- Writes an event if its level is admitted; errors go to the error output. -/
def Logger.write (l : Logger) (e : Event) (o : Output) : Output :=
  if e.level.admitted l.minLevel then
    let w := if l.structured then Written.record e else .line e.line
    if e.isError then o.printError w else o.print w
  else o

structure Facility where
  environment : Environment
  /-- Preferences installed at run time. -/
  installed : Option LoggingPreferences
  logger : Option Logger
  /-- The header that is being read. -/
  file : Option String
  output : Output

namespace Facility

def ofEnvironment (env : Environment) : Facility := ⟨env, none, none, none, .empty⟩

/-- The preferences in force. -/
def preferences (f : Facility) : LoggingPreferences :=
  f.installed.getD (.ofEnvironment f.environment)

def minLevel (f : Facility) : Level := f.preferences.effectiveLevel

/-- The header to be named in events. -/
def fileContext (f : Facility) : Option String :=
  if f.preferences.fileContext then f.file else none

def isStarted (f : Facility) : Bool := f.logger.isSome

def setFile (f : Facility) (name : String) : Facility := { f with file := some name }

def clearFile (f : Facility) : Facility := { f with file := none }

/-- Installs preferences; that can happen once. -/
def install (f : Facility) (p : LoggingPreferences) : Except String Unit × Facility :=
  match f.installed with
  | some _ => (.error "Runtime preferences already initialized", f)
  | none => (.ok (), { f with installed := some p })

/-- The logger that the preferences ask for. -/
def configured (f : Facility) : Logger := ⟨f.preferences.structured, f.minLevel⟩

/-- Hands an event to the logger as it is. -/
def write (f : Facility) (e : Event) : Facility :=
  match f.logger with
  | some l => { f with output := l.write e f.output }
  | none => f

/-- Reports a failure of the log itself; it is always echoed. -/
def critical (f : Facility) (code : Code) (message : String) : Facility :=
  let f := f.write (Event.error code message)
  { f with output := f.output.printError (.line s!"CRITICAL ERROR [{code.text}]: {message}") }

/-- Installs the logger that the preferences ask for; that can happen once. -/
def start (f : Facility) : Except String Unit × Facility :=
  match Limits.standard.validateLog with
  | .error problem =>
    let message := s!"Configuration validation failed: {problem}"
    (.error message, f.critical Code.initializationFailure message)
  | .ok _ =>
    match f.logger with
    | some _ => (.error "Global logger already initialized", f)
    | none =>
      let f := { f with logger := some f.configured }
      (.ok (), f.write (Event.success Code.loggingStarted "Global logging system initialized"))

/-- Installs preferences and then the logger. -/
def startWith (f : Facility) (p : LoggingPreferences) : Except String Unit × Facility :=
  match f.install p with
  | (.ok _, f) => f.start
  | (.error e, f) => (.error e, f)

/-- The event with the name of the header. -/
def annotate (f : Facility) (e : Event) : Event :=
  match f.fileContext with
  | some file => e.withValue "file" file
  | none => e

/-- Debug events are not even made unless the preferences ask for them. -/
def wants (f : Facility) (e : Event) : Bool := !e.isDebug || Level.debug.admitted f.minLevel

/-- Hands an event to the logger, with the name of the header. -/
def publish (f : Facility) (e : Event) : Facility := f.write (f.annotate e)

/-- Hands events to the logger, leaving out those that are not wanted. -/
def publishAll (f : Facility) (events : List Event) : Facility :=
  (events.filter f.wants).foldl publish f

/-- Events as a listener of every level receives them. -/
def deliver (f : Facility) (events : List Event) : List Event :=
  (events.filter f.wants).map f.annotate

/-- Checks that every code of the scanner is registered, and logs the limits. -/
def announceLimits : Except String Unit × List Event :=
  match Code.scannerCodes.find? (·.registered?.isNone) with
  | some code => (.error s!"Lexical error code {code.text} not found in metadata registry", [])
  | none =>
    (.ok (), [(Event.debug "Lexical limits initialized").withValues
      [("max_name_length", toString maxName), ("max_string_length", toString maxText),
        ("max_number_length", toString maxNumber),
        ("max_saved_states", toString maxCheckpoints),
        ("max_replay_saved_states", toString maxReplayCheckpoints)]])

end Facility

end HeaderLex
