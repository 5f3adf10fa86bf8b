import HeaderLex.Log.Event

/-!
# Preferences

What a user may choose: which metrics a lexer keeps and what it logs, and how the log is written.
Every preference has an environment variable; a variable that does not spell a value is ignored.
-/

namespace HeaderLex

/-- Environment variables with their values. -/
abbrev Environment := List (String × String)

namespace Environment

def get? (env : Environment) (name : String) : Option String := env.lookup name

/-- A truth value is spelled in full and in small letters. -/
def readBool? : String → Option Bool
  | "true" => some true
  | "false" => some false
  | _ => none

/-- A level is a word in any case, or its rank. -/
def readLevel? (s : String) : Option Level :=
  match String.ofList (s.toList.map Char.toLower) with
  | "error" | "0" => some .error
  | "warning" | "warn" | "1" => some .warning
  | "info" | "2" => some .info
  | "debug" | "3" => some .debug
  | _ => none

/-- A truth value from the environment, or else `default`. -/
def bool (env : Environment) (name : String) (default : Bool) : Bool :=
  ((env.get? name).bind readBool?).getD default

/-- A level from the environment, or else `default`. -/
def level (env : Environment) (name : String) (default : Level) : Level :=
  ((env.get? name).bind readLevel?).getD default

end Environment

structure LexicalPreferences where
  /-- Count tokens by kind. -/
  detailedMetrics : Bool
  /-- Count symbols by spelling. -/
  symbolPatterns : Bool
  /-- Log every region that the preprocessor leaves out. -/
  logSkippedRegions : Bool
  /-- Log errors with their position. -/
  positionInErrors : Bool
deriving DecidableEq, Repr

def LexicalPreferences.ofEnvironment (env : Environment) : LexicalPreferences where
  detailedMetrics := env.bool "REFL_LEXICAL_DETAILED_METRICS" true
  symbolPatterns := env.bool "REFL_LEXICAL_TRACK_SYMBOLS" false
  logSkippedRegions := env.bool "REFL_LEXICAL_LOG_SKIPPED_REGIONS" false
  positionInErrors := env.bool "REFL_LEXICAL_INCLUDE_POSITIONS" true

structure LoggingPreferences where
  /-- Write records instead of lines. -/
  structured : Bool
  /-- Write to the console. -/
  console : Bool
  /-- The wanted verbosity. -/
  minLevel : Level
  /-- Name the header in every event. -/
  fileContext : Bool
deriving DecidableEq, Repr

namespace LoggingPreferences

def ofEnvironment (env : Environment) : LoggingPreferences where
  structured := env.bool "REFL_LOGGING_USE_STRUCTURED" false
  console := env.bool "REFL_LOGGING_ENABLE_CONSOLE" false
  minLevel := env.level "REFL_LOGGING_MIN_LEVEL" .info
  fileContext := env.bool "REFL_LOGGING_INCLUDE_FILE_CONTEXT" true

/-- The verbosity that no preference can go below. -/
def floorLevel : Level :=
  match Limits.standard.logFloor with
  | 0 => .error
  | 1 => .warning
  | _ => .info

/-- The verbosity in force. -/
def effectiveLevel (p : LoggingPreferences) : Level := p.minLevel.max floorLevel

def summary (p : LoggingPreferences) : String :=
  "Logging Configuration:\n" ++
  s!"- Log buffer size: {Limits.standard.logBuffer}\n" ++
  s!"- Max message length: {Limits.standard.logMessage}\n" ++
  s!"- Security min level: {Limits.standard.logFloor}\n" ++
  s!"- Min log level: {p.minLevel.name}\n" ++
  s!"- Structured logging: {p.structured}\n" ++
  s!"- Console logging: {p.console}\n" ++
  s!"- Include file context: {p.fileContext}"

end LoggingPreferences

end HeaderLex
