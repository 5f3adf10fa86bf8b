import HeaderLex.Settings.Preferences
import HeaderLex.Settings.Toml.Document

/-!
# Settings files

Preferences from a TOML document.  What the document does not say comes from the environment; keys
that mean nothing are ignored.
-/

namespace HeaderLex

structure Config where
  lexical : LexicalPreferences
  logging : LoggingPreferences
deriving DecidableEq, Repr

namespace Config

open Toml

def ofEnvironment (env : Environment) : Config :=
  ⟨.ofEnvironment env, .ofEnvironment env⟩

/-- The settings of a section: by name, or one after another in a fixed order. -/
inductive Section where
  | named (entries : Entries)
  | listed (items : List Item)

namespace Section

/-- The section that a value is.  A moment has no settings. -/
def ofItem : Item → Except Problem Section
  | .table _ entries => .ok (.named entries)
  | .moment _ => .ok (.named [])
  | .array items => .ok (.listed items)
  | .tables newest older => .ok (.listed ((newest :: older).reverse.map (Item.table .header)))
  | _ => .error .wrongType

/-- The value of the setting with a name and a place in the order. -/
def get? (s : Section) (place : Nat) (name : String) : Option Item :=
  match s with
  | named entries => entries.lookup name
  | listed items => items[place]?

/-- A truth value, or else `default`. -/
def bool (s : Section) (place : Nat) (name : String) (default : Bool) : Except Problem Bool :=
  match s.get? place name with
  | none => .ok default
  | some (.bool b) => .ok b
  | some _ => .error .wrongType

/-- Nothing stands in a table or an array. -/
def isVoid : Item → Bool
  | .table _ entries => entries.isEmpty
  | .array items => items.isEmpty
  | _ => false

/-- The level that a value names: a string, or a table with one void entry under the name. -/
def levelName? : Item → Option String
  | .text s => some s
  | .table _ [(name, item)] => if isVoid item then some name else none
  | _ => none

/-- A level, or else `default`. -/
def level (s : Section) (place : Nat) (name : String) (default : Level) : Except Problem Level :=
  match s.get? place name with
  | none => .ok default
  | some item =>
    match (levelName? item).bind Level.ofName? with
    | some l => .ok l
    | none => .error .wrongType

end Section

/-- The scanner's preferences in a section. -/
def lexicalOf (s : Section) (p : LexicalPreferences) : Except Problem LexicalPreferences := do
  return {
    detailedMetrics := ← s.bool 0 "collect_detailed_metrics" p.detailedMetrics
    symbolPatterns := ← s.bool 1 "track_symbol_patterns" p.symbolPatterns
    logSkippedRegions := ← s.bool 2 "log_skipped_regions" p.logSkippedRegions
    positionInErrors := ← s.bool 3 "include_position_in_errors" p.positionInErrors }

/-- The log's preferences in a section. -/
def loggingOf (s : Section) (p : LoggingPreferences) : Except Problem LoggingPreferences := do
  return {
    structured := ← s.bool 0 "use_structured_logging" p.structured
    console := ← s.bool 1 "enable_console_logging" p.console
    minLevel := ← s.level 2 "min_log_level" p.minLevel
    fileContext := ← s.bool 3 "include_file_context" p.fileContext }

/-- What the section with a name says, or else `default`. -/
def sectionOr {α : Type} (entries : Entries) (name : String) (read : Section → α → Except Problem α)
    (default : α) : Except Problem α :=
  match entries.lookup name with
  | none => .ok default
  | some item => do read (← Section.ofItem item) default

/-- Preferences from the text of a settings file. -/
def ofToml (env : Environment) (text : String) : Except Problem Config := do
  let base := ofEnvironment env
  let entries ← document text
  return ⟨← sectionOr entries "lexical" lexicalOf base.lexical,
    ← sectionOr entries "logging" loggingOf base.logging⟩

end Config

end HeaderLex
