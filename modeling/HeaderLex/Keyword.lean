/-!
# Reserved words and symbols

The markup macros of reflected headers, the specifier macros, and the tables of symbols and macro
names that the scanner and the declaration skipper use.
-/

namespace HeaderLex

/-- Macros that attach metadata to the declaration after them. -/
inductive ReflectionMacro where
  | uclass
  | ustruct
  | uenum
  | uinterface
  | uproperty
  | ufunction
  | udelegate
deriving DecidableEq, Repr

namespace ReflectionMacro

def spelling : ReflectionMacro → String
  | uclass => "UCLASS"
  | ustruct => "USTRUCT"
  | uenum => "UENUM"
  | uinterface => "UINTERFACE"
  | uproperty => "UPROPERTY"
  | ufunction => "UFUNCTION"
  | udelegate => "UDELEGATE"

/-- The macro as one word, as records use it. -/
def name : ReflectionMacro → String
  | uclass => "UClass"
  | ustruct => "UStruct"
  | uenum => "UEnum"
  | uinterface => "UInterface"
  | uproperty => "UProperty"
  | ufunction => "UFunction"
  | udelegate => "UDelegate"

def all : List ReflectionMacro :=
  [uclass, ustruct, uenum, uinterface, uproperty, ufunction, udelegate]

def ofSpelling? (s : String) : Option ReflectionMacro := all.find? (·.spelling == s)

/-- The macro begins a reflected type. -/
def isType : ReflectionMacro → Bool
  | uclass | ustruct | uenum | uinterface => true
  | _ => false

end ReflectionMacro

/-- Macros that mark a declaration as deprecated. -/
inductive DeprecationMacro where
  | deprecated
  | deprecatedForGame
  | deprecatedForEngine
  | bare
deriving DecidableEq, Repr

namespace DeprecationMacro

def spelling : DeprecationMacro → String
  | deprecated => "UE_DEPRECATED"
  | deprecatedForGame => "UE_DEPRECATED_FORGAME"
  | deprecatedForEngine => "UE_DEPRECATED_FORENGINE"
  | bare => "DEPRECATED"

/-- The macro as one word, as records use it. -/
def name : DeprecationMacro → String
  | deprecated => "UeDeprecated"
  | deprecatedForGame => "UeDeprecatedForGame"
  | deprecatedForEngine => "UeDeprecatedForEngine"
  | bare => "Deprecated"

def all : List DeprecationMacro := [deprecated, deprecatedForGame, deprecatedForEngine, bare]

def ofSpelling? (s : String) : Option DeprecationMacro := all.find? (·.spelling == s)

end DeprecationMacro

/-- Specifier macros without arguments. -/
inductive Marker where
  | noReturn
  | noDiscard
  | noDiscardCtor
  | noUniqueAddress
deriving DecidableEq, Repr

namespace Marker

def spelling : Marker → String
  | noReturn => "UE_NORETURN"
  | noDiscard => "UE_NODISCARD"
  | noDiscardCtor => "UE_NODISCARD_CTOR"
  | noUniqueAddress => "UE_NO_UNIQUE_ADDRESS"

/-- The marker as one word, as records use it. -/
def name : Marker → String
  | noReturn => "NoReturn"
  | noDiscard => "NoDiscard"
  | noDiscardCtor => "NoDiscardCtor"
  | noUniqueAddress => "NoUniqueAddress"

def all : List Marker := [noReturn, noDiscard, noDiscardCtor, noUniqueAddress]

def ofSpelling? (s : String) : Option Marker := all.find? (·.spelling == s)

end Marker

namespace Keyword

/-- Symbols of two characters.  Two closing angle brackets stay apart, because they may close two
template lists. -/
def pairSymbols : List String :=
  ["<<", "!=", "<=", ">=", "++", "--", "+=", "-=", "*=", "/=", "&&", "||", "^^", "==", "**", "~=",
    "::", "[["]

/-- Beginnings of the macros that declare delegates and events. -/
def delegateMacros : List String :=
  ["DECLARE_MULTICAST_DELEGATE", "DECLARE_DELEGATE", "DECLARE_EVENT"]

/-- Names in macro style that begin an ordinary declaration. -/
def plainMacros : List String := ["DECLARE_FUNCTION"]

/-- Words that take their arguments in parentheses without being macros. -/
def parenWords : List String := ["static_assert"]

def isPairSymbol (s : String) : Bool := pairSymbols.contains s

def isReflectionMacro (s : String) : Bool := (ReflectionMacro.ofSpelling? s).isSome

/-- A capital letter or the underscore. -/
def isMacroStart (c : Char) : Bool := c == '_' || c.isUpper

/-- A capital letter, a digit or the underscore. -/
def isMacroChar (c : Char) : Bool := c == '_' || c.isUpper || c.isDigit

/-- The name looks like a macro: it begins like a delegate macro, or has no small letters. -/
def isMacroStyle (s : String) : Bool :=
  delegateMacros.any (fun p => p.toList.isPrefixOf s.toList) ||
    match s.toList with
    | [] => false
    | c :: cs => isMacroStart c && cs.all isMacroChar

end Keyword

/-- What a word means to the grammar. -/
inductive WordClass where
  | reflection (m : ReflectionMacro)
  | deprecation (m : DeprecationMacro)
  | marker (m : Marker)
  | macroStyle
  | plain
deriving DecidableEq, Repr

def WordClass.of (word : String) : WordClass :=
  match ReflectionMacro.ofSpelling? word with
  | some m => .reflection m
  | none =>
    match DeprecationMacro.ofSpelling? word with
    | some m => .deprecation m
    | none =>
      match Marker.ofSpelling? word with
      | some m => .marker m
      | none => if Keyword.isMacroStyle word then .macroStyle else .plain

end HeaderLex
