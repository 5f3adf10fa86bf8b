/-!
# Diagnostic codes

Every diagnostic has a short code.  A registry gives the classification of the known codes; an
unknown code has the classification of `Code.unknown`.
-/

namespace HeaderLex

structure Code where
  text : String
deriving DecidableEq, Repr

inductive Severity where
  | critical
  | high
  | medium
  | low
deriving DecidableEq, Repr

def Severity.name : Severity → String
  | critical => "Critical"
  | high => "High"
  | medium => "Medium"
  | low => "Low"

namespace Code

def internalError : Code := ⟨"ERR001"⟩
def initializationFailure : Code := ⟨"ERR002"⟩

def unterminatedString : Code := ⟨"E020"⟩
def unterminatedChar : Code := ⟨"E021"⟩
def identifierTooLong : Code := ⟨"E022"⟩
def stringTooLong : Code := ⟨"E023"⟩
def numberTooLong : Code := ⟨"E024"⟩
def unterminatedQuote : Code := ⟨"E025"⟩
def unexpectedCommentClose : Code := ⟨"E026"⟩
def unterminatedComment : Code := ⟨"E027"⟩

def mismatchedDelimiters : Code := ⟨"E042"⟩
def unbalancedBracket : Code := ⟨"E043"⟩
def invalidNumeric : Code := ⟨"E044"⟩
def unexpectedToken : Code := ⟨"E050"⟩

def illegalMacroInConditional : Code := ⟨"E060"⟩
def serializeInConditional : Code := ⟨"E061"⟩
def invalidDirective : Code := ⟨"E062"⟩

def warning : Code := ⟨"W000"⟩
def reflectionMacroSkipped : Code := ⟨"W010"⟩

def info : Code := ⟨"I000"⟩
def debug : Code := ⟨"D000"⟩
def loggingStarted : Code := ⟨"I004"⟩
def tokenizationCompleted : Code := ⟨"I020"⟩
def declarationSkipped : Code := ⟨"I040"⟩
def regionSkipped : Code := ⟨"I041"⟩

/-- The classification of a code. -/
structure Entry where
  code : Code
  category : String
  severity : Severity
  /-- The caller may go on after it. -/
  recoverable : Bool
  /-- Processing must stop. -/
  halts : Bool
  description : String
  action : String
deriving DecidableEq, Repr

/-- The registered codes. -/
def registry : List Entry := [
  ⟨internalError, "System", .critical, false, true,
    "Token stream protocol misuse by the calling layer",
    "File a bug report against the parser that drove the stream"⟩,
  ⟨initializationFailure, "System", .critical, false, true,
    "Logging or configuration initialization failure",
    "Check runtime configuration and environment variables"⟩,
  ⟨unterminatedString, "Lexical", .high, true, false,
    "String constant is not terminated before end of line",
    "Close the string literal with a double quote"⟩,
  ⟨unterminatedChar, "Lexical", .high, true, false,
    "Character constant is not terminated",
    "Close the character literal with a single quote"⟩,
  ⟨identifierTooLong, "Lexical", .critical, false, true,
    "Identifier exceeds the maximum name length",
    "Shorten the identifier"⟩,
  ⟨stringTooLong, "Lexical", .high, true, false,
    "String exceeds the maximum string length",
    "Shorten the string or split it"⟩,
  ⟨numberTooLong, "Lexical", .high, true, false,
    "Numeric literal exceeds the maximum length",
    "Shorten the numeric literal"⟩,
  ⟨unterminatedQuote, "Lexical", .high, true, false,
    "Quoted text inside a raw string is not terminated",
    "Balance the double quotes in the raw string"⟩,
  ⟨unexpectedCommentClose, "Lexical", .high, true, false,
    "Block comment terminator found outside of a comment",
    "Remove the stray '*/'"⟩,
  ⟨unterminatedComment, "Lexical", .high, true, false,
    "End of input reached inside a block comment",
    "Close the block comment with '*/'"⟩,
  ⟨mismatchedDelimiters, "Syntax", .high, true, false,
    "Opening and closing delimiters do not match",
    "Balance the delimiters around the construct"⟩,
  ⟨unbalancedBracket, "Syntax", .critical, false, true,
    "Closing bracket found with no matching opener while skipping a declaration",
    "Check for a missing semicolon before this point"⟩,
  ⟨invalidNumeric, "Syntax", .medium, true, false,
    "Expected a numeric constant",
    "Provide an integer or floating point literal"⟩,
  ⟨unexpectedToken, "Syntax", .medium, true, false,
    "Unexpected token",
    "Check syntax around the reported position"⟩,
  ⟨illegalMacroInConditional, "Preprocessor", .high, true, false,
    "Reflection markup macro found inside a conditional block",
    "Move the macro outside the conditional or use WITH_EDITORONLY_DATA"⟩,
  ⟨serializeInConditional, "Preprocessor", .high, true, false,
    "Serialization entry point found inside a conditional block",
    "Keep Serialize declarations outside preprocessor conditionals"⟩,
  ⟨invalidDirective, "Preprocessor", .medium, true, false,
    "Malformed or unbalanced preprocessor directive",
    "Check the #if/#else/#endif structure"⟩,
  ⟨warning, "Warning", .low, true, false,
    "General warning",
    "Review the reported construct"⟩,
  ⟨reflectionMacroSkipped, "Warning", .low, true, false,
    "Reflection markup macro seen while skipping an unrecognized declaration",
    "The macro will not be processed; check the surrounding declaration"⟩]

/-- The registered classification of a code. -/
def registered? (c : Code) : Option Entry := registry.find? (·.code == c)

/-- What a code that is not registered counts as. -/
def unknown (c : Code) : Entry :=
  ⟨c, "Unknown", .medium, true, false, "Unknown error", "No specific action available"⟩

/-- The classification of a code. -/
def entry (c : Code) : Entry := c.registered?.getD (unknown c)

/-- The codes the scanner can raise. -/
def scannerCodes : List Code :=
  [unterminatedString, unterminatedChar, identifierTooLong, stringTooLong, numberTooLong,
    unterminatedQuote, unexpectedCommentClose, unterminatedComment, illegalMacroInConditional,
    serializeInConditional, invalidDirective]

end Code

end HeaderLex
