import HeaderLex.Log.Event
import HeaderLex.Misuse
import HeaderLex.SourceMap

/-!
# Source errors and failures

A source error is a cause at a position.  The caller may catch it and go on; misuse of a stream
and faults end the computation.

* `SourceError.message`   the wording, in one place;
* `SourceError.code`      the code of a cause;
* `SourceError.event`     what is logged about it;
* `SourceError.render`    the message with the line it is about;
* `Failure`               all ways in which an operation can fail.
-/

namespace HeaderLex

/-- Why a source was refused. -/
inductive Cause where
  | unexpectedToken (expected found : String) (context : Option String)
  | unterminatedString
  | unterminatedChar
  | identifierTooLong (max : Nat)
  | stringTooLong (max : Nat)
  | numberTooLong (max : Nat)
  | unterminatedQuote
  | unexpectedCommentClose
  | unterminatedComment
  | mismatchedDelimiters (opening closing : String) (context : Option String)
  | unbalancedBracket (bracket : Char)
  | invalidNumeric (text : String)
  | illegalMacroInConditional (name : String)
  | serializeInConditional
  | invalidDirective (message : String)
deriving DecidableEq, Repr

namespace Cause

/-- The cause as one word, as records use it. -/
def name : Cause → String
  | unexpectedToken .. => "UnexpectedToken"
  | unterminatedString => "UnterminatedString"
  | unterminatedChar => "UnterminatedChar"
  | identifierTooLong _ => "IdentifierTooLong"
  | stringTooLong _ => "StringTooLong"
  | numberTooLong _ => "NumberTooLong"
  | unterminatedQuote => "UnterminatedQuote"
  | unexpectedCommentClose => "UnexpectedCommentClose"
  | unterminatedComment => "UnterminatedComment"
  | mismatchedDelimiters .. => "MismatchedDelimiters"
  | unbalancedBracket _ => "UnbalancedBracket"
  | invalidNumeric _ => "InvalidNumeric"
  | illegalMacroInConditional _ => "IllegalMacroInConditional"
  | serializeInConditional => "SerializeInConditional"
  | invalidDirective _ => "InvalidDirective"

def code : Cause → Code
  | unexpectedToken .. => Code.unexpectedToken
  | unterminatedString => Code.unterminatedString
  | unterminatedChar => Code.unterminatedChar
  | identifierTooLong _ => Code.identifierTooLong
  | stringTooLong _ => Code.stringTooLong
  | numberTooLong _ => Code.numberTooLong
  | unterminatedQuote => Code.unterminatedQuote
  | unexpectedCommentClose => Code.unexpectedCommentClose
  | unterminatedComment => Code.unterminatedComment
  | mismatchedDelimiters .. => Code.mismatchedDelimiters
  | unbalancedBracket _ => Code.unbalancedBracket
  | invalidNumeric _ => Code.invalidNumeric
  | illegalMacroInConditional _ => Code.illegalMacroInConditional
  | serializeInConditional => Code.serializeInConditional
  | invalidDirective _ => Code.invalidDirective

/-- Whether the caller may try another way of reading. -/
def recoverable : Cause → Bool
  | identifierTooLong _ | unbalancedBracket _ => false
  | _ => true

end Cause

structure SourceError where
  cause : Cause
  position : Position
deriving DecidableEq, Repr

namespace SourceError

def code (e : SourceError) : Code := e.cause.code

def recoverable (e : SourceError) : Bool := e.cause.recoverable

/-- The construct an error was found in, as a suffix. -/
def contextSuffix : Option String → String
  | some context => s!" in {context}"
  | none => ""

def message (e : SourceError) : String :=
  let place := e.position.render
  match e.cause with
  | .unexpectedToken expected found context =>
    s!"Missing '{expected}'{contextSuffix context} at {place}, found '{found}'"
  | .unterminatedString => s!"Unterminated string constant at {place}"
  | .unterminatedChar => s!"Unterminated character constant at {place}"
  | .identifierTooLong max => s!"Identifier length exceeds maximum of {max} at {place}"
  | .stringTooLong max => s!"String length exceeds maximum of {max} at {place}"
  | .numberTooLong max => s!"Numeric literal length exceeds maximum of {max} at {place}"
  | .unterminatedQuote => s!"Unterminated quoted string at {place}"
  | .unexpectedCommentClose => s!"Unexpected '*/' outside of a comment at {place}"
  | .unterminatedComment => s!"End of input inside a block comment at {place}"
  | .mismatchedDelimiters opening closing context =>
    s!"Mismatched '{opening}' and '{closing}'{contextSuffix context} at {place}"
  | .unbalancedBracket bracket => s!"Unexpected '{bracket}' at {place}. Did you miss a semi-colon?"
  | .invalidNumeric text => s!"Invalid numeric value '{text}' at {place}"
  | .illegalMacroInConditional name =>
    s!"'{name}' must not be inside preprocessor blocks, except for WITH_EDITORONLY_DATA (at {place})"
  | .serializeInConditional =>
    "Serialize functions must not be inside preprocessor blocks, except for " ++
      s!"WITH_EDITORONLY_DATA (at {place})"
  | .invalidDirective message => s!"Invalid preprocessor directive: {message} at {place}"

/-- What is logged about the error, without its place. -/
def plainEvent (e : SourceError) : Event := Event.error e.code e.message

/-- What is logged about the error: its message, place and line. -/
def event (e : SourceError) : Event :=
  (e.plainEvent.withSpan (Span.emptyAt e.position)).withValue "line" (toString e.position.line)

/-- The message with the source line it is about. -/
def render (e : SourceError) (m : SourceMap) : Except Fault String :=
  m.excerpt (Span.emptyAt e.position) e.message

end SourceError

/-- What is logged about misuse. -/
def Misuse.event (m : Misuse) : Event := Event.error Code.internalError m.describe

/-- The ways in which an operation fails. -/
inductive Failure where
  /-- The source is at fault; the caller may go on. -/
  | source (error : SourceError)
  /-- The caller is at fault; the computation ends. -/
  | misuse (cause : Misuse)
  /-- The values are impossible; the computation ends. -/
  | fault (cause : Fault)
deriving DecidableEq, Repr

/-- A diagnostic that does not stop anything. -/
structure Warning where
  code : Code
  message : String
  position : Position
deriving DecidableEq, Repr

/-- What is logged about a warning. -/
def Warning.event (w : Warning) : Event :=
  ((Event.warningOf w.code w.message).withSpan (Span.emptyAt w.position)).withValue "line"
    (toString w.position.line)

end HeaderLex
