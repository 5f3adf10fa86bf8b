import HeaderLex.Lexer.Operations
import HeaderLex.Replay

/-!
# Token streams

A stream is a lexer that reads a source, or a replay of recorded tokens.  The grammar works on
either.
-/

namespace HeaderLex

inductive Stream where
  | live (lexer : Lexer)
  | replay (r : Replay)

namespace Stream

variable {α : Type}

/-- The next token, without consuming it. -/
def peek : Stream → Outcome Stream Token
  | live lx => lx.peek.mapState live
  | replay r => .ok r.peek (replay r)

def consume : Stream → Outcome Stream Unit
  | live lx => lx.consume.mapState live
  | replay r => .ok () (replay r.consume)

/-- The rest of the physical line as one token. -/
def line : Stream → Outcome Stream Token
  | live lx => lx.line.mapState live
  | replay r => .misuse .lineOnReplay (replay r)

/-- Raw text up to a terminator or the end of the line. -/
def rawText (terminator : Char) (options : RawTextOptions) : Stream → Outcome Stream String
  | live lx => (lx.rawText terminator options).mapState live
  | replay r => .misuse .rawTextOnReplay (replay r)

/-- Comments before the consumed tokens; replayed tokens have none. -/
def comments : Stream → List Comment
  | live lx => lx.comments.committed
  | replay _ => []

def clearComments : Stream → Outcome Stream Unit
  | live lx => .ok () (live lx.clearComments)
  | replay r => .ok () (replay r)

def disableComments : Stream → Outcome Stream Unit
  | live lx => .ok () (live lx.disableComments)
  | replay r => .ok () (replay r)

def enableComments : Stream → Outcome Stream Unit
  | live lx => lx.enableComments.mapState live
  | replay r => .ok () (replay r)

def commitComments : Stream → Outcome Stream Unit
  | live lx => .ok () (live lx.commitComments)
  | replay r => .ok () (replay r)

def save : Stream → Outcome Stream Unit
  | live lx => lx.save.mapState live
  | replay r => r.save.mapState replay

def restore : Stream → Outcome Stream Unit
  | live lx => lx.restore.mapState live
  | replay r => r.restore.mapState replay

def abandon : Stream → Outcome Stream Unit
  | live lx => lx.abandon.mapState live
  | replay r => r.abandon.mapState replay

def startRecording : Stream → Outcome Stream Unit
  | live lx => lx.startRecording.mapState live
  | replay r => .misuse .recordingOnReplay (replay r)

def record (t : Token) : Stream → Outcome Stream Unit
  | live lx => (lx.record t).mapState live
  | replay r => .misuse .recordingOnReplay (replay r)

def stopRecording : Stream → Outcome Stream Unit
  | live lx => .ok () (live lx.stopRecording)
  | replay r => .misuse .recordingOnReplay (replay r)

def recorded : Stream → List Token
  | live lx => lx.recorded
  | replay _ => []

/-- Where the next diagnostic is reported. -/
def position : Stream → Position
  | live lx => lx.position
  | replay r => r.peek.start

/-- Number of checkpoints. -/
def checkpoints : Stream → Nat
  | live lx => lx.saved.length
  | replay r => r.saved.length

/-- No loop over the tokens of the stream takes more turns than this: a turn consumes a token, or
goes back to one of few checkpoints. -/
def budget : Stream → Nat
  | live lx => 16 * (lx.source.length + 1)
  | replay r => 16 * (r.rest.length + r.saved.flatten.length + 1)

end Stream

end HeaderLex
