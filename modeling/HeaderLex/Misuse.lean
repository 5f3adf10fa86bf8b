import HeaderLex.Token.Kind

/-!
# Misuse of a stream

Operations that a caller must not ask for in the state a stream, an arena or a token is in.  They
end the computation, and each has one message.
-/

namespace HeaderLex

inductive Misuse where
  | consumeWithoutPeek
  | enableCommentsUnmatched
  | lexerCheckpointOverflow
  | replayCheckpointOverflow
  | restoreWithoutSave
  | abandonWithoutSave
  | recordingTwice
  | recordWhileOff
  | lineOnReplay
  | rawTextOnReplay
  | recordingOnReplay
  | staleTokenList
  | unescapeOf (kind : TokenKind)
deriving DecidableEq, Repr

namespace Misuse

/-- What was done wrong. -/
def describe : Misuse → String
  | consumeWithoutPeek => "consume_token called without a peeked token"
  | enableCommentsUnmatched => "enable_comments called without matching disable_comments"
  | lexerCheckpointOverflow => "lexer save state stack overflow"
  | replayCheckpointOverflow => "replay save state stack overflow"
  | restoreWithoutSave => "restore_state called without a saved state"
  | abandonWithoutSave => "abandon_state called without a saved state"
  | recordingTwice => "recording is already enabled"
  | recordWhileOff => "record_token called while recording is disabled"
  | lineOnReplay => "get_line is not supported on replayed tokens"
  | rawTextOnReplay => "get_raw_string is not supported on replayed tokens"
  | recordingOnReplay => "recording is not supported on replayed tokens"
  | staleTokenList => "token list used after it was released"
  | unescapeOf kind => s!"get_unescaped_string called on a {kind.describe} token"

/-- The message that ends the computation. -/
def message (m : Misuse) : String := "Internal error: " ++ m.describe

end Misuse

end HeaderLex
