import HeaderLex.Lexer.Basic
import HeaderLex.Lexer.RawText

/-!
# Operations of a lexer

Looking at tokens and consuming them, reading lines and raw text, comments, checkpoints and
recording, and reading a whole source at once.

* `Lexer.peek`, `Lexer.consume`   the two halves of reading a token;
* `Lexer.save`, `Lexer.restore`, `Lexer.abandon`   checkpoints;
* `Lexer.tokenizeAll`, `tokenize`, `tokenizePreprocessed`   all tokens up to the end.
-/

set_option linter.unusedVariables false

namespace HeaderLex

namespace Lexer

/-! ### Tokens -/

/-- The next token, without consuming it. -/
def peek (lx : Lexer) : Outcome Lexer Token :=
  match lx.current with
  | some p => .ok p.token lx
  | none =>
    let o := lx.lexToken
    match o.result with
    | .ok p => ⟨.ok p.token, { o.state with current := some p }, o.events⟩
    | .error f => ⟨.error f, o.state, o.events⟩

/-- The lexer after the current token `t` was consumed: it is recorded and counted, and its comments
become visible or are dropped. -/
def consumed (lx : Lexer) (t : Token) : Lexer :=
  { lx with
    current := none
    recorded := if lx.recording then lx.recorded ++ [t] else lx.recorded
    metrics := lx.metrics.countToken t lx.preferences
    comments := if 0 < lx.commentsOff then lx.comments.clearPending else lx.comments.commit }

def consume (lx : Lexer) : Outcome Lexer Unit :=
  match lx.current with
  | some p => .ok () (lx.consumed p.token)
  | none => .misuse .consumeWithoutPeek lx

/-- Puts a token that was looked at back into the source. -/
def unget (lx : Lexer) : Lexer :=
  match lx.current with
  | some p => { lx with cursor := p.origin, current := none }
  | none => lx

/-- Where the next diagnostic is reported. -/
def position (lx : Lexer) : Position :=
  match lx.current with
  | some p => p.token.start
  | none => lx.cursor.position

/-! ### Lines and raw text -/

/-- The rest of the physical line as one token, without blanks at its ends. -/
def line (lx : Lexer) : Outcome Lexer Token :=
  let lx := lx.unget
  let origin := lx.cursor
  let cs := origin.rest.dropWhile DirectiveLine.isInnerBlank
  let inner := origin.advance (origin.rest.takeWhile DirectiveLine.isInnerBlank) cs 0
  let text := cs.takeWhile (· != '\n')
  let token : Token :=
    ⟨.line, String.ofList (Text.trimEnd text), inner.position, origin.position⟩
  match cs.dropWhile (· != '\n') with
  | [] => .ok token { lx with cursor := inner.advance text [] 0 }
  | c :: rest =>
    .ok token { lx with
      cursor := inner.advance (text ++ [c]) rest 1
      comments := lx.comments.newline }

/-- Raw text up to a terminator or the end of the line, without blanks at its end. -/
def rawText (lx : Lexer) (terminator : Char) (options : RawTextOptions) : Outcome Lexer String :=
  let gap := lx.unget.skipGap
  let lx := gap.2
  match gap.1 with
  | some e => lx.refuse e
  | none =>
    let start := lx.cursor.position
    match RawText.scan terminator options.respectQuotes 0 false lx.cursor.rest with
    | .error cause => lx.refuse ⟨cause, start⟩
    | .ok raw =>
      if raw.inQuotes then lx.refuse ⟨.unterminatedQuote, start⟩
      else
        let taken := if raw.atTerminator && !options.keepTerminator then [terminator] else []
        .ok (String.ofList (Text.trimEnd raw.text))
          { lx with cursor := lx.cursor.advance (raw.text ++ taken) (raw.rest.drop taken.length) 0 }

/-! ### Comments -/

def clearComments (lx : Lexer) : Lexer := { lx with comments := lx.comments.clear }

def disableComments (lx : Lexer) : Lexer := { lx with commentsOff := lx.commentsOff + 1 }

def enableComments (lx : Lexer) : Outcome Lexer Unit :=
  if lx.commentsOff = 0 then .misuse .enableCommentsUnmatched lx
  else .ok () { lx with commentsOff := lx.commentsOff - 1 }

def commitComments (lx : Lexer) : Lexer := { lx with comments := lx.comments.commit }

/-! ### Checkpoints -/

def save (lx : Lexer) : Outcome Lexer Unit :=
  if maxCheckpoints ≤ lx.saved.length then .misuse .lexerCheckpointOverflow lx
  else .ok () { lx with
    saved := ⟨lx.cursor, lx.current, lx.comments, lx.recorded.length⟩ :: lx.saved
    preprocessor := lx.preprocessor.map (·.save) }

def restore (lx : Lexer) : Outcome Lexer Unit :=
  match lx.saved with
  | [] => .misuse .restoreWithoutSave lx
  | s :: saved => .ok () { lx with
    cursor := s.cursor
    current := s.current
    comments := s.comments
    recorded := lx.recorded.take s.recordedCount
    saved := saved
    preprocessor := lx.preprocessor.map (·.restore) }

def abandon (lx : Lexer) : Outcome Lexer Unit :=
  match lx.saved with
  | [] => .misuse .abandonWithoutSave lx
  | _ :: saved => .ok () { lx with
    saved := saved
    preprocessor := lx.preprocessor.map (·.abandon) }

/-! ### Recording -/

def startRecording (lx : Lexer) : Outcome Lexer Unit :=
  if lx.recording then .misuse .recordingTwice lx else .ok () { lx with recording := true }

def record (lx : Lexer) (t : Token) : Outcome Lexer Unit :=
  if lx.recording then .ok () { lx with recorded := lx.recorded ++ [t] }
  else .misuse .recordWhileOff lx

def stopRecording (lx : Lexer) : Lexer := { lx with recording := false, recorded := [] }

/-! ### Whole sources -/

/-- Reading the current token counts as progress too. -/
def workLeft (lx : Lexer) : Nat := 2 * lx.unread + if lx.current.isSome then 1 else 0

theorem workLeft_consumed {lx : Lexer} {t : Token} (h : lx.peek.result = .ok t)
    (ht : t.isEnd = false) : (lx.peek.state.consumed t).workLeft < lx.workLeft := by
  unfold peek at h ⊢
  split at h
  · next p hc => simp [Outcome.ok, workLeft, consumed, unread, hc]
  · next hc =>
    dsimp only at h
    split at h
    · next p hp =>
      simp only [Except.ok.injEq] at h
      have := lexToken_progress hp (h ▸ ht)
      simp only [hp, workLeft, consumed, unread, hc] at this ⊢
      simp
      exact this
    · simp at h

/-- Consumes all tokens up to the end mark, which is consumed too. -/
def drain (lx : Lexer) : Outcome Lexer (List Token) :=
  let o := lx.peek
  match h : o.result with
  | .error f => ⟨.error f, o.state, o.events⟩
  | .ok t =>
    if ht : t.isEnd then ⟨.ok [], o.state.consumed t, o.events⟩
    else
      let r := (o.state.consumed t).drain
      ⟨r.result.map (t :: ·), r.state, o.events ++ r.events⟩
termination_by lx.workLeft
decreasing_by exact workLeft_consumed h (by simpa using ht)

/-- Logged before a source is read. -/
def startEvent (lx : Lexer) : Event :=
  (Event.debug "Starting lexical analysis").withValues
    [("bytes", toString (Text.byteLength lx.source)), ("max_name_length", toString maxName),
      ("max_string_length", toString maxText)]

/-- Logged after a source was read. -/
def finishEvent (lx : Lexer) (tokens : Nat) : Event :=
  (Event.success Code.tokenizationCompleted "Tokenization completed").withValues
    [("tokens", toString tokens), ("comments", toString lx.metrics.comments),
      ("regions_skipped", toString lx.metrics.regions)]

/-- All tokens up to the end of the source. -/
def tokenizeAll (lx : Lexer) : Outcome Lexer (List Token) :=
  let o := lx.drain
  let finish := match o.result with
    | .ok tokens => [o.state.finishEvent tokens.length]
    | .error _ => []
  ⟨o.result, o.state, lx.startEvent :: o.events ++ finish⟩

end Lexer

/-- All tokens of a source, read without a preprocessor. -/
def tokenize (source : String) (preferences : LexicalPreferences) : Outcome Lexer (List Token) :=
  (Lexer.ofSource source preferences).tokenizeAll

/-- All tokens of a source, read with conditional compilation over the standard symbols. -/
def tokenizePreprocessed (source : String) (preferences : LexicalPreferences) :
    Outcome Lexer (List Token) :=
  ((Lexer.ofSource source preferences).withPreprocessor
    (some (.conditional Conditional.standard))).tokenizeAll

end HeaderLex
