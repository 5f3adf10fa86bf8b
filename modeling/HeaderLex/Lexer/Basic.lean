import HeaderLex.Lexer.DirectiveLine
import HeaderLex.Lexer.Gap
import HeaderLex.Lexer.Lexeme
import HeaderLex.Lexer.Metrics
import HeaderLex.Outcome
import HeaderLex.Preprocessor.Basic
import HeaderLex.Preprocessor.IllegalContents

/-!
# Lexers

A lexer reads the tokens of a source one by one.  This module has its state and the search for the
next token: over the gap, over directive lines and over the regions that the preprocessor leaves
out.

* `Lexer.lexAt`          the token at the cursor;
* `Lexer.scanExcluded`   steps over an excluded region, up to the directive that ends it;
* `Lexer.lexToken`       the next token of the included text;
* `lexToken_progress`    every token but the end mark moves the cursor forward.
-/

set_option linter.unusedVariables false

namespace HeaderLex

/-- A token that was looked at but not consumed, and where the cursor stood before its gap. -/
structure Peeked where
  token : Token
  origin : Cursor
deriving DecidableEq, Repr

/-- What a checkpoint of a lexer remembers. -/
structure Snapshot where
  cursor : Cursor
  current : Option Peeked
  comments : CommentBuffer
  /-- How many tokens were recorded. -/
  recordedCount : Nat
deriving DecidableEq, Repr

structure Lexer where
  source : List Char
  cursor : Cursor
  /-- The token that was looked at but not consumed. -/
  current : Option Peeked
  comments : CommentBuffer
  /-- While positive, consuming a token drops the comments before it. -/
  commentsOff : Nat
  /-- Checkpoints, newest first. -/
  saved : List Snapshot
  recording : Bool
  recorded : List Token
  preprocessor : Option Preprocessor
  metrics : Metrics
  preferences : LexicalPreferences

namespace Lexer

def ofSource (source : String) (preferences : LexicalPreferences) : Lexer where
  source := source.toList
  cursor := Cursor.ofText source.toList
  current := none
  comments := CommentBuffer.empty
  commentsOff := 0
  saved := []
  recording := false
  recorded := []
  preprocessor := none
  metrics := Metrics.zero
  preferences := preferences

def withPreprocessor (lx : Lexer) (p : Option Preprocessor) : Lexer := { lx with preprocessor := p }

/-- Only blanks stand before a token on its line. -/
def isFirstInLine (lx : Lexer) (t : Token) : Bool :=
  match Text.cutAt? (min t.start.offset (Text.byteLength lx.source)) lx.source with
  | some (before, _) => lastLineBlank before.reverse
  | none => false

/-! ### One token -/

/-- Literals that lack their end are prose in an excluded region. -/
def isUnclosedLiteral : Cause → Bool
  | .unterminatedString | .unterminatedChar => true
  | _ => false

/-- What is logged about an error of the scanner. -/
def report (lx : Lexer) (e : SourceError) : Event :=
  if lx.preferences.positionInErrors then e.event else e.plainEvent

/-- Ends with a source error, logged as the preferences say. -/
def refuse {α : Type} (lx : Lexer) (e : SourceError) : Outcome Lexer α :=
  ⟨.error (.source e), lx, [lx.report e]⟩

/-- Ends inside an excluded region with a source error.  Nothing is logged there about a literal that
lacks its end, also where it is the preprocessor that says so. -/
def refuseInside {α : Type} (lx : Lexer) (e : SourceError) : Outcome Lexer α :=
  ⟨.error (.source e), lx, if isUnclosedLiteral e.cause then [] else [lx.report e]⟩

/-- Steps over the gap at the cursor. -/
def skipGap (lx : Lexer) : Option SourceError × Lexer :=
  let (cause, m) := Margin.skip ⟨lx.cursor, lx.comments, lx.metrics.comments⟩
  let lx := { lx with
    cursor := m.cursor
    comments := m.comments
    metrics := { lx.metrics with comments := m.commentCount } }
  (cause.map fun cause => ⟨cause, m.cursor.position⟩, lx)

/-- The token at the cursor, where no gap is. -/
def lexAt (lx : Lexer) (unget : Position) : Except SourceError Token × Lexer :=
  let start := lx.cursor.position
  match lx.cursor.rest with
  | [] => (.ok ⟨.endOfFile, "", start, unget⟩, lx)
  | c :: cs =>
    match Lexeme.scan c cs with
    | .error cause => (.error ⟨cause, start⟩, lx)
    | .ok l =>
      (.ok ⟨l.kind, String.ofList l.text, start, unget⟩,
        { lx with cursor := lx.cursor.advance l.text l.rest l.lines })

/-- The symbol before a directive, if one stands at the cursor, and the text after it. -/
def directiveAt? (c : Cursor) : Option (List Char) :=
  match c.rest with
  | '#' :: cs => if c.atLineStart then some cs else none
  | _ => none

/-- Reads the directive whose symbol stands at the cursor. -/
def readDirective (lx : Lexer) (unget : Position) (rest : List Char) : Directive × Lexer :=
  let hash : Token := ⟨.symbol, "#", lx.cursor.position, unget⟩
  let (d, cursor) := DirectiveLine.read hash (lx.cursor.advance ['#'] rest 0)
  (d, { lx with cursor, metrics := { lx.metrics with directives := lx.metrics.directives + 1 } })

/-- Asks the preprocessor about a directive; without one, everything is included. -/
def askPreprocessor (lx : Lexer) (d : Directive) (isIncluded : Bool) :
    Except SourceError Verdict × Lexer :=
  match lx.preprocessor with
  | none => (.ok ⟨.included, false⟩, lx)
  | some p =>
    let (r, p) := p.answer d isIncluded
    (r, { lx with preprocessor := some p })

/-- Steps over the character at the cursor and the rest of its line. -/
def skipLine (lx : Lexer) : Lexer :=
  match lx.cursor.rest with
  | [] => lx
  | c :: cs =>
    let text := c :: cs.takeWhile (· != '\n')
    { lx with cursor := lx.cursor.advance text (cs.dropWhile (· != '\n')) 0 }

/-! ### The cursor moves forward -/

/-- Characters after the cursor. -/
def unread (lx : Lexer) : Nat := lx.cursor.rest.length

theorem unread_skipGap_le (lx : Lexer) : lx.skipGap.2.unread ≤ lx.unread :=
  Margin.length_rest_skip_le _

theorem unread_readDirective (lx : Lexer) (unget : Position) {rest : List Char}
    (h : directiveAt? lx.cursor = some rest) : (lx.readDirective unget rest).2.unread < lx.unread := by
  have hle : (lx.readDirective unget rest).2.unread ≤ rest.length :=
    DirectiveLine.length_rest_read_le ⟨.symbol, "#", lx.cursor.position, unget⟩
      (lx.cursor.advance ['#'] rest 0)
  refine Nat.lt_of_le_of_lt hle ?_
  unfold directiveAt? at h
  unfold unread
  split at h
  · next cs hr =>
    split at h
    · simp only [Option.some.injEq] at h
      subst h
      simp [hr]
    · simp at h
  · simp at h

@[simp] theorem unread_askPreprocessor (lx : Lexer) (d : Directive) (isIncluded : Bool) :
    (lx.askPreprocessor d isIncluded).2.unread = lx.unread := by
  unfold askPreprocessor
  split <;> rfl

theorem unread_skipLine (lx : Lexer) (h : lx.cursor.rest ≠ []) : lx.skipLine.unread < lx.unread := by
  unfold skipLine
  split
  · next hr => exact absurd hr h
  · next c cs hr =>
    have := (@List.dropWhile_sublist _ cs (· != '\n')).length_le
    simp only [unread, Cursor.rest_advance, hr, List.length_cons]
    omega

theorem lexAt_error {lx : Lexer} {unget : Position} {e : SourceError}
    (h : (lx.lexAt unget).1 = .error e) : (lx.lexAt unget).2 = lx ∧ lx.cursor.rest ≠ [] := by
  unfold lexAt at h ⊢
  split at h
  · simp at h
  · next c cs hr =>
    split at h
    · simp [hr]
    · simp at h

theorem unread_lexAt {lx : Lexer} {unget : Position} {t : Token}
    (h : (lx.lexAt unget).1 = .ok t) (ht : t.isEnd = false) :
    (lx.lexAt unget).2.unread < lx.unread := by
  unfold lexAt at h ⊢
  split at h
  · simp only [Except.ok.injEq] at h
    subst h
    simp [Token.isEnd, TokenKind.isEnd] at ht
  · next c cs hr =>
    split at h
    · simp at h
    · next l hl =>
      simp only [hr, unread, Cursor.rest_advance]
      exact Lexeme.length_rest_of_scan hl

theorem unread_lexAt_le (lx : Lexer) (unget : Position) :
    (lx.lexAt unget).2.unread ≤ lx.unread := by
  unfold lexAt
  split
  · exact Nat.le_refl _
  · next c cs hr =>
    split
    · exact Nat.le_refl _
    · next l hl =>
      simp only [hr, unread, Cursor.rest_advance]
      exact Nat.le_of_lt (Lexeme.length_rest_of_scan hl)

/-! ### Excluded regions -/

/-- The state of stepping over an excluded region. -/
structure Skim where
  lexer : Lexer
  /-- Tokens are searched for illegal contents. -/
  scan : Bool
  seen : SerializeState

/-- What follows a directive inside an excluded region: its end, or more of it.  A search that
begins anew has seen nothing. -/
def Skim.turn (x : Skim) (lx : Lexer) (region : Region) : Outcome Lexer Unit ⊕ Skim :=
  match region with
  | .included => .inl (.ok () lx)
  | .scanned => .inr ⟨lx, true, if x.scan then x.seen else .start⟩
  | .silent => .inr ⟨lx, false, x.seen⟩

/-- What follows a token inside an excluded region. -/
def Skim.look (x : Skim) (lx : Lexer) (t : Token) : Outcome Lexer Unit ⊕ Skim :=
  if x.scan then
    match x.seen.check t with
    | (.error e, _) => .inl (lx.refuseInside e)
    | (.ok (), seen) => .inr ⟨lx, true, seen⟩
  else .inr ⟨lx, false, x.seen⟩

/-- One step over an excluded region that began at `start`: a directive, a literal that lacks its
end, or a token. -/
def Skim.step (start : Position) (x : Skim) : Outcome Lexer Unit ⊕ Skim :=
  let unget := x.lexer.cursor.position
  let gap := x.lexer.skipGap
  let lx := gap.2
  match gap.1 with
  | some e => .inl (lx.refuseInside e)
  | none =>
    match directiveAt? lx.cursor with
    | some rest =>
      let line := lx.readDirective unget rest
      let answer := line.2.askPreprocessor line.1 false
      match answer.1 with
      | .error e => .inl (answer.2.refuseInside e)
      | .ok verdict => x.turn answer.2 verdict.region
    | none =>
      let lexed := lx.lexAt unget
      match lexed.1 with
      | .error e =>
        if isUnclosedLiteral e.cause then .inr { x with lexer := lx.skipLine }
        else .inl (lx.refuseInside e)
      | .ok t =>
        if t.isEnd then
          .inl (lx.refuseInside ⟨.invalidDirective "end of file inside a preprocessor-excluded region",
            start⟩)
        else x.look lexed.2 t

theorem Skim.unread_turn {x y : Skim} {lx : Lexer} {region : Region}
    (h : x.turn lx region = .inr y) : y.lexer.unread = lx.unread := by
  unfold turn at h
  split at h <;> simp at h <;> simp [← h]

theorem Skim.unread_look {x y : Skim} {lx : Lexer} {t : Token} (h : x.look lx t = .inr y) :
    y.lexer.unread = lx.unread := by
  unfold look at h
  split at h
  · split at h <;> simp at h
    simp [← h]
  · simp at h
    simp [← h]

/-- Every step over an excluded region moves the cursor forward. -/
theorem Skim.unread_step {start : Position} {x y : Skim} (h : x.step start = .inr y) :
    y.lexer.unread < x.lexer.unread := by
  refine Nat.lt_of_lt_of_le ?_ x.lexer.unread_skipGap_le
  unfold step at h
  dsimp only at h
  split at h
  · simp at h
  · split at h
    · next rest hd =>
      split at h
      · simp at h
      · rw [unread_turn h, unread_askPreprocessor]
        exact unread_readDirective _ _ hd
    · split at h
      · next e he =>
        split at h
        · simp only [Sum.inr.injEq] at h
          subst h
          exact unread_skipLine _ (lexAt_error he).2
        · simp at h
      · next t ht =>
        split at h
        · simp at h
        · next he =>
          rw [unread_look h]
          exact unread_lexAt ht (by simpa using he)

/-- Steps over an excluded region that began at `start`, up to the directive that ends it. -/
def scanExcluded (start : Position) (x : Skim) : Outcome Lexer Unit :=
  match h : x.step start with
  | .inl o => o
  | .inr y => scanExcluded start y
termination_by x.lexer.unread
decreasing_by exact Skim.unread_step h

/-- The event of a skipped region. -/
def regionEvent (first last : Nat) : Event :=
  (Event.success Code.regionSkipped "Skipped preprocessor-excluded region").withValues
    [("start_line", toString first), ("end_line", toString last)]

/-- Steps over the region after a directive at `start` that the preprocessor leaves out.  The
comments inside it are forgotten. -/
def skipExcluded (lx : Lexer) (region : Region) (start : Position) : Outcome Lexer Unit :=
  let o := scanExcluded lx.cursor.position ⟨lx, region == .scanned, .start⟩
  let after := { o.state with
    comments := lx.comments
    metrics := { o.state.metrics with regions := o.state.metrics.regions + 1 } }
  let logged := match o.result with
    | .ok _ =>
      if lx.preferences.logSkippedRegions then
        [regionEvent start.line after.cursor.position.line]
      else []
    | .error _ => []
  ⟨o.result, after, o.events ++ logged⟩

/-! ### The next token -/

/-- Handles the directive whose symbol stands at the cursor, with the region after it. -/
def handleDirective (lx : Lexer) (unget : Position) (rest : List Char) : Outcome Lexer Unit :=
  let line := lx.readDirective unget rest
  let answer := line.2.askPreprocessor line.1 true
  match answer.1 with
  | .error e => answer.2.refuse e
  | .ok verdict =>
    let lx := if verdict.clearComments then
        { answer.2 with comments := answer.2.comments.clearPending }
      else answer.2
    if verdict.region.isIncluded then .ok () lx
    else lx.skipExcluded verdict.region line.1.position

/-- One step to the next token: the token, or a directive with its region. -/
def lexStep (lx : Lexer) : Outcome Lexer Peeked ⊕ (Lexer × List Event) :=
  let origin := lx.cursor
  let gap := lx.skipGap
  let lx := gap.2
  match gap.1 with
  | some e => .inl (lx.refuse e)
  | none =>
    match if lx.preprocessor.isSome then directiveAt? lx.cursor else none with
    | some rest =>
      let o := lx.handleDirective origin.position rest
      match o.result with
      | .ok _ => .inr (o.state, o.events)
      | .error f => .inl ⟨.error f, o.state, o.events⟩
    | none =>
      let lexed := lx.lexAt origin.position
      match lexed.1 with
      | .error e => .inl (lexed.2.refuse e)
      | .ok t => .inl (.ok ⟨t, origin⟩ lexed.2)

theorem unread_scanExcluded_le (start : Position) (x : Skim) :
    (scanExcluded start x).state.unread ≤ x.lexer.unread := by
  fun_induction scanExcluded start x with
  | case1 x o h =>
    refine Nat.le_trans ?_ x.lexer.unread_skipGap_le
    unfold Skim.step at h
    dsimp only at h
    split at h
    · simp only [Sum.inl.injEq] at h
      subst h
      exact Nat.le_refl _
    · split at h
      · next rest hd =>
        have hr := Nat.le_of_lt (unread_readDirective _ x.lexer.cursor.position hd)
        split at h
        · simp only [Sum.inl.injEq] at h
          subst h
          simpa [refuseInside] using hr
        · unfold Skim.turn at h
          split at h <;> simp at h
          subst h
          simpa [Outcome.ok] using hr
      · split at h
        · split at h
          · simp at h
          · simp only [Sum.inl.injEq] at h
            subst h
            exact Nat.le_refl _
        · split at h
          · simp only [Sum.inl.injEq] at h
            subst h
            exact Nat.le_refl _
          · unfold Skim.look at h
            split at h
            · split at h <;> simp at h
              subst h
              exact unread_lexAt_le _ _
            · simp at h
  | case2 x y h ih => exact Nat.le_trans ih (Nat.le_of_lt (Skim.unread_step h))

theorem unread_handleDirective (lx : Lexer) (unget : Position) {rest : List Char}
    (h : directiveAt? lx.cursor = some rest) :
    (lx.handleDirective unget rest).state.unread < lx.unread := by
  refine Nat.lt_of_le_of_lt ?_ (lx.unread_readDirective unget h)
  have ha := unread_askPreprocessor (lx.readDirective unget rest).2 (lx.readDirective unget rest).1 true
  unfold handleDirective
  dsimp only
  generalize (lx.readDirective unget rest).2.askPreprocessor _ true = answer at ha ⊢
  rw [← ha]
  split
  · exact Nat.le_refl _
  · next verdict _ =>
    split
    · split <;> exact Nat.le_refl _
    · refine Nat.le_trans (unread_scanExcluded_le _ _) ?_
      dsimp only
      split <;> exact Nat.le_refl _

/-- A directive moves the cursor forward. -/
theorem unread_lexStep {lx lx' : Lexer} {events : List Event}
    (h : lx.lexStep = .inr (lx', events)) : lx'.unread < lx.unread := by
  refine Nat.lt_of_lt_of_le ?_ lx.unread_skipGap_le
  unfold lexStep at h
  dsimp only at h
  split at h
  · simp at h
  · split at h
    · next rest hd =>
      split at h
      · simp only [Sum.inr.injEq, Prod.mk.injEq] at h
        obtain ⟨rfl, rfl⟩ := h
        split at hd
        · exact unread_handleDirective _ _ hd
        · simp at hd
      · simp at h
    · split at h <;> simp at h

/-- The next token of the included text. -/
def lexToken (lx : Lexer) : Outcome Lexer Peeked :=
  match h : lx.lexStep with
  | .inl o => o
  | .inr (lx', events) => lx'.lexToken.after events
termination_by lx.unread
decreasing_by exact unread_lexStep h

/-- Every token but the end mark moves the cursor forward. -/
theorem lexToken_progress {lx : Lexer} {p : Peeked} (h : lx.lexToken.result = .ok p)
    (hp : p.token.isEnd = false) : lx.lexToken.state.unread < lx.unread := by
  fun_induction lexToken lx with
  | case1 lx o ho =>
    refine Nat.lt_of_lt_of_le ?_ lx.unread_skipGap_le
    unfold lexStep at ho
    dsimp only at ho
    split at ho
    · simp only [Sum.inl.injEq] at ho
      subst ho
      simp [refuse] at h
    · split at ho
      · split at ho
        · simp at ho
        · simp only [Sum.inl.injEq] at ho
          subst ho
          simp at h
      · split at ho
        · simp only [Sum.inl.injEq] at ho
          subst ho
          simp [refuse] at h
        · next t ht =>
          simp only [Sum.inl.injEq] at ho
          subst ho
          simp only [Outcome.ok, Except.ok.injEq] at h
          subst h
          exact unread_lexAt ht hp
  | case2 lx lx' events hs ih => exact Nat.lt_trans (ih h) (unread_lexStep hs)

end Lexer

end HeaderLex
