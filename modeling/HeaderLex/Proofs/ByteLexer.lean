import HeaderLex.Proofs.ByteLines
import HeaderLex.Proofs.LineNumbers

/-!
# Reading by bytes: lexers

The operations of a lexer with the readers on bytes in them.  Each takes a lexer's offset and line
number from its position and puts its cursor at the place that a reader came to, which fails where
that is no place in the source.

* `Bytewise.lexToken`, `Bytewise.apply`   a look ahead and the operations, by bytes;
* `Sited`        the cursor stands in a source with few lines;
* `Grounded`     a token that was looked at can be put back;
* `lexToken_eq`  a look ahead by bytes never fails, over all directives and excluded regions;
* `apply_eq`     neither does any operation.
-/

namespace HeaderLex

open Text

namespace Bytewise

open Lexer (Skim isUnclosedLiteral regionEvent directiveAt? answered)
open DirectiveLine (isInnerBlank)

/-! ## one token -/

def skipGap (lx : Lexer) : Except Fault (Option SourceError × Lexer) := do
  let (cause, m) ← gap lx.source (byteLength lx.source + 1) ⟨lx.cursor, lx.comments, lx.metrics.comments⟩
  let lx := { lx with
    cursor := m.cursor
    comments := m.comments
    metrics := { lx.metrics with comments := m.commentCount } }
  return (cause.map fun cause => ⟨cause, m.cursor.position⟩, lx)

def lexAt (lx : Lexer) (unget : Position) : Except Fault (Except SourceError Token × Lexer) := do
  let start := lx.cursor.position
  if byteLength lx.source ≤ start.offset then return (.ok ⟨.endOfFile, "", start, unget⟩, lx)
  else
    match ← lexeme lx.source start with
    | .error cause => return (.error ⟨cause, start⟩, lx)
    | .ok (kind, text, cursor) =>
      return (.ok ⟨kind, String.ofList text, start, unget⟩, { lx with cursor })

/-- The symbol of a directive stands at the cursor. -/
def isDirectiveAt (lx : Lexer) : Bool :=
  byteAt lx.source lx.cursor.position.offset == '#' && isLineStart lx.source lx.cursor.position.offset

def readDirective (lx : Lexer) (unget : Position) : Except Fault (Directive × Lexer) := do
  let p := lx.cursor.position
  let hash : Token := ⟨.symbol, "#", p, unget⟩
  let (d, cursor) ← directive lx.source hash ⟨p.offset + 1, p.line⟩
  return (d, { lx with cursor, metrics := { lx.metrics with directives := lx.metrics.directives + 1 } })

def skipLine (lx : Lexer) : Except Fault Lexer := do
  return { lx with cursor := ← placeAtLineEnd lx.source lx.cursor.position }

/-! ## excluded regions and directives -/

def step (start : Position) (x : Skim) : Except Fault (Outcome Lexer Unit ⊕ Skim) := do
  let unget := x.lexer.cursor.position
  let gap ← skipGap x.lexer
  let lx := gap.2
  match gap.1 with
  | some e => return .inl (lx.refuseInside e)
  | none =>
    if isDirectiveAt lx then
      let line ← readDirective lx unget
      let answer := line.2.askPreprocessor line.1 false
      match answer.1 with
      | .error e => return .inl (answer.2.refuseInside e)
      | .ok verdict => return x.turn answer.2 verdict.region
    else
      let lexed ← lexAt lx unget
      match lexed.1 with
      | .error e =>
        if isUnclosedLiteral e.cause then return .inr { x with lexer := ← skipLine lx }
        else return .inl (lx.refuseInside e)
      | .ok t =>
        if t.isEnd then
          return .inl (lx.refuseInside
            ⟨.invalidDirective "end of file inside a preprocessor-excluded region", start⟩)
        else return x.look lexed.2 t

def scanExcluded (start : Position) : Nat → Skim → Except Fault (Outcome Lexer Unit)
  | 0, _ => .error .stalled
  | fuel + 1, x => do
    match ← step start x with
    | .inl o => return o
    | .inr y => scanExcluded start fuel y

def skipExcluded (lx : Lexer) (region : Region) (start : Position) :
    Except Fault (Outcome Lexer Unit) := do
  let o ← scanExcluded lx.cursor.position (byteLength lx.source + 1) ⟨lx, region == .scanned, .start⟩
  let after := { o.state with
    comments := lx.comments
    metrics := { o.state.metrics with regions := o.state.metrics.regions + 1 } }
  let logged := match o.result with
    | .ok _ =>
      if lx.preferences.logSkippedRegions then
        [regionEvent start.line after.cursor.position.line]
      else []
    | .error _ => []
  return ⟨o.result, after, o.events ++ logged⟩

def handleDirective (lx : Lexer) (unget : Position) : Except Fault (Outcome Lexer Unit) := do
  let line ← readDirective lx unget
  let answer := line.2.askPreprocessor line.1 true
  match answer.1 with
  | .error e => return answer.2.refuse e
  | .ok verdict =>
    let lx := answer.2.settle verdict
    if verdict.region.isIncluded then return .ok () lx
    else skipExcluded lx verdict.region line.1.position

/-! ## the next token -/

def lexStep (lx : Lexer) : Except Fault (Outcome Lexer Peeked ⊕ (Lexer × List Event)) := do
  let origin := lx.cursor
  let gap ← skipGap lx
  let lx := gap.2
  match gap.1 with
  | some e => return .inl (lx.refuse e)
  | none =>
    if lx.preprocessor.isSome && isDirectiveAt lx then
      let o ← handleDirective lx origin.position
      match o.result with
      | .ok _ => return .inr (o.state, o.events)
      | .error f => return .inl ⟨.error f, o.state, o.events⟩
    else
      let lexed ← lexAt lx origin.position
      match lexed.1 with
      | .error e => return .inl (lexed.2.refuse e)
      | .ok t => return .inl (.ok ⟨t, origin⟩ lexed.2)

def lexToken : Nat → Lexer → Except Fault (Outcome Lexer Peeked)
  | 0, _ => .error .stalled
  | fuel + 1, lx => do
    match ← lexStep lx with
    | .inl o => return o
    | .inr (lx, events) => return (← lexToken fuel lx).after events

def peek (lx : Lexer) : Except Fault (Outcome Lexer Token) := do
  match lx.current with
  | some p => return .ok p.token lx
  | none =>
    let o ← lexToken (byteLength lx.source + 1) lx
    match o.result with
    | .ok p => return ⟨.ok p.token, { o.state with current := some p }, o.events⟩
    | .error f => return ⟨.error f, o.state, o.events⟩

def next (lx : Lexer) : Except Fault (Outcome Lexer Token) := do
  let o ← peek lx
  match o.result with
  | .ok t =>
    let consumed := o.state.consume
    return ⟨consumed.result.map fun _ => t, consumed.state, o.events ++ consumed.events⟩
  | .error f => return ⟨.error f, o.state, o.events⟩

/-! ## lines, raw text and checkpoints -/

/-- The way back leads to where the current token says that it can be put back. -/
def unget (lx : Lexer) : Except Fault Lexer := do
  match lx.current with
  | some p =>
    return { lx with
      cursor := ← place lx.source p.token.unget.offset p.token.unget.line
      current := none }
  | none => return lx

def line (lx : Lexer) : Except Fault (Outcome Lexer Token) := do
  let lx ← unget lx
  let p := lx.cursor.position
  let start := runFrom lx.source isInnerBlank p.offset
  let stop := runFrom lx.source (· != '\n') start
  let text ← slice lx.source start stop
  let token : Token := ⟨.line, String.ofList (trimEnd text), ⟨start, p.line⟩, p⟩
  if stop < byteLength lx.source then
    let cursor ← place lx.source (stop + 1) (p.line + 1)
    return .ok token { lx with cursor, comments := lx.comments.newline }
  else
    let cursor ← place lx.source stop p.line
    return .ok token { lx with cursor }

def rawText (lx : Lexer) (terminator : Char) (options : RawTextOptions) :
    Except Fault (Outcome Lexer String) := do
  let gap ← skipGap (← unget lx)
  let lx := gap.2
  match gap.1 with
  | some e => return lx.refuse e
  | none =>
    let p := lx.cursor.position
    match ← rawEnd lx.source terminator options.respectQuotes p.offset (byteLength lx.source + 1)
        p.offset false with
    | .error cause => return lx.refuse ⟨cause, p⟩
    | .ok (stop, atTerminator, inQuotes) =>
      if inQuotes then return lx.refuse ⟨.unterminatedQuote, p⟩
      else
        let text ← slice lx.source p.offset stop
        let width := if atTerminator && !options.keepTerminator then terminator.utf8Size else 0
        let cursor ← place lx.source (stop + width) p.line
        return .ok (String.ofList (trimEnd text)) { lx with cursor }

def restore (lx : Lexer) : Except Fault (Outcome Lexer Unit) := do
  let o := lx.restore
  let p := o.state.cursor.position
  return { o with state := { o.state with cursor := ← place lx.source p.offset p.line } }

/-- An operation by bytes.  The operations that are not listed touch no text. -/
def apply (lx : Lexer) (op : Op) : Except Fault (Outcome Lexer Answer) := do
  match op with
  | .peek => return answered .token (← peek lx)
  | .next => return answered .token (← next lx)
  | .atEnd =>
    let o ← peek lx
    return answered .flag ⟨o.result.map Token.isEnd, o.state, o.events⟩
  | .line => return answered .token (← line lx)
  | .rawText terminator options => return answered .text (← rawText lx terminator options)
  | .restore => return answered (fun _ => .done) (← restore lx)
  | op => return lx.apply op

/-! ## the moves of a look ahead -/

/-- The cursor stands in the source, which has few lines. -/
structure Sited (lx : Lexer) : Prop where
  few : FewLines lx.source
  within : lx.cursor.Within lx.source

variable {lx : Lexer}

theorem stable_sited : Lexer.Stable Sited where
  gap h := ⟨h.few, Lexer.within_skipGap h.within⟩
  lexeme {lx} unget h := by
    have hsource : (lx.lexAt unget).2.source = lx.source :=
      congrArg Lexer.Ledger.source ((Lexer.stable_ledger lx.ledger).lexeme unget rfl)
    have hwithin := (Lexer.stable_within lx.source).lexeme unget h.within
    exact ⟨hsource ▸ h.few, hsource.symm ▸ hwithin⟩
  directive {lx} unget {rest} isIncluded h hd := by
    have hsource : (lx.verdictAt unget rest isIncluded).2.source = lx.source :=
      congrArg Lexer.Ledger.source ((Lexer.stable_ledger lx.ledger).directive unget isIncluded rfl hd)
    have hwithin := (Lexer.stable_within lx.source).directive unget isIncluded h.within hd
    exact ⟨hsource ▸ h.few, hsource.symm ▸ hwithin⟩
  line {lx} h := by
    have hsource : lx.skipLine.source = lx.source :=
      congrArg Lexer.Ledger.source ((Lexer.stable_ledger lx.ledger).line rfl)
    have hwithin := (Lexer.stable_within lx.source).line h.within
    exact ⟨hsource ▸ h.few, hsource.symm ▸ hwithin⟩
  notes _ _ h := ⟨h.few, h.within⟩

theorem Sited.unread_lt (h : Sited lx) : lx.unread < byteLength lx.source + 1 := by
  have hle := h.within.at.le
  have hlength := length_le_byteLength lx.cursor.rest
  unfold Lexer.unread
  omega

theorem skipGap_eq (h : Sited lx) : skipGap lx = .ok lx.skipGap := by
  unfold skipGap
  rw [gap_eq h.few h.within h.unread_lt]
  rfl

theorem lexAt_eq (h : Sited lx) (unget : Position) : lexAt lx unget = .ok (lx.lexAt unget) := by
  unfold lexAt Lexer.lexAt
  simp only [h.within.at.end_iff]
  cases hrest : lx.cursor.rest with
  | nil => rfl
  | cons c cs =>
    rw [if_neg (List.cons_ne_nil c cs), lexeme_eq h.few h.within hrest]
    dsimp only
    cases Lexeme.scan c cs <;> rfl

theorem isDirectiveAt_eq (h : Sited lx) : isDirectiveAt lx = (directiveAt? lx.cursor).isSome := by
  have hbyte := h.within.at.byte_iff (a := '#') (by decide)
  rw [Bool.eq_iff_iff, isDirectiveAt, isLineStart_eq h.within, Bool.and_eq_true, beq_iff_eq, hbyte,
    List.head?_eq_some_iff, Option.isSome_iff_exists]
  constructor
  · rintro ⟨⟨rest, hrest⟩, hstart⟩
    exact ⟨rest, Lexer.directiveAt?_eq_some.2 ⟨hrest, hstart⟩⟩
  · rintro ⟨rest, hd⟩
    obtain ⟨hrest, hstart⟩ := Lexer.directiveAt?_eq_some.1 hd
    exact ⟨⟨rest, hrest⟩, hstart⟩

theorem readDirective_eq (h : Sited lx) (unget : Position) {rest : List Char}
    (hd : directiveAt? lx.cursor = some rest) :
    readDirective lx unget = .ok (lx.readDirective unget rest) := by
  have hrest := (Lexer.directiveAt?_eq_some.1 hd).1
  have hwithin : (lx.cursor.advance ['#'] rest 0).Within lx.source := h.within.advance hrest (Nat.zero_le _)
  have hread := directive_eq h.few hwithin ⟨.symbol, "#", lx.cursor.position, unget⟩
  exact congrArg (· >>= _) hread

theorem skipLine_eq (h : Sited lx) {a : Char} {cs : List Char} (hrest : lx.cursor.rest = a :: cs)
    (ha : a ≠ '\n') : skipLine lx = .ok lx.skipLine := by
  unfold skipLine Lexer.skipLine
  rw [placeAtLineEnd_eq h.few h.within, hrest, List.takeWhile_cons_of_pos (by simpa using ha),
    List.dropWhile_cons_of_pos (by simpa using ha)]
  rfl

/-! ## look ahead -/

theorem head_of_lexAt_error {unget : Position} {e : SourceError} (h : (lx.lexAt unget).1 = .error e) :
    ∃ a cs, lx.cursor.rest = a :: cs ∧ a ≠ '\n' := by
  unfold Lexer.lexAt at h
  split at h
  · cases h
  · next c cs hrest =>
    refine ⟨c, cs, hrest, ?_⟩
    rintro rfl
    cases h

/-- One step over an excluded region. -/
theorem step_eq {x : Skim} (h : Sited x.lexer) (start : Position) :
    step start x = .ok (x.step start) := by
  have hgap := stable_sited.gap h
  unfold step
  rw [skipGap_eq h, ok_bind]
  dsimp only
  cases hg : x.lexer.skipGap.1 with
  | some e =>
    rw [Skim.step_broken hg]
    rfl
  | none =>
    dsimp only
    rw [isDirectiveAt_eq hgap]
    cases hd : directiveAt? x.lexer.skipGap.2.cursor with
    | some rest =>
      rw [if_pos (by simp), readDirective_eq hgap _ hd]
      show (match (x.lexer.skipGap.2.verdictAt x.lexer.cursor.position rest false).1 with
        | .error e => _
        | .ok verdict => _) = _
      cases hv : (x.lexer.skipGap.2.verdictAt x.lexer.cursor.position rest false).1 with
      | error e =>
        rw [Skim.step_directive_error hg hd hv]
        rfl
      | ok verdict =>
        rw [Skim.step_directive_ok hg hd hv]
        rfl
    | none =>
      rw [if_neg (by simp), lexAt_eq hgap, ok_bind]
      cases ht : (x.lexer.skipGap.2.lexAt x.lexer.cursor.position).1 with
      | error e =>
        obtain ⟨a, cs, hrest, ha⟩ := head_of_lexAt_error ht
        rw [Skim.step_lexeme_error hg hd ht, skipLine_eq hgap hrest ha]
        dsimp only
        split <;> rfl
      | ok t =>
        dsimp only
        cases hend : t.isEnd with
        | true =>
          rw [Skim.step_end hg hd ht hend]
          rfl
        | false =>
          rw [Skim.step_lexeme_ok hg hd ht hend]
          rfl

theorem scanExcluded_eq {x : Skim} (h : Sited x.lexer) (start : Position) {fuel : Nat}
    (hfuel : x.lexer.unread < fuel) :
    scanExcluded start fuel x = .ok (Lexer.scanExcluded start x) := by
  induction fuel generalizing x with
  | zero => exact absurd hfuel (Nat.not_lt_zero _)
  | succ fuel ih =>
    unfold scanExcluded
    rw [step_eq h]
    have hleaves := stable_sited.step start (stable_sited.gap h)
    cases hs : x.step start with
    | inl o =>
      rw [Lexer.scanExcluded_of_inl hs]
      rfl
    | inr y =>
      rw [hs] at hleaves
      have hless := Skim.unread_step hs
      rw [Lexer.scanExcluded_of_inr hs]
      exact ih hleaves (by omega)

theorem skipExcluded_eq (h : Sited lx) (region : Region) (start : Position) :
    skipExcluded lx region start = .ok (lx.skipExcluded region start) := by
  unfold skipExcluded
  rw [@scanExcluded_eq ⟨lx, region == .scanned, .start⟩ h _ _ h.unread_lt]
  rfl

theorem handleDirective_eq (h : Sited lx) (unget : Position) {rest : List Char}
    (hd : directiveAt? lx.cursor = some rest) :
    handleDirective lx unget = .ok (lx.handleDirective unget rest) := by
  have hverdict := stable_sited.directive unget true h hd
  unfold handleDirective
  rw [readDirective_eq h unget hd, Lexer.handleDirective_eq]
  show (match (lx.verdictAt unget rest true).1 with
    | .error e => _
    | .ok verdict => _) = _
  cases (lx.verdictAt unget rest true).1 with
  | error e => rfl
  | ok verdict =>
    dsimp only
    split
    · rfl
    · exact skipExcluded_eq (stable_sited.notes _ _ hverdict) _ _

theorem lexStep_eq (h : Sited lx) : lexStep lx = .ok lx.lexStep := by
  have hgap := stable_sited.gap h
  have hahead : (lx.skipGap.2.preprocessor.isSome && isDirectiveAt lx.skipGap.2) = lx.ahead.isSome := by
    rw [isDirectiveAt_eq hgap, Lexer.ahead]
    cases hp : lx.preprocessor.isSome with
    | false => simp [Lexer.skipGap, hp]
    | true => simp [Lexer.skipGap, hp]
  have hdef : (if lx.skipGap.2.preprocessor.isSome then directiveAt? lx.skipGap.2.cursor else none)
      = lx.ahead := rfl
  unfold lexStep Lexer.lexStep
  rw [skipGap_eq h, ok_bind]
  dsimp only
  cases lx.skipGap.1 with
  | some e => rfl
  | none =>
    dsimp only
    rw [hahead, hdef]
    cases ha : lx.ahead with
    | some rest =>
      have hd := Lexer.Stable.directiveAt?_of_ahead ha
      rw [if_pos (by simp), handleDirective_eq hgap _ hd, ok_bind]
      dsimp only
      cases (lx.skipGap.2.handleDirective lx.cursor.position rest).result <;> rfl
    | none =>
      rw [if_neg (by simp), lexAt_eq hgap, ok_bind]
      dsimp only
      cases (lx.skipGap.2.lexAt lx.cursor.position).1 <;> rfl

/-- A step to the next token leaves the cursor in the source. -/
theorem sited_lexStep (h : Sited lx) {lx' : Lexer} {events : List Event}
    (hs : lx.lexStep = .inr (lx', events)) : Sited lx' := by
  have hgap := stable_sited.gap h
  unfold Lexer.lexStep at hs
  dsimp only at hs
  split at hs
  · cases hs
  · split at hs
    · next rest ha =>
      have hd := @Lexer.Stable.directiveAt?_of_ahead lx _ ha
      split at hs
      · cases hs
        exact stable_sited.handleDirective hgap _ hd
      · cases hs
    · split at hs <;> cases hs

/-- A look ahead never fails. -/
theorem lexToken_eq (h : Sited lx) {fuel : Nat} (hfuel : lx.unread < fuel) :
    lexToken fuel lx = .ok lx.lexToken := by
  induction fuel generalizing lx with
  | zero => exact absurd hfuel (Nat.not_lt_zero _)
  | succ fuel ih =>
    unfold lexToken
    rw [lexStep_eq h]
    cases hs : lx.lexStep with
    | inl o =>
      rw [Lexer.lexToken_of_inl hs]
      rfl
    | inr r =>
      obtain ⟨lx', events⟩ := r
      have hless := Lexer.unread_lexStep hs
      rw [Lexer.lexToken_of_inr hs]
      show (lexToken fuel lx' >>= _) = _
      rw [ih (sited_lexStep h hs) (by omega)]
      rfl

theorem peek_eq (h : Sited lx) : peek lx = .ok lx.peek := by
  unfold peek
  cases hc : lx.current with
  | some p =>
    rw [Lexer.peek_of_current hc]
    rfl
  | none =>
    dsimp only
    rw [lexToken_eq h h.unread_lt, ok_bind]
    cases hr : lx.lexToken.result with
    | ok p =>
      rw [Lexer.peek_of_lexToken hc hr]
      rfl
    | error f =>
      rw [Lexer.peek_of_error hc hr]
      rfl

theorem next_eq (h : Sited lx) : next lx = .ok lx.next := by
  unfold next Lexer.next
  rw [peek_eq h, ok_bind]
  dsimp only
  cases lx.peek.result <;> rfl

/-! ## lines, raw text and checkpoints -/

/-- The place before the gap of a token is in the source, and the token knows it. -/
def Anchored (source : List Char) (p : Peeked) : Prop :=
  p.origin.Within source ∧ p.origin.position = p.token.unget

/-- A place of the source; its token, if there is one, can be put back. -/
def Grounded (source : List Char) (c : Cursor) (p : Option Peeked) : Prop :=
  c.Within source ∧ ∀ q ∈ p, Anchored source q

theorem Grounded.unget {source : List Char} (h : Grounded source lx.cursor lx.current) :
    lx.unget.cursor.Within source := by
  unfold Lexer.unget
  split
  · next p hc => exact (h.2 p hc).1
  · exact h.1

theorem source_unget (lx : Lexer) : lx.unget.source = lx.source := by
  unfold Lexer.unget
  split <;> rfl

theorem sited_unget (hfew : FewLines lx.source) (h : Grounded lx.source lx.cursor lx.current) :
    Sited lx.unget := by
  constructor
  · rw [source_unget]
    exact hfew
  · rw [source_unget]
    exact h.unget

theorem unget_eq (hfew : FewLines lx.source) (h : Grounded lx.source lx.cursor lx.current) :
    unget lx = .ok lx.unget := by
  unfold unget Lexer.unget
  cases hc : lx.current with
  | none => rfl
  | some p =>
    obtain ⟨hwithin, hposition⟩ := h.2 p hc
    have hplace := place_eq hfew hwithin
    rw [hposition] at hplace
    dsimp only
    rw [hplace]
    rfl

theorem line_eq (hfew : FewLines lx.source) (h : Grounded lx.source lx.cursor lx.current) :
    line lx = .ok lx.line := by
  have hunget := sited_unget hfew h
  unfold line Lexer.line
  rw [unget_eq hfew h, ok_bind]
  generalize lx.unget = lx at hunget ⊢
  have hsplit : lx.cursor.rest = lx.cursor.rest.takeWhile isInnerBlank
      ++ lx.cursor.rest.dropWhile isInnerBlank := List.takeWhile_append_dropWhile.symm
  have hstart := (hunget.within.at.run blunt_isInnerBlank).1
  dsimp only
  generalize lx.cursor.rest.takeWhile isInnerBlank = blanks at hsplit hstart ⊢
  generalize lx.cursor.rest.dropWhile isInnerBlank = cs at hsplit ⊢
  -- the cursor between the blanks and the text
  have hinner : (lx.cursor.advance blanks cs 0).Within lx.source :=
    hunget.within.advance hsplit (Nat.zero_le _)
  have hat : At lx.source (lx.cursor.position.offset + byteLength blanks) cs := hinner.at
  obtain ⟨hstop, hend⟩ := hat.run blunt_inLine
  have hcut : cs = cs.takeWhile (· != '\n') ++ cs.dropWhile (· != '\n') :=
    List.takeWhile_append_dropWhile.symm
  rw [hstop] at hend
  rw [hstart, hstop, At.slice (hcut ▸ hat), ok_bind]
  simp only [← Nat.not_le, hend.end_iff]
  cases hrest : cs.dropWhile (· != '\n') with
  | nil =>
    rw [hrest] at hcut
    have hplace := @place_advance _ _ hunget.few hinner _ _ hcut 0 (Nat.zero_le _)
    rw [if_neg (by simp)]
    exact congrArg (· >>= _) hplace
  | cons c rest =>
    obtain rfl : c = '\n' := by
      have hhead := List.head?_dropWhile_not (· != '\n') cs
      simpa [hrest] using hhead
    rw [hrest, List.append_cons] at hcut
    have hplace := @place_advance _ _ hunget.few hinner _ _ hcut 1 (by simp [newlines])
    rw [byteLength_append] at hplace
    rw [if_pos (by simp)]
    exact congrArg (· >>= _) hplace

theorem rawText_eq (hfew : FewLines lx.source) (h : Grounded lx.source lx.cursor lx.current)
    (terminator : Char) (options : RawTextOptions) :
    rawText lx terminator options = .ok (lx.rawText terminator options) := by
  have hunget := sited_unget hfew h
  have hgap := stable_sited.gap hunget
  unfold rawText Lexer.rawText
  rw [unget_eq hfew h, ok_bind, skipGap_eq hunget, ok_bind]
  dsimp only
  cases lx.unget.skipGap.1 with
  | some e => rfl
  | none =>
    generalize lx.unget.skipGap.2 = lx at hgap ⊢
    dsimp only
    rw [@rawEnd_eq _ _ _ _ _ _ _ 0 _ hgap.within.at rfl (by omega)]
    cases hscan : RawText.scan terminator options.respectQuotes 0 false lx.cursor.rest with
    | error cause => rfl
    | ok raw =>
      have hcuts := RawText.scan_cuts hscan
      obtain ⟨htext, -⟩ := @RawText.Cuts.taken _ _ _ hcuts options.keepTerminator
      have hslice := At.slice (hcuts.text ▸ hgap.within.at)
      show (if raw.inQuotes then _ else slice lx.source _ _ >>= _) = _
      dsimp only
      split
      · rfl
      · have hplace := @place_advance _ _ hgap.few hgap.within _ _ htext 0 (Nat.zero_le _)
        have hwidth : byteLength (if raw.atTerminator && !options.keepTerminator then [terminator] else [])
            = if raw.atTerminator && !options.keepTerminator then terminator.utf8Size else 0 := by
          split <;> rfl
        rw [byteLength_append, hwidth, ← Nat.add_assoc] at hplace
        rw [hslice]
        show (place lx.source _ (_ + 0) >>= _) = _
        rw [hplace]
        rfl

/-- Going back leads to a place of the source again. -/
theorem restore_eq (hfew : FewLines lx.source) (h : lx.Everywhere (Grounded lx.source)) :
    restore lx = .ok lx.restore := by
  have hwithin : lx.restore.state.cursor.Within lx.source := by
    obtain hsame | ⟨s, hs, hcursor, -⟩ := lx.restore_place.1
    · rw [hsame]
      exact h.place.1
    · rw [hcursor]
      exact (h.saved s hs).1
  unfold restore
  dsimp only
  rw [place_eq hfew hwithin]
  rfl

/-- No operation fails by bytes. -/
theorem apply_eq (hfew : FewLines lx.source) (h : lx.Everywhere (Grounded lx.source)) (op : Op) :
    apply lx op = .ok (lx.apply op) := by
  have hsited : Sited lx := ⟨hfew, h.place.1⟩
  unfold apply
  cases op with
  | peek =>
    rw [peek_eq hsited]
    rfl
  | next =>
    rw [next_eq hsited]
    rfl
  | atEnd =>
    rw [peek_eq hsited]
    rfl
  | line =>
    rw [line_eq hfew h.place]
    rfl
  | rawText terminator options =>
    dsimp only
    rw [rawText_eq hfew h.place]
    rfl
  | restore =>
    rw [restore_eq hfew h]
    rfl
  | _ => rfl

end Bytewise

end HeaderLex
