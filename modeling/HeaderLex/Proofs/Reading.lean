import HeaderLex.Proofs.Invariant

/-!
# Reading as a judgment on texts

What a lexer with conditional compilation delivers depends on the texts on both sides of the cursor
and on the open conditionals only.  `Reads` says so, one piece of text at a time: gap piece, lexeme or
directive line, in included text and in excluded regions alike.

* `Mode`          reading, or skipping an excluded region;
* `Reads`         reading on from a place delivers these tokens, up to the end of the source;
* `Reads.promise` the lexer delivers what the judgment says.
-/

namespace HeaderLex

/-- What a reader of tokens sees of a token. -/
def Token.content (t : Token) : TokenKind × String := (t.kind, t.value)

def Lexeme.content (l : Lexeme) : TokenKind × String := (l.kind, String.ofList l.text)

/-! ## the judgment -/

/-- What is done with the text under the cursor. -/
inductive Mode where
  | reading
  /-- An excluded region, with the state of the search for illegal contents. -/
  | skipping (scan : Bool) (seen : SerializeState)

namespace Mode

def isReading : Mode → Bool
  | reading => true
  | skipping _ _ => false

/-- What is done after a directive that puts the text under a region. -/
def turn : Mode → Region → Mode
  | _, .included => reading
  | reading, .scanned => skipping true .start
  | reading, .silent => skipping false .start
  | skipping scan seen, .scanned => skipping true (if scan then seen else .start)
  | skipping _ seen, .silent => skipping false seen

end Mode

/-- A lexeme inside an excluded region passes the search for illegal contents. -/
def Passes (scan : Bool) (seen : SerializeState) (l : Lexeme) (seen' : SerializeState) : Prop :=
  if scan then ∀ t : Token, t.content = l.content → seen.check t = (.ok (), seen')
  else seen' = seen

/-- Reading on delivers tokens, up to the end of the source.  The text before the cursor is given
backwards. -/
inductive Reads (c : Conditional) : Mode → List Frame → List Char → List Char →
    List (TokenKind × String) → Prop
  | done {stack : List Frame} {before : List Char} : Reads c .reading stack before [] []
  | piece {mode : Mode} {stack : List Frame} {before cs rest : List Char} {p : GapPiece}
      {ts : List (TokenKind × String)} :
      GapPiece.next? cs = .ok (some (p, rest)) →
      Reads c mode stack (p.text.reverse ++ before) rest ts → Reads c mode stack before cs ts
  | token {stack : List Frame} {before cs : List Char} {a : Char} {l : Lexeme}
      {ts : List (TokenKind × String)} :
      GapPiece.next? (a :: cs) = .ok none → ¬ (a = '#' ∧ lastLineBlank before = true) →
      Lexeme.scan a cs = .ok l → Reads c .reading stack (l.text.reverse ++ before) l.rest ts →
      Reads c .reading stack before (a :: cs) (l.content :: ts)
  | skipped {scan : Bool} {seen seen' : SerializeState} {stack : List Frame}
      {before cs : List Char} {a : Char} {l : Lexeme} {ts : List (TokenKind × String)} :
      GapPiece.next? (a :: cs) = .ok none → ¬ (a = '#' ∧ lastLineBlank before = true) →
      Lexeme.scan a cs = .ok l → Passes scan seen l seen' →
      Reads c (.skipping scan seen') stack (l.text.reverse ++ before) l.rest ts →
      Reads c (.skipping scan seen) stack before (a :: cs) ts
  | directive {mode : Mode} {stack stack' : List Frame} {before cs : List Char} {place : Position}
      {ts : List (TokenKind × String)} :
      lastLineBlank before = true →
      { c with stack }.step (Lexer.directiveOf place place cs) mode.isReading = .ok stack' →
      Reads c (mode.turn (Conditional.effective stack')) stack'
        (('#' :: DirectiveLine.taken cs).reverse ++ before) (DirectiveLine.left cs) ts →
      Reads c mode stack before ('#' :: cs) ts

/-! ## lexers at a place -/

namespace Lexer

/-- The lexer stands at a place, between tokens and without recording, under conditional
compilation. -/
structure Stands (lx : Lexer) (c : Conditional) (stack : List Frame) (before rest : List Char) :
    Prop where
  before : lx.cursor.before = before
  rest : lx.cursor.rest = rest
  current : lx.current = none
  recording : lx.recording = false
  preprocessor : lx.preprocessor = some (.conditional { c with stack })

/-- Reading to the end succeeds with these tokens. -/
def Delivers (lx : Lexer) (ts : List (TokenKind × String)) : Prop :=
  ∃ tokens, lx.drain.result = .ok tokens ∧ tokens.map Token.content = ts

variable {lx : Lexer} {c : Conditional} {stack : List Frame} {before rest : List Char}

/-- The lexer after one piece of a gap. -/
def passPiece (lx : Lexer) (p : GapPiece) (rest : List Char) : Lexer :=
  let m := Margin.pass ⟨lx.cursor, lx.comments, lx.metrics.comments⟩ p rest
  { lx with
    cursor := m.cursor
    comments := m.comments
    metrics := { lx.metrics with comments := m.commentCount } }

theorem skipGap_piece {p : GapPiece} {rest : List Char}
    (h : GapPiece.next? lx.cursor.rest = .ok (some (p, rest))) :
    lx.skipGap = (lx.passPiece p rest).skipGap := by
  unfold skipGap
  rw [Margin.skip_piece h]
  rfl

theorem Stands.passPiece (h : lx.Stands c stack before rest) (p : GapPiece) (rest' : List Char) :
    (lx.passPiece p rest').Stands c stack (p.text.reverse ++ before) rest' where
  before := by
    show p.text.reverse ++ lx.cursor.before = _
    rw [h.before]
  rest := rfl
  current := h.current
  recording := h.recording
  preprocessor := h.preprocessor

/-- Where no piece begins, the gap is over. -/
theorem Stands.skipGap (h : lx.Stands c stack before rest)
    (hn : GapPiece.next? rest = .ok none) :
    lx.skipGap.1 = none ∧ lx.skipGap.2.Stands c stack before rest := by
  have hskip : Margin.skip ⟨lx.cursor, lx.comments, lx.metrics.comments⟩ = _ :=
    Margin.skip_none (by rw [← h.rest] at hn; exact hn)
  have hcur : lx.skipGap.2.cursor = lx.cursor := by
    show (Margin.skip _).2.cursor = _
    rw [hskip]
    dsimp only
    split <;> rfl
  refine ⟨?_, ?_, ?_, h.current, h.recording, h.preprocessor⟩
  · show Option.map _ (Margin.skip _).1 = _
    rw [hskip]
    rfl
  · rw [hcur, h.before]
  · rw [hcur, h.rest]

/-- Two lexers that find the same token and are left alike deliver alike. -/
theorem Delivers.of_lexToken {lx lx' : Lexer} {ts : List (TokenKind × String)}
    (hc : lx.current = none) (hc' : lx'.current = none) (hr : lx'.recording = false)
    (hstate : lx.lexToken.state = lx'.lexToken.state)
    (hresult : ∀ p', lx'.lexToken.result = .ok p' →
      ∃ p, lx.lexToken.result = .ok p ∧ p.token.content = p'.token.content)
    (h : lx'.Delivers ts) : lx.Delivers ts := by
  obtain ⟨tokens, hd, rfl⟩ := h
  obtain ⟨t', ht', hcase⟩ := drain_ok hd
  obtain ⟨p', hp', rfl, hs'⟩ := peek_fresh hc' ht'
  obtain ⟨p, hp, hcont⟩ := hresult p' hp'
  have hpeek := peek_of_lexToken hc hp
  have hkind : p.token.kind = p'.token.kind := congrArg Prod.fst hcont
  have hvalue : p.token.value = p'.token.value := congrArg Prod.snd hcont
  have hend : p.token.isEnd = p'.token.isEnd := congrArg TokenKind.isEnd hkind
  have hpeek1 : lx.peek.result = .ok p.token := by rw [hpeek]
  obtain ⟨he, rfl⟩ | ⟨us, he, hrec, rfl⟩ := hcase
  · exact ⟨[], drain_of_end hpeek1 (hend.trans he), rfl⟩
  · have hled : lx'.lexToken.state.recording = false :=
      (congrArg Ledger.recording (ledger_lexToken lx')).trans hr
    -- the two tokens differ only in where the look ahead began, which consuming forgets
    have hsame : lx.peek.state.consumed p.token = lx'.peek.state.consumed p'.token := by
      rw [hpeek, hs', hstate]
      unfold consumed Metrics.countToken Metrics.countClass
      simp only [hled, hkind, hvalue, Bool.false_eq_true, if_false]
    rw [← hsame] at hrec
    refine ⟨p.token :: us, drain_of_token hpeek1 (hend.trans he) hrec, ?_⟩
    rw [List.map_cons, List.map_cons, hcont]

/-! ## a gap piece changes nothing but the place -/

theorem lexAt_unget (lx : Lexer) (u v : Position) :
    lx.lexAt u = ((lx.lexAt v).1.map fun t => { t with unget := u }, (lx.lexAt v).2) := by
  unfold lexAt
  dsimp only
  split
  · rfl
  · split <;> rfl

theorem ahead_piece {p : GapPiece} {rest : List Char}
    (h : GapPiece.next? lx.cursor.rest = .ok (some (p, rest))) :
    lx.ahead = (lx.passPiece p rest).ahead := by
  unfold ahead
  rw [skipGap_piece h]
  rfl

/-- A look ahead that begins one gap piece later finds the same token. -/
theorem lexToken_piece {p : GapPiece} {rest : List Char}
    (h : GapPiece.next? lx.cursor.rest = .ok (some (p, rest))) :
    lx.lexToken.state = (lx.passPiece p rest).lexToken.state ∧
      ∀ q', (lx.passPiece p rest).lexToken.result = .ok q' →
        ∃ q, lx.lexToken.result = .ok q ∧ q.token.content = q'.token.content := by
  have hgap := skipGap_piece h
  have hahead := ahead_piece h
  cases hg : (lx.passPiece p rest).skipGap.1 with
  | some e =>
    have hg' : lx.skipGap.1 = some e := by rw [hgap, hg]
    rw [lexToken_broken hg, lexToken_broken hg', hgap]
    exact ⟨rfl, fun q' hq => ⟨q', hq, rfl⟩⟩
  | none =>
    have hg' : lx.skipGap.1 = none := by rw [hgap, hg]
    cases ha : (lx.passPiece p rest).ahead with
    | some cs =>
      have ha' : lx.ahead = some cs := hahead.trans ha
      have hsame : lx.skipGap.2.handleDirective lx.cursor.position cs
          = (lx.passPiece p rest).skipGap.2.handleDirective
            (lx.passPiece p rest).cursor.position cs := by
        rw [hgap]
        exact handleDirective_unget ..
      cases ho : ((lx.passPiece p rest).skipGap.2.handleDirective
          (lx.passPiece p rest).cursor.position cs).result with
      | error f =>
        rw [lexToken_directive_error hg ha ho, lexToken_directive_error hg' ha' (hsame ▸ ho), hsame]
        exact ⟨rfl, fun q' hq => ⟨q', hq, rfl⟩⟩
      | ok u =>
        rw [lexToken_directive_ok hg ha ho, lexToken_directive_ok hg' ha' (hsame ▸ ho), hsame]
        exact ⟨rfl, fun q' hq => ⟨q', hq, rfl⟩⟩
    | none =>
      have ha' : lx.ahead = none := hahead.trans ha
      have hsame : lx.skipGap.2.lexAt lx.cursor.position = _ :=
        lexAt_unget lx.skipGap.2 lx.cursor.position (lx.passPiece p rest).cursor.position
      rw [hgap] at hsame
      cases ht : ((lx.passPiece p rest).skipGap.2.lexAt
          (lx.passPiece p rest).cursor.position).1 with
      | error e =>
        have ht' : (lx.skipGap.2.lexAt lx.cursor.position).1 = .error e := by
          rw [hgap, hsame, ht]
          rfl
        rw [lexToken_lexeme_error hg ha ht, lexToken_lexeme_error hg' ha' ht', hgap]
        exact ⟨rfl, fun q' hq => ⟨q', hq, rfl⟩⟩
      | ok t =>
        have ht' : (lx.skipGap.2.lexAt lx.cursor.position).1
            = .ok { t with unget := lx.cursor.position } := by
          rw [hgap, hsame, ht]
          rfl
        rw [lexToken_lexeme_ok hg ha ht, lexToken_lexeme_ok hg' ha' ht', hgap]
        refine ⟨?_, ?_⟩
        · show ((lx.passPiece p rest).skipGap.2.lexAt lx.cursor.position).2 = _
          rw [hsame]
          rfl
        · intro q' hq
          obtain rfl : (⟨t, (lx.passPiece p rest).cursor⟩ : Peeked) = q' := Except.ok.inj hq
          exact ⟨_, rfl, rfl⟩

/-- A step over an excluded region that begins one gap piece later is the same. -/
theorem Skim.step_piece {x : Skim} {start : Position} {p : GapPiece} {rest : List Char}
    (h : GapPiece.next? x.lexer.cursor.rest = .ok (some (p, rest))) :
    x.step start = Skim.step start { x with lexer := x.lexer.passPiece p rest } := by
  have hgap := skipGap_piece h
  generalize hy : ({ x with lexer := x.lexer.passPiece p rest } : Skim) = y
  have hgap' : x.lexer.skipGap = y.lexer.skipGap := by rw [hgap, ← hy]
  have hturn : ∀ lx region, x.turn lx region = y.turn lx region := by
    intro lx region
    rw [← hy]
    rfl
  have hlook : ∀ lx t unget, x.look lx { t with unget } = y.look lx t := by
    intro lx t unget
    rw [← hy]
    rfl
  have hseen : ∀ lx, ({ x with lexer := lx } : Skim) = { y with lexer := lx } := by
    intro lx
    rw [← hy]
  cases hg : y.lexer.skipGap.1 with
  | some e => rw [step_broken hg, step_broken (hgap' ▸ hg), hgap']
  | none =>
    have hg' : x.lexer.skipGap.1 = none := hgap' ▸ hg
    cases hd : directiveAt? y.lexer.skipGap.2.cursor with
    | some cs =>
      have hd' : directiveAt? x.lexer.skipGap.2.cursor = some cs := hgap' ▸ hd
      have hsame : x.lexer.skipGap.2.verdictAt x.lexer.cursor.position cs false
          = y.lexer.skipGap.2.verdictAt y.lexer.cursor.position cs false := by
        rw [hgap']
        exact verdictAt_unget ..
      cases hv : (y.lexer.skipGap.2.verdictAt y.lexer.cursor.position cs false).1 with
      | error e => rw [step_directive_error hg hd hv, step_directive_error hg' hd' (hsame ▸ hv), hsame]
      | ok verdict =>
        rw [step_directive_ok hg hd hv, step_directive_ok hg' hd' (hsame ▸ hv), hsame, hturn]
    | none =>
      have hd' : directiveAt? x.lexer.skipGap.2.cursor = none := hgap' ▸ hd
      have hsame : x.lexer.skipGap.2.lexAt x.lexer.cursor.position = _ :=
        lexAt_unget x.lexer.skipGap.2 x.lexer.cursor.position y.lexer.cursor.position
      rw [hgap'] at hsame
      cases ht : (y.lexer.skipGap.2.lexAt y.lexer.cursor.position).1 with
      | error e =>
        have ht' : (x.lexer.skipGap.2.lexAt x.lexer.cursor.position).1 = .error e := by
          rw [hgap', hsame, ht]
          rfl
        rw [step_lexeme_error hg hd ht, step_lexeme_error hg' hd' ht', hgap', hseen]
      | ok t =>
        have ht' : (x.lexer.skipGap.2.lexAt x.lexer.cursor.position).1
            = .ok { t with unget := x.lexer.cursor.position } := by
          rw [hgap', hsame, ht]
          rfl
        cases hend : t.isEnd with
        | true => rw [step_end hg hd ht hend, step_end hg' hd' ht' hend, hgap']
        | false =>
          rw [step_lexeme_ok hg hd ht hend, step_lexeme_ok hg' hd' ht' hend, hlook, hgap', hsame]

/-- Stepping over an excluded region may begin one gap piece later. -/
theorem scanExcluded_piece {x : Skim} {start : Position} {p : GapPiece} {rest : List Char}
    (h : GapPiece.next? x.lexer.cursor.rest = .ok (some (p, rest))) :
    scanExcluded start x = scanExcluded start { x with lexer := x.lexer.passPiece p rest } := by
  rw [scanExcluded, scanExcluded, Skim.step_piece h]

/-! ## the lexer follows the judgment -/

/-- Whether a directive is accepted, and what it does, does not depend on its place. -/
theorem step_directiveOf {c : Conditional} {p q u v : Position} {cs : List Char}
    {isIncluded : Bool} {stack : List Frame} (h : c.step (directiveOf p u cs) isIncluded = .ok stack) :
    c.step (directiveOf q v cs) isIncluded = .ok stack := by
  unfold Conditional.step directiveOf at *
  dsimp only at *
  split at h
  case h_7 =>
    split at h
    · next hp => rw [if_pos hp]; exact h
    · cases h
  all_goals first
    | exact h
    | (split at h
       · exact h
       · cases h)

theorem lexAt_scan {lx : Lexer} {a : Char} {cs : List Char} {l : Lexeme} (unget : Position)
    (hr : lx.cursor.rest = a :: cs) (hl : Lexeme.scan a cs = .ok l) :
    lx.lexAt unget = (.ok ⟨l.kind, String.ofList l.text, lx.cursor.position, unget⟩,
      { lx with cursor := lx.cursor.advance l.text l.rest l.lines }) := by
  unfold lexAt
  simp only [hr, hl]

theorem Stands.directiveAt?_none {a : Char} {cs : List Char} (h : lx.Stands c stack before (a :: cs))
    (hne : ¬ (a = '#' ∧ lastLineBlank before = true)) : directiveAt? lx.cursor = none := by
  cases hd : directiveAt? lx.cursor with
  | none => rfl
  | some rest =>
    obtain ⟨hr, hl⟩ := directiveAt?_eq_some.1 hd
    rw [h.rest] at hr
    refine absurd ⟨(List.cons.inj hr).1, ?_⟩ hne
    rw [← h.before]
    exact hl

theorem Stands.directiveAt?_some {cs : List Char} (h : lx.Stands c stack before ('#' :: cs))
    (hl : lastLineBlank before = true) : directiveAt? lx.cursor = some cs := by
  refine directiveAt?_eq_some.2 ⟨h.rest, ?_⟩
  show lastLineBlank lx.cursor.before = true
  rw [h.before, hl]

theorem Stands.ahead (h : lx.Stands c stack before rest) :
    lx.ahead = directiveAt? lx.skipGap.2.cursor := by
  unfold Lexer.ahead
  rw [h.preprocessor]
  rfl

theorem Stands.delivers_done (h : lx.Stands c stack before []) : lx.Delivers [] := by
  obtain ⟨hg, hs⟩ := h.skipGap rfl
  have hd : directiveAt? lx.skipGap.2.cursor = none := by
    unfold directiveAt?
    rw [hs.rest]
  have ht : (lx.skipGap.2.lexAt lx.cursor.position).1
      = .ok ⟨.endOfFile, "", lx.skipGap.2.cursor.position, lx.cursor.position⟩ := by
    unfold lexAt
    simp only [hs.rest]
  exact ⟨[], drain_of_end (peek_lexeme h.current hg (h.ahead.trans hd) ht).1 rfl, rfl⟩

/-- A lexeme is delivered, and reading goes on after it. -/
theorem Stands.delivers_token {a : Char} {cs : List Char} {l : Lexeme}
    {ts : List (TokenKind × String)} (h : lx.Stands c stack before (a :: cs))
    (hn : GapPiece.next? (a :: cs) = .ok none) (hne : ¬ (a = '#' ∧ lastLineBlank before = true))
    (hl : Lexeme.scan a cs = .ok l)
    (hd : ∀ lx : Lexer, lx.Stands c stack (l.text.reverse ++ before) l.rest → lx.Delivers ts) :
    lx.Delivers (l.content :: ts) := by
  obtain ⟨hg, hs⟩ := h.skipGap hn
  have ha : lx.ahead = none := h.ahead.trans (hs.directiveAt?_none hne)
  have hat := lexAt_scan lx.cursor.position hs.rest hl
  obtain ⟨hpeek, hstate⟩ := peek_lexeme h.current hg ha (congrArg Prod.fst hat)
  have hnext : (lx.peek.state.consumed ⟨l.kind, String.ofList l.text,
      lx.skipGap.2.cursor.position, lx.cursor.position⟩).Stands c stack
        (l.text.reverse ++ before) l.rest := by
    rw [hstate, hat]
    refine ⟨?_, rfl, rfl, h.recording, h.preprocessor⟩
    show l.text.reverse ++ lx.skipGap.2.cursor.before = _
    rw [hs.before]
  obtain ⟨tokens, hdrain, rfl⟩ := hd _ hnext
  exact ⟨_ :: tokens, drain_of_token hpeek (Lexeme.scan_kind hl) hdrain, rfl⟩

theorem Stands.delivers_piece {cs : List Char} {p : GapPiece} {ts : List (TokenKind × String)}
    (h : lx.Stands c stack before cs) (hn : GapPiece.next? cs = .ok (some (p, rest)))
    (hd : (lx.passPiece p rest).Delivers ts) : lx.Delivers ts := by
  rw [← h.rest] at hn
  obtain ⟨hstate, hresult⟩ := lexToken_piece hn
  exact Delivers.of_lexToken h.current (h.passPiece p rest).current h.recording hstate hresult hd

/-- What becomes of the conditionals and the place at a directive. -/
theorem Stands.verdictAt {cs : List Char} {isIncluded : Bool} {stack' : List Frame}
    {place : Position} (h : lx.Stands c stack before ('#' :: cs))
    (hstep : { c with stack }.step (directiveOf place place cs) isIncluded = .ok stack')
    (unget : Position) :
    (∃ clear, (lx.verdictAt unget cs isIncluded).1 = .ok ⟨Conditional.effective stack', clear⟩) ∧
      (lx.verdictAt unget cs isIncluded).2.Stands c stack'
        (('#' :: DirectiveLine.taken cs).reverse ++ before) (DirectiveLine.left cs) := by
  have hled : (lx.verdictAt unget cs isIncluded).2.ledger = lx.ledger := by
    unfold Lexer.verdictAt askPreprocessor
    split <;> rfl
  have hcur := cursor_verdictAt lx unget cs isIncluded
  obtain ⟨s, hs, hv, hp⟩ | ⟨e, hs, -, -⟩ := verdictAt_conditional h.preprocessor unget cs isIncluded
  · obtain rfl : stack' = s := Except.ok.inj ((step_directiveOf hstep).symm.trans hs)
    refine ⟨⟨_, hv⟩, ?_, ?_, ?_, ?_, hp⟩
    · rw [hcur, ← h.before]
      rfl
    · rw [hcur]
      rfl
    · exact (congrArg Ledger.current hled).trans h.current
    · exact (congrArg Ledger.recording hled).trans h.recording
  · rw [step_directiveOf hstep] at hs
    cases hs

end Lexer

/-- What a judgment promises of a lexer at its place.  While a region is skipped, the promise is about
the lexer that stands where the skipping ends. -/
def Mode.Promise (c : Conditional) (stack : List Frame) (before rest : List Char)
    (ts : List (TokenKind × String)) : Mode → Prop
  | reading => ∀ lx : Lexer, lx.Stands c stack before rest → lx.Delivers ts
  | skipping scan seen => ∀ (lx : Lexer) (start : Position), lx.Stands c stack before rest →
      ∃ lx', Lexer.scanExcluded start ⟨lx, scan, seen⟩ = .ok () lx' ∧
        ∃ stack' before' rest', lx'.Stands c stack' before' rest' ∧
          ∀ lx'' : Lexer, lx''.Stands c stack' before' rest' → lx''.Delivers ts

namespace Lexer

variable {lx : Lexer} {c : Conditional} {stack stack' : List Frame} {before cs : List Char}
  {ts : List (TokenKind × String)} {place : Position}

theorem Stands.notes (h : lx.Stands c stack before cs) (b : CommentBuffer) (m : Metrics) :
    Stands { lx with comments := b, metrics := m } c stack before cs :=
  ⟨h.before, h.rest, h.current, h.recording, h.preprocessor⟩

theorem Stands.settle (h : lx.Stands c stack before cs) (verdict : Verdict) :
    (lx.settle verdict).Stands c stack before cs := h.notes _ lx.metrics

/-- An excluded region is skipped, and reading goes on after it. -/
theorem Stands.skipExcluded {scan : Bool} {region : Region} (h : lx.Stands c stack before cs)
    (hscan : (region == .scanned) = scan)
    (hp : (Mode.skipping scan .start).Promise c stack before cs ts) (start : Position) :
    (lx.skipExcluded region start).result = .ok () ∧
      (lx.skipExcluded region start).state.Delivers ts ∧
      (lx.skipExcluded region start).state.current = none := by
  obtain ⟨lx', hscan', stack', before', rest', hs', hd⟩ := hp lx lx.cursor.position h
  unfold Lexer.skipExcluded
  rw [hscan, hscan']
  exact ⟨rfl, hd _ (hs'.notes _ _), hs'.current⟩

/-- A directive in included text is handled, with the region after it. -/
theorem Stands.delivers_directive (h : lx.Stands c stack before ('#' :: cs))
    (hl : lastLineBlank before = true)
    (hstep : { c with stack }.step (directiveOf place place cs) true = .ok stack')
    (hp : (Mode.reading.turn (Conditional.effective stack')).Promise c stack'
      (('#' :: DirectiveLine.taken cs).reverse ++ before) (DirectiveLine.left cs) ts) :
    lx.Delivers ts := by
  obtain ⟨hg, hs⟩ := h.skipGap rfl
  have ha : lx.ahead = some cs := h.ahead.trans (hs.directiveAt?_some hl)
  obtain ⟨⟨clear, hv⟩, hplace⟩ := hs.verdictAt hstep lx.cursor.position
  have hhandle : (lx.skipGap.2.handleDirective lx.cursor.position cs).result = .ok () ∧
      (lx.skipGap.2.handleDirective lx.cursor.position cs).state.Delivers ts ∧
      (lx.skipGap.2.handleDirective lx.cursor.position cs).state.current = none := by
    rw [handleDirective_eq, hv]
    dsimp only
    have hclear := hplace.settle ⟨Conditional.effective stack', clear⟩
    cases he : Conditional.effective stack' with
    | included =>
      rw [he] at hp
      exact ⟨rfl, hp _ hclear, hclear.current⟩
    | scanned =>
      rw [he] at hp
      exact hclear.skipExcluded rfl hp _
    | silent =>
      rw [he] at hp
      exact hclear.skipExcluded rfl hp _
  obtain ⟨hok, hd, hc⟩ := hhandle
  have htoken := lexToken_directive_ok hg ha hok
  have hgap : lx.skipGap.2.ledger = lx.ledger := rfl
  have hled : (lx.skipGap.2.handleDirective lx.cursor.position cs).state.ledger = lx.ledger :=
    (stable_ledger lx.ledger).handleDirective hgap _ (hs.directiveAt?_some hl)
  refine Delivers.of_lexToken h.current hc ?_ ?_ ?_ hd
  · exact (congrArg Ledger.recording hled).trans h.recording
  · rw [htoken]
    rfl
  · intro q hq
    rw [htoken]
    exact ⟨q, hq, rfl⟩

theorem Stands.skips_token {scan : Bool} {seen seen' : SerializeState} {a : Char} {l : Lexeme}
    (h : lx.Stands c stack before (a :: cs)) (hn : GapPiece.next? (a :: cs) = .ok none)
    (hne : ¬ (a = '#' ∧ lastLineBlank before = true)) (hl : Lexeme.scan a cs = .ok l)
    (hpass : Passes scan seen l seen') (start : Position) :
    ∃ lx' : Lexer, lx'.Stands c stack (l.text.reverse ++ before) l.rest ∧
      scanExcluded start ⟨lx, scan, seen⟩ = scanExcluded start ⟨lx', scan, seen'⟩ := by
  obtain ⟨hg, hs⟩ := h.skipGap hn
  have hat := lexAt_scan lx.cursor.position hs.rest hl
  have hd : directiveAt? lx.skipGap.2.cursor = none := hs.directiveAt?_none hne
  have hstep := @Skim.step_lexeme_ok start ⟨lx, scan, seen⟩ _ hg hd (congrArg Prod.fst hat)
    (Lexeme.scan_kind hl)
  refine ⟨(lx.skipGap.2.lexAt lx.cursor.position).2, ?_, ?_⟩
  · rw [hat]
    refine ⟨?_, rfl, h.current, h.recording, h.preprocessor⟩
    show l.text.reverse ++ lx.skipGap.2.cursor.before = _
    rw [hs.before]
  · apply scanExcluded_of_inr
    rw [hstep]
    unfold Skim.look Passes at *
    cases scan with
    | true =>
      simp only [if_true] at hpass ⊢
      rw [hpass _ rfl]
    | false =>
      simp only [Bool.false_eq_true, if_false] at hpass ⊢
      rw [hpass]

/-- A directive in an excluded region ends the region or turns to another one. -/
theorem Stands.skips_directive {scan : Bool} {seen : SerializeState}
    (h : lx.Stands c stack before ('#' :: cs)) (hl : lastLineBlank before = true)
    (hstep : { c with stack }.step (directiveOf place place cs) false = .ok stack')
    (hp : ((Mode.skipping scan seen).turn (Conditional.effective stack')).Promise c stack'
      (('#' :: DirectiveLine.taken cs).reverse ++ before) (DirectiveLine.left cs) ts)
    (start : Position) :
    ∃ lx', scanExcluded start ⟨lx, scan, seen⟩ = .ok () lx' ∧
      ∃ stack' before' rest', lx'.Stands c stack' before' rest' ∧
        ∀ lx'' : Lexer, lx''.Stands c stack' before' rest' → lx''.Delivers ts := by
  obtain ⟨hg, hs⟩ := h.skipGap rfl
  have hd := hs.directiveAt?_some hl
  obtain ⟨⟨clear, hv⟩, hplace⟩ := hs.verdictAt hstep lx.cursor.position
  have hturn := @Skim.step_directive_ok start ⟨lx, scan, seen⟩ _ _ hg hd hv
  unfold Skim.turn at hturn
  cases he : Conditional.effective stack' with
  | included =>
    rw [he] at hp hturn
    exact ⟨_, scanExcluded_of_inl hturn, _, _, _, hplace, hp⟩
  | scanned =>
    rw [he] at hp hturn
    rw [scanExcluded_of_inr hturn]
    exact hp _ start hplace
  | silent =>
    rw [he] at hp hturn
    rw [scanExcluded_of_inr hturn]
    exact hp _ start hplace

end Lexer

/-- The lexer delivers what the judgment says. -/
theorem Reads.promise {c : Conditional} {mode : Mode} {stack : List Frame}
    {before rest : List Char} {ts : List (TokenKind × String)}
    (h : Reads c mode stack before rest ts) : mode.Promise c stack before rest ts := by
  induction h with
  | done => exact fun lx hs => hs.delivers_done
  | @piece mode stack before cs rest p ts hn _ ih =>
    cases mode with
    | reading => exact fun lx hs => hs.delivers_piece hn (ih _ (hs.passPiece p rest))
    | skipping scan seen =>
      intro lx start hs
      have hn' : GapPiece.next? lx.cursor.rest = .ok (some (p, rest)) := hs.rest ▸ hn
      rw [Lexer.scanExcluded_piece hn']
      exact ih _ start (hs.passPiece p rest)
  | token hn hne hl _ ih => exact fun lx hs => hs.delivers_token hn hne hl ih
  | skipped hn hne hl hpass _ ih =>
    intro lx start hs
    obtain ⟨lx', hs', heq⟩ := hs.skips_token hn hne hl hpass start
    rw [heq]
    exact ih lx' start hs'
  | @directive mode _ _ _ _ _ _ hl hstep _ ih =>
    cases mode with
    | reading => exact fun lx hs => hs.delivers_directive hl hstep ih
    | skipping scan seen => exact fun lx start hs => hs.skips_directive hl hstep ih start

end HeaderLex
