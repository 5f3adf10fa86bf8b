import HeaderLex.Proofs.Run

/-!
# Tokens on the line of a directive

A directive takes its line up to a comment or to the end of the line, by rules of its own for quotes
and continuations.  What it leaves is read as any other text: a gap is skipped, anything else on the
same logical line is delivered.

* `DirectiveLine.logicalLine`   the line of a directive with its continuations;
* `DirectiveLine.Spent`         the directive and the gap behind it reach the end of that line;
* `Lexer.Meets`                 a look ahead comes to a directive, in included or excluded text;
* `Lexer.Later`                 the lexer goes on without going back;
* `Lexer.MeetsLast`             the directive right before the next token;
* `directive_line_tokens`       a spent line delivers no token, and what another delivers.
-/

set_option linter.unusedVariables false

namespace HeaderLex

/-! ## texts -/

/-- The gap at the beginning of a text. -/
def gapOf (cs : List Char) : List Char :=
  match h : GapPiece.next? cs with
  | .ok (some (p, rest)) => p.text ++ gapOf rest
  | _ => []
termination_by cs.length
decreasing_by exact GapPiece.length_of_next? h

theorem gapOf_piece {cs rest : List Char} {p : GapPiece}
    (h : GapPiece.next? cs = .ok (some (p, rest))) : gapOf cs = p.text ++ gapOf rest := by
  rw [gapOf]
  split
  · next hq =>
    rw [h] at hq
    cases hq
    rfl
  · next hq => exact absurd h (hq p rest)

theorem gapOf_none {cs : List Char} (h : ∀ p rest, GapPiece.next? cs ≠ .ok (some (p, rest))) :
    gapOf cs = [] := by
  rw [gapOf]
  split
  · next hq => exact absurd hq (h _ _)
  · rfl

namespace DirectiveLine

/-- A line feed goes on with the line if it stands after a backslash, or after a backslash and a
carriage return.  The text before it is given backwards. -/
def continuesLine : List Char → Bool
  | '\\' :: _ => true
  | '\r' :: '\\' :: _ => true
  | _ => false

/-- The text up to the first line feed that ends its line. -/
def logicalLine (before : List Char) : List Char → List Char
  | [] => []
  | c :: cs => if c = '\n' ∧ continuesLine before = false then [] else c :: logicalLine (c :: before) cs

/-- The bytes of the logical line of a directive, from its `#` on. -/
def lineLength (cs : List Char) : Nat := Text.byteLength ('#' :: logicalLine ['#'] cs)

/-- The bytes from the `#` of a directive to where reading goes on: right behind what it takes if
`lines` may be read, else behind the gap there. -/
def reach (lines : Bool) (cs : List Char) : Nat :=
  Text.byteLength ('#' :: taken cs) + if lines then 0 else Text.byteLength (gapOf (left cs))

/-- Nothing is left to read on the logical line. -/
def Spent (lines : Bool) (cs : List Char) : Prop := lineLength cs ≤ reach lines cs

instance (lines : Bool) (cs : List Char) : Decidable (Spent lines cs) :=
  inferInstanceAs (Decidable (_ ≤ _))

end DirectiveLine

/-! ## where reading goes on -/

/-- The offset behind the gap at a cursor. -/
def Cursor.outlook (c : Cursor) : Nat := c.position.offset + Text.byteLength (gapOf c.rest)

/-- Where reading goes on: at the cursor if `lines` may be read, else behind the gap. -/
def Cursor.standing (lines : Bool) (c : Cursor) : Nat :=
  if lines then c.position.offset else c.outlook

/-- The cursor right behind a directive, whose text after the `#` is given. -/
def Cursor.behind (c : Cursor) (cs : List Char) : Cursor :=
  c.advance ('#' :: DirectiveLine.taken cs) (DirectiveLine.left cs)
    (Text.newlines (DirectiveLine.taken cs))

theorem Cursor.standing_behind (lines : Bool) (c : Cursor) (cs : List Char) :
    (c.behind cs).standing lines = c.position.offset + DirectiveLine.reach lines cs := by
  cases lines with
  | true => rfl
  | false => exact Nat.add_assoc ..

theorem Cursor.le_standing (lines : Bool) (c : Cursor) : c.position.offset ≤ c.standing lines := by
  cases lines with
  | true => exact Nat.le_refl _
  | false => exact Nat.le_add_right ..

theorem Cursor.standing_le (lines : Bool) (c : Cursor) : c.standing lines ≤ c.outlook := by
  cases lines with
  | true => exact Nat.le_add_right ..
  | false => exact Nat.le_refl _

namespace Lexer

theorem offset_skip (m : Margin) : m.skip.2.cursor.position.offset = m.cursor.outlook := by
  fun_induction Margin.skip m with
  | case1 m e h =>
    have hnil := gapOf_none fun p rest hp => by
      rw [h] at hp
      cases hp
    rw [Cursor.outlook, hnil]
    rfl
  | case2 m h =>
    have hnil := gapOf_none fun p rest hp => by
      rw [h] at hp
      cases hp
    rw [Cursor.outlook, hnil]
    show (Cursor.position _).offset = _
    split <;> rfl
  | case3 m p rest h ih =>
    rw [ih]
    show m.cursor.position.offset + Text.byteLength p.text + Text.byteLength (gapOf rest) = _
    rw [Cursor.outlook, gapOf_piece h, Text.byteLength_append, Nat.add_assoc]

theorem offset_skipGap (lx : Lexer) : lx.skipGap.2.cursor.position.offset = lx.cursor.outlook :=
  offset_skip _

/-- The cursor stands at an offset or behind it. -/
def Past (n : Nat) (lx : Lexer) : Prop := n ≤ lx.cursor.position.offset

theorem past_advance {lx : Lexer} {n : Nat} (h : lx.Past n) {lx' : Lexer} {text rest : List Char}
    {lines : Nat} (hc : lx'.cursor = lx.cursor.advance text rest lines) : lx'.Past n := by
  unfold Past
  rw [hc]
  exact Nat.le_trans h (Nat.le_add_right ..)

theorem stable_past (n : Nat) : Stable (Past n) where
  gap {lx} h := by
    unfold Past
    rw [offset_skipGap]
    exact Nat.le_trans h (Nat.le_add_right ..)
  lexeme {lx} unget h := by
    unfold lexAt
    split
    · exact h
    · split
      · exact h
      · exact past_advance h rfl
  directive {lx} unget {rest} isIncluded h _ := past_advance h (cursor_verdictAt ..)
  line {lx} h := by
    unfold skipLine
    split
    · exact h
    · exact past_advance h rfl
  notes _ _ h := h

/-- The lexer reads on at an offset or behind it. -/
def Stays (lines : Bool) (n : Nat) (lx : Lexer) : Prop := n ≤ lx.cursor.standing lines

variable {lines : Bool} {n : Nat}

theorem Stays.past {lx : Lexer} (h : lx.Stays lines n) : lx.skipGap.2.Past n := by
  unfold Past
  rw [offset_skipGap]
  exact Nat.le_trans h (lx.cursor.standing_le lines)

theorem Past.stays {lx : Lexer} (h : lx.Past n) : lx.Stays lines n :=
  Nat.le_trans h (lx.cursor.le_standing lines)

/-- A token that is found starts behind the gap. -/
theorem start_of_found {lx : Lexer} {p : Peeked} (hok : lx.lexToken.result = .ok p) :
    p.token.start.offset = p.origin.outlook := by
  induction hok using found_induction with
  | lexeme lx _ _ _ horigin hat _ =>
    have hstart : p.token.start = lx.skipGap.2.cursor.position := by
      obtain ⟨-, htok, -⟩ | ⟨a, cs, l, -, -, htok, -⟩ := lexAt_ok hat
      · rw [htok]
      · rw [htok]
    rw [hstart, offset_skipGap, horigin]
  | directive _ _ _ _ _ _ _ _ ih => exact ih

theorem Stays.origin {lx : Lexer} (h : lx.Stays lines n) {p : Peeked}
    (hok : lx.lexToken.result = .ok p) : n ≤ p.origin.standing lines := by
  induction hok using found_induction with
  | lexeme lx _ _ _ horigin _ _ =>
    rw [horigin]
    exact h
  | directive lx rest _ _ _ ha _ _ ih =>
    have hd := Stable.directiveAt?_of_ahead ha
    exact ih ((stable_past n).handleDirective h.past lx.cursor.position hd).stays

theorem stays_verdictAt {lx : Lexer} {cs : List Char}
    (h : n ≤ lx.cursor.position.offset + DirectiveLine.reach lines cs) (unget : Position)
    (isIncluded : Bool) : (lx.verdictAt unget cs isIncluded).2.Stays lines n := by
  rw [← lx.cursor.standing_behind] at h
  unfold Stays
  rw [cursor_verdictAt]
  exact h

/-! ## meeting a directive -/

/-- Stepping over an excluded region comes to a place with a directive, whose text after the `#` is
given. -/
inductive Skim.Meets (start : Position) : Skim → Lexer → List Char → Prop
  | here {x : Skim} {cs : List Char} : x.lexer.skipGap.1 = none →
      directiveAt? x.lexer.skipGap.2.cursor = some cs → Meets start x x.lexer.skipGap.2 cs
  | later {x y : Skim} {place : Lexer} {cs : List Char} : x.step start = .inr y →
      Meets start y place cs → Meets start x place cs

/-- A look ahead comes to a place with a directive: right after the gap, in the region after an
excluding directive, or after a directive with its region. -/
inductive Meets : Lexer → Lexer → List Char → Prop
  | here {lx : Lexer} {cs : List Char} : lx.skipGap.1 = none → lx.ahead = some cs →
      Meets lx lx.skipGap.2 cs
  | inside {lx place : Lexer} {cs cs' : List Char} {verdict : Verdict} : lx.skipGap.1 = none →
      lx.ahead = some cs' →
      (lx.skipGap.2.verdictAt lx.cursor.position cs' true).1 = .ok verdict →
      verdict.region.isIncluded = false →
      Skim.Meets ((lx.skipGap.2.verdictAt lx.cursor.position cs' true).2.settle verdict).cursor.position
        ⟨(lx.skipGap.2.verdictAt lx.cursor.position cs' true).2.settle verdict,
          verdict.region == .scanned, .start⟩ place cs → Meets lx place cs
  | after {lx place : Lexer} {cs cs' : List Char} : lx.skipGap.1 = none → lx.ahead = some cs' →
      (lx.skipGap.2.handleDirective lx.cursor.position cs').result = .ok () →
      Meets (lx.skipGap.2.handleDirective lx.cursor.position cs').state place cs → Meets lx place cs

theorem Skim.Meets.stays {start : Position} {x : Skim} {place : Lexer} {cs : List Char}
    (h : Skim.Meets start x place cs)
    (hn : n ≤ place.cursor.position.offset + DirectiveLine.reach lines cs) :
    (scanExcluded start x).state.Stays lines n := by
  induction h with
  | @here x cs hg hd =>
    have hmid := stays_verdictAt hn x.lexer.cursor.position false
    cases hv : (x.lexer.skipGap.2.verdictAt x.lexer.cursor.position cs false).1 with
    | error e =>
      rw [scanExcluded_of_inl (Skim.step_directive_error hg hd hv)]
      exact hmid
    | ok verdict =>
      have hstep := @Skim.step_directive_ok start _ _ _ hg hd hv
      cases hr : verdict.region with
      | included =>
        rw [hr] at hstep
        rw [scanExcluded_of_inl hstep]
        exact hmid
      | scanned =>
        rw [hr] at hstep
        rw [scanExcluded_of_inr hstep]
        exact ((stable_past n).scanExcluded start hmid.past).stays
      | silent =>
        rw [hr] at hstep
        rw [scanExcluded_of_inr hstep]
        exact ((stable_past n).scanExcluded start hmid.past).stays
  | later hstep _ ih =>
    rw [scanExcluded_of_inr hstep]
    exact ih hn

/-- The look ahead ends behind an offset, and so does what it finds. -/
def Passes (lines : Bool) (n : Nat) (lx : Lexer) : Prop :=
  lx.lexToken.state.Stays lines n ∧ ∀ p, lx.lexToken.result = .ok p →
    n ≤ p.token.start.offset ∧ n ≤ p.origin.standing lines

theorem Stays.passes {lx : Lexer} (h : lx.Stays lines n) : lx.Passes lines n := by
  refine ⟨((stable_past n).lexToken h.past).stays, fun p hp => ⟨?_, h.origin hp⟩⟩
  rw [start_of_found hp]
  exact Nat.le_trans (h.origin hp) (p.origin.standing_le lines)

theorem passes_handled {lx : Lexer} {cs : List Char} (hg : lx.skipGap.1 = none)
    (ha : lx.ahead = some cs)
    (h : (lx.skipGap.2.handleDirective lx.cursor.position cs).state.Stays lines n) :
    lx.Passes lines n := by
  unfold Passes
  cases ho : (lx.skipGap.2.handleDirective lx.cursor.position cs).result with
  | error f =>
    rw [lexToken_directive_error hg ha ho]
    refine ⟨h, ?_⟩
    intro p hp
    cases hp
  | ok u =>
    rw [lexToken_directive_ok hg ha ho]
    exact h.passes

/-- A look ahead that meets a directive ends behind its line. -/
theorem Meets.passes {lx place : Lexer} {cs : List Char} (h : lx.Meets place cs)
    (hn : n ≤ place.cursor.position.offset + DirectiveLine.reach lines cs) : lx.Passes lines n := by
  induction h with
  | @here lx cs hg ha =>
    have hmid := stays_verdictAt hn lx.cursor.position true
    refine passes_handled hg ha ?_
    rw [handleDirective_eq]
    cases hv : (lx.skipGap.2.verdictAt lx.cursor.position cs true).1 with
    | error e => exact hmid
    | ok verdict =>
      dsimp only
      split
      · exact hmid
      · have hsettled :
            ((lx.skipGap.2.verdictAt lx.cursor.position cs true).2.settle verdict).Stays lines n := hmid
        exact ((stable_past n).skipExcluded hsettled.past _ _).stays
  | @inside lx place cs cs' verdict hg ha hv hr hskim =>
    refine passes_handled hg ha ?_
    rw [handleDirective_eq, hv]
    dsimp only
    rw [hr]
    exact hskim.stays hn
  | @after lx place cs cs' hg ha ho _ ih =>
    unfold Passes
    rw [lexToken_directive_ok hg ha ho]
    exact ih hn

end Lexer

/-! ## going on -/

/-- The operation goes back to no checkpoint among the `depth` oldest, and reads a raw line only
where `lines` may be read. -/
def Op.IsForward (lines : Bool) (depth : Nat) (lx : Lexer) : Op → Prop
  | .line => lines = true
  | .restore | .abandon => depth < lx.saved.length
  | _ => True

namespace Lexer

/-- The lexer goes on, and goes back at most to where it was. -/
inductive Later (lines : Bool) (lx₀ : Lexer) : Lexer → Prop
  | here : Later lines lx₀ lx₀
  | step {lx : Lexer} {op : Op} : Later lines lx₀ lx → op.IsForward lines lx₀.saved.length lx →
      Later lines lx₀ (lx.apply op).state

/-- The place, with the token that was looked at there, is behind an offset. -/
def Behind (lines : Bool) (n : Nat) (cursor : Cursor) (current : Option Peeked) : Prop :=
  n ≤ cursor.standing lines ∧ ∀ p, current = some p →
    n ≤ p.token.start.offset ∧ n ≤ p.origin.standing lines

/-- The checkpoints are behind an offset but for some old ones. -/
def Keeps (lines : Bool) (n : Nat) (older saved : List Snapshot) : Prop :=
  ∃ newer, saved = newer ++ older ∧ ∀ s ∈ newer, Behind lines n s.cursor s.current

/-- The lexer and its checkpoints are behind an offset. -/
structure Ahead (lines : Bool) (n : Nat) (older : List Snapshot) (lx : Lexer) : Prop where
  place : Behind lines n lx.cursor lx.current
  saved : Keeps lines n older lx.saved

variable {lines : Bool} {n : Nat} {older : List Snapshot} {lx lx' : Lexer}

theorem behind_none {cursor : Cursor} (h : n ≤ cursor.standing lines) : Behind lines n cursor none :=
  ⟨h, fun p hp => by cases hp⟩

/-- Nothing but the place and the checkpoints matters, and forgetting the current token does not. -/
theorem Ahead.congr (h : lx.Ahead lines n older) (hcursor : lx'.cursor = lx.cursor)
    (hcurrent : lx'.current = lx.current ∨ lx'.current = none) (hsaved : lx'.saved = lx.saved) :
    lx'.Ahead lines n older := by
  refine ⟨?_, ?_⟩
  · rw [hcursor]
    rcases hcurrent with hc | hc
    · rw [hc]
      exact h.place
    · rw [hc]
      exact behind_none h.place.1
  · rw [hsaved]
    exact h.saved

theorem Passes.peek (h : lx.Passes lines n) (hc : lx.current = none)
    (hsaved : Keeps lines n older lx.saved) : lx.peek.state.Ahead lines n older := by
  rw [← saved_lexToken lx] at hsaved
  cases hr : lx.lexToken.result with
  | ok p =>
    rw [peek_of_lexToken hc hr]
    refine ⟨⟨h.1, ?_⟩, hsaved⟩
    intro q hq
    obtain rfl : p = q := Option.some.inj hq
    exact h.2 p hr
  | error f =>
    rw [peek_of_error hc hr]
    refine ⟨?_, hsaved⟩
    rw [current_lexToken, hc]
    exact behind_none h.1

/-! ## operations -/

theorem Ahead.peek (h : lx.Ahead lines n older) : lx.peek.state.Ahead lines n older := by
  cases hc : lx.current with
  | none => exact Passes.peek (Stays.passes h.place.1) hc h.saved
  | some p =>
    rw [peek_of_current hc]
    exact h

theorem Ahead.look (h : lx.Ahead lines n older) {op : Op} (hlook : op.isLook = true) :
    (lx.apply op).state.Ahead lines n older := by
  obtain ⟨t, answer, -, -, hs | hs⟩ | ⟨f, -, -, hs⟩ := lx.apply_look hlook
  · rw [hs]
    exact h.peek
  · rw [hs]
    exact h.peek.congr rfl (.inr rfl) rfl
  · rw [hs]
    exact h.peek

theorem Ahead.unget (h : lx.Ahead lines n older) : lx.unget.Ahead lines n older := by
  unfold Lexer.unget
  split
  · next p hc => exact ⟨behind_none (h.place.2 p hc).2, h.saved⟩
  · exact h

theorem Ahead.advance (h : lx.Ahead lines n older) (hcurrent : lx'.current = none)
    (hsaved : lx'.saved = lx.saved) (hpast : lx'.Past n) : lx'.Ahead lines n older := by
  refine ⟨?_, ?_⟩
  · rw [hcurrent]
    exact behind_none hpast.stays
  · rw [hsaved]
    exact h.saved

/-- A line that is read starts behind the offset, and leaves the lexer there. -/
theorem Ahead.line (h : lx.Ahead true n older) :
    lx.line.state.Ahead true n older ∧ ∀ t, lx.line.result = .ok t → n ≤ t.start.offset := by
  have hpast : lx.unget.Past n := h.unget.place.1
  have hcurrent := current_unget lx
  unfold Lexer.line
  dsimp only
  -- The blanks before the token are the same whether a line feed follows it or not.
  generalize lx.unget.cursor.rest.takeWhile DirectiveLine.isInnerBlank = blanks
  generalize lx.unget.cursor.rest.dropWhile DirectiveLine.isInnerBlank = cs
  have hinner : n ≤ (lx.unget.cursor.advance blanks cs 0).position.offset :=
    Nat.le_trans hpast (Nat.le_add_right ..)
  generalize lx.unget.cursor.advance blanks cs 0 = inner at hinner
  split
  · refine ⟨h.unget.advance hcurrent rfl (Nat.le_trans hinner (Nat.le_add_right ..)), ?_⟩
    intro t ht
    rw [← Except.ok.inj ht]
    exact hinner
  · refine ⟨h.unget.advance hcurrent rfl (Nat.le_trans hinner (Nat.le_add_right ..)), ?_⟩
    intro t ht
    rw [← Except.ok.inj ht]
    exact hinner

theorem Ahead.rawText (h : lx.Ahead lines n older) (terminator : Char) (options : RawTextOptions) :
    (lx.rawText terminator options).state.Ahead lines n older := by
  have hpast : lx.unget.skipGap.2.Past n := Stays.past h.unget.place.1
  have hcurrent : lx.unget.skipGap.2.current = none := current_unget lx
  have hgap : lx.unget.skipGap.2.Ahead lines n older := h.unget.advance hcurrent rfl hpast
  unfold Lexer.rawText
  dsimp only
  split
  · exact hgap
  · split
    · exact hgap
    · split
      · exact hgap
      · exact hgap.advance hcurrent rfl (past_advance hpast rfl)

theorem Ahead.newest (h : lx.Ahead lines n older) (hdepth : older.length < lx.saved.length) :
    ∃ s saved, lx.saved = s :: saved ∧ Behind lines n s.cursor s.current ∧
      Keeps lines n older saved := by
  obtain ⟨newer, hnewer, hall⟩ := h.saved
  cases newer with
  | nil =>
    rw [hnewer] at hdepth
    exact absurd hdepth (Nat.lt_irrefl _)
  | cons s newer =>
    exact ⟨s, newer ++ older, hnewer, hall s List.mem_cons_self, newer, rfl,
      fun s hs => hall s (List.mem_cons_of_mem _ hs)⟩

theorem Ahead.restore (h : lx.Ahead lines n older) (hdepth : older.length < lx.saved.length) :
    lx.restore.state.Ahead lines n older := by
  obtain ⟨s, saved, hsaved, hs, hkeeps⟩ := h.newest hdepth
  unfold Lexer.restore
  simp only [hsaved]
  exact ⟨hs, hkeeps⟩

theorem Ahead.abandon (h : lx.Ahead lines n older) (hdepth : older.length < lx.saved.length) :
    lx.abandon.state.Ahead lines n older := by
  obtain ⟨s, saved, hsaved, -, hkeeps⟩ := h.newest hdepth
  unfold Lexer.abandon
  simp only [hsaved]
  exact ⟨h.place, hkeeps⟩

theorem Ahead.save (h : lx.Ahead lines n older) : lx.save.state.Ahead lines n older := by
  obtain ⟨newer, hnewer, hall⟩ := h.saved
  unfold Lexer.save
  split
  · exact h
  · refine ⟨h.place, ⟨lx.cursor, lx.current, lx.comments, lx.recorded.length⟩ :: newer, ?_, ?_⟩
    · show _ :: lx.saved = _
      rw [hnewer]
      rfl
    · exact List.forall_mem_cons.2 ⟨h.place, hall⟩

/-- Going on keeps the lexer behind the offset. -/
theorem Ahead.apply (h : lx.Ahead lines n older) {op : Op} (hop : op.IsForward lines older.length lx) :
    (lx.apply op).state.Ahead lines n older := by
  cases op with
  | peek => exact h.look rfl
  | next => exact h.look rfl
  | atEnd => exact h.look rfl
  | line =>
    obtain rfl : lines = true := hop
    exact h.line.1
  | rawText terminator options => exact h.rawText terminator options
  | save => exact h.save
  | restore => exact h.restore hop
  | abandon => exact h.abandon hop
  | consume =>
    show lx.consume.state.Ahead lines n older
    unfold consume
    split
    · exact h.congr rfl (.inr rfl) rfl
    · exact h
  | clearComments => exact h.congr rfl (.inl rfl) rfl
  | disableComments => exact h.congr rfl (.inl rfl) rfl
  | enableComments =>
    show lx.enableComments.state.Ahead lines n older
    unfold enableComments
    split
    · exact h
    · exact h.congr rfl (.inl rfl) rfl
  | commitComments => exact h.congr rfl (.inl rfl) rfl
  | startRecording =>
    show lx.startRecording.state.Ahead lines n older
    unfold startRecording
    split
    · exact h
    · exact h.congr rfl (.inl rfl) rfl
  | record t =>
    show (lx.record t).state.Ahead lines n older
    unfold record
    split
    · exact h.congr rfl (.inl rfl) rfl
    · exact h
  | stopRecording => exact h.congr rfl (.inl rfl) rfl

theorem Later.ahead {lx₀ : Lexer} (hlater : lx₀.Later lines lx) (h : lx₀.Ahead lines n lx₀.saved) :
    lx.Ahead lines n lx₀.saved := by
  induction hlater with
  | here => exact h
  | step _ hop ih => exact ih.apply hop

theorem Ahead.answer (h : lx.Ahead lines n older) {op : Op} (hop : op.IsForward lines older.length lx)
    {t : Token} (hok : (lx.apply op).result = .ok (.token t)) : n ≤ t.start.offset := by
  obtain hpeek | ⟨rfl, hline⟩ := apply_token hok
  · obtain ⟨p, hc, rfl⟩ := current_peek hpeek
    exact (h.peek.place.2 p hc).1
  · obtain rfl : lines = true := hop
    exact h.line.2 t hline

/-! ## the last directive before a token -/

/-- The region ends right behind the last directive that is met in it. -/
theorem meets_scanExcluded {start : Position} {x : Skim}
    (hok : (scanExcluded start x).result = .ok ()) :
    ∃ place cs, Skim.Meets start x place cs ∧
      (scanExcluded start x).state.cursor = place.cursor.behind cs := by
  fun_induction scanExcluded start x with
  | case1 x o ho =>
    obtain ⟨cs, verdict, hg, hd, -, -, hstate⟩ := Skim.step_inl_ok ho hok
    refine ⟨_, cs, .here hg hd, ?_⟩
    rw [hstate]
    exact cursor_verdictAt ..
  | case2 x y hy ih =>
    obtain ⟨place, cs, hmeets, hcursor⟩ := ih hok
    exact ⟨place, cs, .later hy hmeets, hcursor⟩

theorem meets_handleDirective {cs : List Char} (hg : lx.skipGap.1 = none) (ha : lx.ahead = some cs)
    (hok : (lx.skipGap.2.handleDirective lx.cursor.position cs).result = .ok ()) :
    ∃ place cs', lx.Meets place cs' ∧
      (lx.skipGap.2.handleDirective lx.cursor.position cs).state.cursor = place.cursor.behind cs' := by
  rw [handleDirective_eq] at hok ⊢
  cases hv : (lx.skipGap.2.verdictAt lx.cursor.position cs true).1 with
  | error e =>
    rw [hv] at hok
    cases hok
  | ok verdict =>
    rw [hv] at hok
    dsimp only at hok ⊢
    cases hr : verdict.region.isIncluded with
    | true =>
      rw [if_pos rfl]
      exact ⟨_, cs, .here hg ha, cursor_verdictAt ..⟩
    | false =>
      rw [hr] at hok
      obtain ⟨place, cs', hmeets, hcursor⟩ := meets_scanExcluded hok
      exact ⟨place, cs', .inside hg ha hv hr hmeets, hcursor⟩

/-- A token that is found follows where the look began, or the last directive that was met. -/
theorem meets_found {p : Peeked} (hok : lx.lexToken.result = .ok p) :
    (lx.ahead = none ∧ p.origin = lx.cursor) ∨
      ∃ place cs, lx.Meets place cs ∧ p.origin = place.cursor.behind cs := by
  induction hok using found_induction with
  | lexeme lx _ _ ha horigin _ _ => exact .inl ⟨ha, horigin⟩
  | directive lx rest _ _ hg ha hd _ ih =>
    right
    obtain ⟨-, horigin⟩ | ⟨place, cs, hmeets, horigin⟩ := ih
    · rw [horigin]
      exact meets_handleDirective hg ha hd
    · exact ⟨place, cs, .after hg ha hd hmeets, horigin⟩

/-- The directive is met, and the token that is looked at follows it with nothing but a gap
between. -/
def MeetsLast (lx place : Lexer) (cs : List Char) : Prop :=
  lx.Meets place cs ∧ ∃ p, lx.peek.state.current = some p ∧ p.origin = place.cursor.behind cs

theorem Meets.ahead {place : Lexer} {cs : List Char} (h : lx.Meets place cs) : lx.ahead ≠ none := by
  cases h with
  | here _ ha =>
    rw [ha]
    exact Option.some_ne_none _
  | inside _ ha _ _ _ =>
    rw [ha]
    exact Option.some_ne_none _
  | after _ ha _ _ =>
    rw [ha]
    exact Option.some_ne_none _

theorem Meets.last {place : Lexer} {cs : List Char} (h : lx.Meets place cs) (hc : lx.current = none)
    {t : Token} (hok : lx.peek.result = .ok t) : ∃ last text, lx.MeetsLast last text := by
  obtain ⟨p, hp, -, hstate⟩ := peek_fresh hc hok
  obtain ⟨hnone, -⟩ | ⟨last, text, hmeets, horigin⟩ := meets_found hp
  · exact absurd hnone h.ahead
  · refine ⟨last, text, hmeets, p, ?_, horigin⟩
    rw [hstate]

/-- The token starts where the last directive and the gap behind it end. -/
theorem MeetsLast.start {place : Lexer} {cs : List Char} (h : lx.MeetsLast place cs)
    (hc : lx.current = none) {t : Token} (hok : lx.peek.result = .ok t) :
    t.start.offset = place.cursor.position.offset + DirectiveLine.reach false cs := by
  obtain ⟨-, p, hp, horigin⟩ := h
  obtain ⟨q, hq, rfl, hstate⟩ := peek_fresh hc hok
  rw [hstate] at hp
  obtain rfl : q = p := Option.some.inj hp
  rw [start_of_found hq, horigin]
  exact Cursor.standing_behind false ..

end Lexer

/-- Where a directive and the gap behind it reach the end of its logical line, no later token starts
on that line; nor does a raw line where the directive reaches it alone.  Every token that a look finds
behind directives starts behind the last of them, on its line exactly when the line is not spent. -/
theorem directive_line_tokens {lx place : Lexer} {cs : List Char} (hc : lx.current = none)
    (hmeets : lx.Meets place cs) :
    (∀ lines, DirectiveLine.Spent lines cs → ∀ lx' op t, lx.peek.state.Later lines lx' →
      op.IsForward lines lx.peek.state.saved.length lx' → (lx'.apply op).result = .ok (.token t) →
      place.cursor.position.offset + DirectiveLine.lineLength cs ≤ t.start.offset) ∧
    (∀ t, lx.peek.result = .ok t → (∃ last text, lx.MeetsLast last text) ∧
      ∀ last text, lx.MeetsLast last text → last.cursor.position.offset < t.start.offset ∧
        (t.start.offset < last.cursor.position.offset + DirectiveLine.lineLength text ↔
          ¬ DirectiveLine.Spent false text)) := by
  refine ⟨?_, ?_⟩
  · intro lines hspent lx' op t hlater hop hok
    have hpasses := hmeets.passes (Nat.add_le_add_left hspent _)
    have hahead := hpasses.peek hc
      ⟨[], (List.nil_append _).symm, fun s hs => absurd hs List.not_mem_nil⟩
    rw [← Lexer.saved_peek hc] at hahead
    exact (hlater.ahead hahead).answer hop hok
  · intro t hok
    refine ⟨hmeets.last hc hok, ?_⟩
    intro last text hlast
    have hstart := hlast.start hc hok
    have hpos : 0 < DirectiveLine.reach false text := by
      show 0 < 1 + Text.byteLength (DirectiveLine.taken text) + _
      omega
    refine ⟨?_, ?_⟩
    · omega
    · rw [hstart]
      unfold DirectiveLine.Spent
      omega

/-- A comment in the middle of the line ends the directive, and the rest of the line is code. -/
theorem directive_line_tokens_sample :
    let lx := (Lexer.ofSource "#define A /* c */ int x\nfoo\n" ⟨true, false, false, true⟩).withPreprocessor
      (some (.conditional Conditional.standard))
    let t : Token := ⟨.identifier, "int", ⟨18, 1⟩, ⟨10, 1⟩⟩
    lx.peek.result = .ok t ∧ lx.skipGap.2.cursor.position.offset < t.start.offset ∧
      t.start.offset < lx.skipGap.2.cursor.position.offset
        + DirectiveLine.lineLength "define A /* c */ int x\nfoo\n".toList := by
  intro lx t
  have hmeets : lx.Meets lx.skipGap.2 "define A /* c */ int x\nfoo\n".toList :=
    .here (by decide +kernel) (by decide +kernel)
  have hok : lx.peek.result = .ok t := ok_of_toOption (by decide +kernel)
  have hlast : lx.MeetsLast lx.skipGap.2 "define A /* c */ int x\nfoo\n".toList :=
    ⟨hmeets, ⟨t, lx.skipGap.2.cursor.behind "define A /* c */ int x\nfoo\n".toList⟩, by decide +kernel, rfl⟩
  have hspent : ¬ DirectiveLine.Spent false "define A /* c */ int x\nfoo\n".toList := by decide +kernel
  obtain ⟨-, h⟩ := (directive_line_tokens rfl hmeets).2 t hok
  exact ⟨hok, (h _ _ hlast).1, (h _ _ hlast).2.2 hspent⟩

end HeaderLex
