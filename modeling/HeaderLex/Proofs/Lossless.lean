import HeaderLex.Proofs.Lookahead

/-!
# Reading a source loses nothing

The tokens of a source, each with the gap in front of it, and the gap after the last one make up the
source.

* `Tiling`               a text is cut into gaps and tokens, in turn;
* `Lexer.Plain.tiling`   reading without a preprocessor cuts the text this way;
* `Lossless`             what this means for the offsets that the tokens carry.
-/

namespace HeaderLex

/-! ## tilings -/

/-- First byte after the text of a token. -/
def Token.stop (t : Token) : Nat := t.start.offset + Text.byteLength t.value.toList

/-- The span of a token, as long as its text ends before the last line and the last byte that a
position can name. -/
theorem Token.span_eq {t : Token} (hoffset : t.stop < Position.offsetBound)
    (hline : t.start.line + Text.newlines t.value.toList < Position.lineBound) :
    t.span = .ok ⟨t.start, ⟨t.stop, t.start.line + Text.newlines t.value.toList⟩⟩ := by
  have hmod : Text.newlines t.value.toList % Position.lineBound = Text.newlines t.value.toList :=
    Nat.mod_eq_of_lt (by omega)
  have hadv : t.start.advance t.value.toList
      = .ok ⟨t.stop, t.start.line + Text.newlines t.value.toList⟩ := by
    unfold Position.advance
    dsimp only
    rw [hmod, if_pos ⟨hoffset, hline⟩]
    rfl
  have hle : t.start.offset ≤ t.stop := Nat.le_add_right ..
  show Span.covering t.start t.value.toList = _
  simp only [Span.covering, hadv, bind, Except.bind, Span.between]
  rw [if_pos hle]

/-- A text that stands after `before` is cut into gaps and tokens, in turn, and the tokens know
where they stand. -/
inductive Tiling : List Char → List Char → List Token → Prop
  | done {before gap : List Char} : IsGap gap [] → Tiling before gap []
  | token {before gap rest : List Char} {t : Token} {ts : List Token} :
      IsGap gap t.value.toList → t.unget.offset = Text.byteLength before →
      t.start.offset = Text.byteLength (before ++ gap) →
      t.start.line ≤ Text.newlines (before ++ gap) + 1 →
      Tiling (before ++ gap ++ t.value.toList) rest ts →
      Tiling before (gap ++ (t.value.toList ++ rest)) (t :: ts)

/-! ## what a tiling says about offsets -/

/-- Every token begins its look ahead where the token before it stopped, the first one at `stop`. -/
def Follows : Nat → List Token → Prop
  | _, [] => True
  | stop, t :: ts => t.unget.offset = stop ∧ Follows t.stop ts

/-- Where the last token stops, or `start` if there is none. -/
def lastStop (start : Nat) : List Token → Nat
  | [] => start
  | t :: ts => lastStop t.stop ts

/-- The text of a token together with the gap in front of it, cut out of the source. -/
def Token.withGap (source : List Char) (t : Token) : Except Fault (List Char) := do
  let gap ← Text.slice source t.unget.offset t.start.offset
  return gap ++ t.value.toList

/-- The tokens account for every byte of the source. -/
structure Lossless (source : List Char) (tokens : List Token) : Prop where
  value : ∀ t ∈ tokens, Text.slice source t.start.offset t.stop = .ok t.value.toList
  span : ∀ t ∈ tokens, ∃ s, t.span = .ok s ∧ s.slice source = .ok t.value.toList
  follows : Follows 0 tokens
  gap : ∀ t ∈ tokens, ∃ gap, Text.slice source t.unget.offset t.start.offset = .ok gap ∧
    IsGap gap t.value.toList
  whole : ∃ pieces last, tokens.mapM (Token.withGap source) = .ok pieces ∧
    Text.slice source (lastStop 0 tokens) (Text.byteLength source) = .ok last ∧ IsGap last [] ∧
    source = pieces.flatten ++ last

namespace Tiling

variable {before text : List Char} {tokens : List Token}

/-- A slice between the ends of two prefixes. -/
theorem slice_between (s t u : List Char) :
    Text.slice (s ++ t ++ u) (Text.byteLength s) (Text.byteLength (s ++ t)) = .ok t := by
  rw [List.append_assoc, Text.byteLength_append]
  exact Text.slice_append s t u

theorem follows (h : Tiling before text tokens) : Follows (Text.byteLength before) tokens := by
  induction h with
  | done => trivial
  | @token before gap rest t ts _ hu hs _ _ ih =>
    refine ⟨hu, ?_⟩
    have hstop : t.stop = Text.byteLength (before ++ gap ++ t.value.toList) := by
      rw [Token.stop, hs, Text.byteLength_append (before ++ gap)]
    rw [hstop]
    exact ih

theorem slice_value (h : Tiling before text tokens) :
    ∀ t ∈ tokens, Text.slice (before ++ text) t.start.offset t.stop = .ok t.value.toList := by
  induction h with
  | done => simp
  | @token before gap rest t ts _ _ hs _ _ ih =>
    intro u hu
    rcases List.mem_cons.1 hu with rfl | hu
    · rw [Token.stop, hs, ← List.append_assoc before gap]
      exact Text.slice_append ..
    · have := ih u hu
      simpa only [List.append_assoc] using this

theorem slice_gap (h : Tiling before text tokens) : ∀ t ∈ tokens, ∃ gap,
    Text.slice (before ++ text) t.unget.offset t.start.offset = .ok gap ∧
      IsGap gap t.value.toList := by
  induction h with
  | done => simp
  | @token before gap rest t ts hg hu hs _ _ ih =>
    intro u hmem
    rcases List.mem_cons.1 hmem with rfl | hmem
    · refine ⟨gap, ?_, hg⟩
      rw [hu, hs, ← List.append_assoc before gap]
      exact slice_between ..
    · obtain ⟨g, hslice, hgap⟩ := ih u hmem
      exact ⟨g, by simpa only [List.append_assoc] using hslice, hgap⟩

theorem slice_span (h : Tiling before text tokens)
    (hsize : Text.byteLength (before ++ text) < Position.offsetBound)
    (hlines : Text.newlines (before ++ text) + 1 < Position.lineBound) :
    ∀ t ∈ tokens, ∃ s, t.span = .ok s ∧ s.slice (before ++ text) = .ok t.value.toList := by
  have hvalue := h.slice_value
  induction h with
  | done => simp
  | @token before gap rest t ts _ _ hs hl htail ih =>
    intro u hu
    rcases List.mem_cons.1 hu with rfl | hu
    · simp only [Text.byteLength_append, Text.newlines_append] at hs hl hsize hlines
      have hstop : u.stop < Position.offsetBound := by
        unfold Token.stop
        omega
      exact ⟨_, Token.span_eq hstop (by omega), hvalue u List.mem_cons_self⟩
    · have ih' := ih (by simpa only [List.append_assoc] using hsize)
        (by simpa only [List.append_assoc] using hlines) htail.slice_value u hu
      simpa only [List.append_assoc] using ih'

theorem whole (h : Tiling before text tokens) : ∃ pieces last,
    tokens.mapM (Token.withGap (before ++ text)) = .ok pieces ∧
      Text.slice (before ++ text) (lastStop (Text.byteLength before) tokens)
        (Text.byteLength (before ++ text)) = .ok last ∧ IsGap last [] ∧
      text = pieces.flatten ++ last := by
  induction h with
  | @done before gap hg =>
    refine ⟨[], gap, rfl, ?_, hg, rfl⟩
    have := slice_between before gap []
    rwa [List.append_nil] at this
  | @token before gap rest t ts hg hu hs hl htail ih =>
    obtain ⟨pieces, last, hpieces, hlast, hgap, hrest⟩ := ih
    have hsrc : before ++ (gap ++ (t.value.toList ++ rest))
        = before ++ gap ++ t.value.toList ++ rest := by simp only [List.append_assoc]
    have hfirst : Token.withGap (before ++ gap ++ t.value.toList ++ rest) t
        = .ok (gap ++ t.value.toList) := by
      have := slice_between before gap (t.value.toList ++ rest)
      rw [← hs, ← hu, ← List.append_assoc (before ++ gap)] at this
      simp only [Token.withGap, this, bind, Except.bind, pure, Except.pure]
    have hstop : lastStop (Text.byteLength before) (t :: ts)
        = lastStop (Text.byteLength (before ++ gap ++ t.value.toList)) ts := by
      show lastStop t.stop ts = _
      rw [Token.stop, hs, Text.byteLength_append (before ++ gap)]
    refine ⟨(gap ++ t.value.toList) :: pieces, last, ?_, ?_, hgap, ?_⟩
    · rw [hsrc, List.mapM_cons, hfirst, hpieces]
      rfl
    · rw [hsrc, hstop]
      exact hlast
    · rw [hrest, List.flatten_cons]
      simp only [List.append_assoc]

/-- A tiling of a whole source accounts for every byte of it. -/
theorem lossless (h : Tiling [] text tokens) (hsize : Text.byteLength text < Position.offsetBound)
    (hlines : Text.newlines text + 1 < Position.lineBound) : Lossless text tokens where
  value := h.slice_value
  span := h.slice_span hsize hlines
  follows := h.follows
  gap := h.slice_gap
  whole := h.whole

end Tiling

/-! ## reading without a preprocessor -/

namespace Lexer

/-- The lexer reads between tokens, without a preprocessor, inside a source. -/
structure Plain (lx : Lexer) (source : List Char) : Prop where
  preprocessor : lx.preprocessor = none
  current : lx.current = none
  within : lx.cursor.Within source

/-- The cursor of a look ahead stops after a row of pieces, at the end of the source or at a lexeme. -/
theorem Plain.look {lx : Lexer} {source : List Char} (h : lx.Plain source) {t : Token}
    (ht : lx.peek.result = .ok t) :
    ∃ row rest, IsRow row rest ∧ lx.cursor.rest = rowText row ++ rest ∧
      GapPiece.next? rest = .ok none ∧
      (lx.cursor.advance (rowText row) rest (rowLines row)).Within source ∧
      ((rest = [] ∧ t.isEnd = true) ∨ ∃ a cs l, rest = a :: cs ∧ Lexeme.scan a cs = .ok l ∧
        t = ⟨l.kind, String.ofList l.text,
          (lx.cursor.advance (rowText row) rest (rowLines row)).position, lx.cursor.position⟩ ∧
        (lx.peek.state.consumed t).Plain source ∧
        (lx.peek.state.consumed t).cursor.before
          = l.text.reverse ++ ((rowText row).reverse ++ lx.cursor.before) ∧
        (lx.peek.state.consumed t).cursor.rest = l.rest) := by
  obtain ⟨p, hp, rfl, hstate⟩ := peek_fresh h.current ht
  obtain ⟨row, hrow, htext, hcur⟩ := lx.skipGap_row
  have hin : lx.skipGap.2.cursor.Within source := within_skipGap h.within
  have hnone : lx.ahead = none := by
    rw [ahead, h.preprocessor]
    rfl
  obtain ⟨hg, ⟨-, -, hat, hafter⟩ | ⟨rest, hsome, -⟩⟩ := lexToken_ok hp
  · refine ⟨row, lx.skipGap.2.cursor.rest, hrow, htext, ?_, hcur ▸ hin, ?_⟩
    · have hskip := Margin.next?_skip ⟨lx.cursor, lx.comments, lx.metrics.comments⟩
      have hcause : (Margin.skip ⟨lx.cursor, lx.comments, lx.metrics.comments⟩).1 = none :=
        Option.map_eq_none_iff.1 hg
      rw [hcause] at hskip
      exact hskip
    · obtain ⟨hr, htok, -⟩ | ⟨a, cs, l, hr, hl, htok, hlexed⟩ := lexAt_ok hat
      · rw [htok]
        exact .inl ⟨hr, rfl⟩
      · refine .inr ⟨a, cs, l, hr, hl, ?_, ?_, ?_, ?_⟩
        · rw [htok, ← hcur]
        · rw [hstate, hafter, hlexed]
          exact ⟨h.preprocessor, rfl, within_scan hin hr hl⟩
        · rw [hstate, hafter, hlexed]
          show l.text.reverse ++ lx.skipGap.2.cursor.before = _
          rw [hcur]
          rfl
        · rw [hstate, hafter, hlexed]
          rfl
  · rw [hnone] at hsome
    cases hsome
theorem Plain.drain_nil {lx : Lexer} {source : List Char} (h : lx.Plain source)
    (hd : lx.drain.result = .ok []) : ∃ row, IsRow row [] ∧ lx.cursor.rest = rowText row := by
  obtain ⟨t, ht, ⟨hend, -⟩ | ⟨ts, -, -, hts⟩⟩ := drain_ok hd
  · obtain ⟨row, rest, hrow, htext, -, -, ⟨rfl, -⟩ | ⟨a, cs, l, -, hl, htok, -⟩⟩ := h.look ht
    · rw [List.append_nil] at htext
      exact ⟨row, hrow, htext⟩
    · have hkind : t.isEnd = false := by
        rw [htok]
        exact Lexeme.scan_kind hl
      rw [hend] at hkind
      cases hkind
  · cases hts

/-- The first token of the rest is a lexeme behind a gap, and the others are read after it. -/
theorem Plain.drain_cons {lx : Lexer} {source : List Char} (h : lx.Plain source) {t : Token}
    {ts : List Token} (hd : lx.drain.result = .ok (t :: ts)) :
    ∃ row a cs l, ∃ lx' : Lexer, IsRow row (a :: cs) ∧ lx.cursor.rest = rowText row ++ a :: cs ∧
      GapPiece.next? (a :: cs) = .ok none ∧ Lexeme.scan a cs = .ok l ∧
      (lx.cursor.advance (rowText row) (a :: cs) (rowLines row)).Within source ∧
      t = ⟨l.kind, String.ofList l.text,
        (lx.cursor.advance (rowText row) (a :: cs) (rowLines row)).position, lx.cursor.position⟩ ∧
      lx'.Plain source ∧ lx'.drain.result = .ok ts ∧
      lx'.cursor.before = l.text.reverse ++ ((rowText row).reverse ++ lx.cursor.before) ∧
      lx'.cursor.rest = l.rest := by
  obtain ⟨u, hu, ⟨-, hnil⟩ | ⟨us, hend, hrec, hts⟩⟩ := drain_ok hd
  · cases hnil
  · obtain ⟨rfl, rfl⟩ := List.cons.inj hts
    obtain ⟨row, rest, hrow, htext, hnone, hin, ⟨-, hend'⟩ |
      ⟨a, cs, l, rfl, hl, htok, hplain, hbefore, hrest⟩⟩ := h.look hu
    · rw [hend] at hend'
      cases hend'
    · exact ⟨row, a, cs, l, _, hrow, htext, hnone, hl, hin, htok, hplain, hrec, hbefore, hrest⟩

/-- The text of a lexeme begins as the text under the cursor. -/
theorem head?_scan {a : Char} {cs : List Char} {l : Lexeme} (h : Lexeme.scan a cs = .ok l) :
    (a :: cs).head? = l.text.head? := by
  rw [← Lexeme.scan_append h, List.head?_append]
  cases htext : l.text with
  | nil => exact absurd htext (Lexeme.scan_text_ne_nil h)
  | cons b bs => rfl

/-- Without a preprocessor, reading to the end tiles the text under the cursor. -/
theorem Plain.tiling {lx : Lexer} {source : List Char} (h : lx.Plain source) {tokens : List Token}
    (hd : lx.drain.result = .ok tokens) : Tiling lx.cursor.before.reverse lx.cursor.rest tokens := by
  induction tokens generalizing lx with
  | nil =>
    obtain ⟨row, hrow, htext⟩ := h.drain_nil hd
    rw [htext]
    exact .done ⟨row, rfl, hrow⟩
  | cons t ts ih =>
    obtain ⟨row, a, cs, l, lx', hrow, htext, -, hl, hin, htok, hplain, hrec, hbefore, hrest⟩ :=
      h.drain_cons hd
    have hvalue : t.value.toList = l.text := by rw [htok, String.toList_ofList]
    have hplace : ((rowText row).reverse ++ lx.cursor.before).reverse
        = lx.cursor.before.reverse ++ rowText row := by
      rw [List.reverse_append, List.reverse_reverse]
    have htail := ih hplain hrec
    rw [hbefore, hrest, List.reverse_append, List.reverse_reverse, hplace, ← hvalue] at htail
    rw [htext, ← Lexeme.scan_append hl, ← hvalue]
    refine .token ⟨row, rfl, ?_⟩ ?_ ?_ ?_ htail
    · rw [hvalue]
      exact hrow.congr_head (head?_scan hl)
    · rw [htok, Text.byteLength_reverse]
      exact h.within.offset
    · rw [htok, ← hplace, Text.byteLength_reverse]
      exact hin.offset
    · rw [htok, ← hplace, Text.newlines_reverse]
      exact hin.line

end Lexer

/-- Reading a source without a preprocessor loses nothing.  Every text that fits into memory is below
the bound of offsets. -/
theorem tokenize_lossless {source : String} {preferences : LexicalPreferences}
    {tokens : List Token} (h : (tokenize source preferences).result = .ok tokens)
    (hlines : Text.newlines source.toList < Position.lineBound - 1)
    (hsize : Text.byteLength source.toList < Position.offsetBound) :
    Lossless source.toList tokens := by
  have htile : Tiling [] source.toList tokens :=
    Lexer.Plain.tiling ⟨rfl, rfl, Cursor.Within.ofText source.toList⟩ h
  exact htile.lossless hsize (by omega)

/-- Comments, a continuation, an escaped line feed and characters of several bytes. -/
theorem tokenize_lossless_sample :
    let source := "a /* é */ \\\n'\\\n'// x\n\"ü\\\"\" -0x1Fu"
    let tokens : List Token :=
      [⟨.identifier, "a", ⟨0, 1⟩, ⟨0, 1⟩⟩, ⟨.charConst, "'\\\n'", ⟨13, 2⟩, ⟨1, 1⟩⟩,
        ⟨.stringConst, "\"ü\\\"\"", ⟨22, 3⟩, ⟨17, 2⟩⟩, ⟨.hexConst, "-0x1Fu", ⟨29, 3⟩, ⟨28, 3⟩⟩]
    (tokenize source ⟨true, false, false, true⟩).result = .ok tokens ∧
      Lossless source.toList tokens :=
  ⟨ok_of_toOption (by decide +kernel),
    @tokenize_lossless _ ⟨true, false, false, true⟩ _ (ok_of_toOption (by decide +kernel))
      (by decide +kernel) (by decide +kernel)⟩

end HeaderLex
