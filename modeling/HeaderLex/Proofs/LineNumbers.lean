import HeaderLex.Proofs.Checkpoints
import HeaderLex.Proofs.Exclusion
import HeaderLex.Proofs.Locality
import HeaderLex.Proofs.Lossless

/-!
# Line numbers

The line of a position is counted apart from its offset, by every scanner for itself.  Two of them
step over an escaped line feed without counting it: character literals and raw text.  From there on
the lines lag behind, until a checkpoint takes the lexer back.

* `Position.Right`      the line of a position is the line of its offset;
* `Cursor.lag`          how many lines a cursor is behind;
* `Lexer.missed`        the line feeds that an operation steps over uncounted;
* `InPlace.apply`        the lag grows by just these;
* `line_numbers_right_iff`   when exactly all lines of a run are right, and where the end mark of a
                        replay stands.
-/

namespace HeaderLex

/-! ## the line of an offset -/

/-- The line of an offset: one more than the line feeds before it. -/
def lineAt? (source : List Char) (offset : Nat) : Option Nat :=
  (Text.cutAt? offset source).map fun parts => Text.newlines parts.1 + 1

/-- The line of the position is the line of its offset. -/
def Position.Right (p : Position) (source : List Char) : Prop :=
  lineAt? source p.offset = some p.line

instance (p : Position) (source : List Char) : Decidable (p.Right source) :=
  inferInstanceAs (Decidable (_ = _))

namespace Cursor

/-- The line feeds before the cursor that were not counted. -/
def lag (c : Cursor) : Nat := Text.newlines c.before + 1 - c.position.line

variable {c : Cursor} {source : List Char}

/-- The offset of a cursor cuts the source where the cursor stands. -/
theorem Within.cutAt? (h : c.Within source) :
    Text.cutAt? c.position.offset source = some (c.before.reverse, c.rest) := by
  have hcut := Text.cutAt?_append c.before.reverse c.rest
  rwa [Text.byteLength_reverse, h.text, ← h.offset] at hcut

theorem Within.lineAt? (h : c.Within source) :
    lineAt? source c.position.offset = some (c.position.line + c.lag) := by
  have hline := h.line
  have hlag : Text.newlines c.before + 1 = c.position.line + c.lag := by
    unfold lag
    omega
  unfold HeaderLex.lineAt?
  rw [h.cutAt?, Option.map_some, Text.newlines_reverse, hlag]

theorem Within.right_iff (h : c.Within source) : c.position.Right source ↔ c.lag = 0 := by
  unfold Position.Right
  rw [h.lineAt?, Option.some.injEq]
  omega

theorem Within.lag_advance {text rest : List Char} {lines missed : Nat} (h : c.Within source)
    (hmissed : Text.newlines text = lines + missed) :
    (c.advance text rest lines).lag = c.lag + missed := by
  have hline := h.line
  show Text.newlines (text.reverse ++ c.before) + 1 - (c.position.line + lines) = c.lag + missed
  rw [Text.newlines_append, Text.newlines_reverse]
  unfold lag
  omega

end Cursor

/-! ## what the scanners count -/

theorem Text.newlines_eq_zero {cs : List Char} (h : '\n' ∉ cs) : newlines cs = 0 :=
  List.count_eq_zero_of_not_mem h

namespace Lexeme

theorem newlines_numberText (cs : List Char) : Text.newlines (numberText cs).2.1 = 0 := by
  -- up to the first line feed a number is scanned alike, so it is part of the text before it
  by_cases hmem : '\n' ∈ cs
  · obtain ⟨ds, tail, rfl, hds⟩ := List.eq_append_cons_of_mem hmem
    rw [numberText_line]
    apply Text.newlines_eq_zero
    intro htext
    apply hds
    rw [← numberText_append ds]
    exact List.mem_append_left _ htext
  · apply Text.newlines_eq_zero
    intro htext
    apply hmem
    rw [← numberText_append cs]
    exact List.mem_append_left _ htext

theorem newlines_symbol {c : Char} (hc : c ≠ '\n') (cs : List Char) :
    Text.newlines (symbol c cs).text = 0 := by
  have hone : Text.newlines [c] = 0 :=
    Text.newlines_eq_zero fun hmem => hc (List.mem_singleton.1 hmem).symm
  cases cs with
  | nil => exact hone
  | cons d cs =>
    show Text.newlines (if Keyword.isPairSymbol (String.ofList [c, d]) then _ else _ : Lexeme).text = 0
    by_cases hd : d = '\n'
    · have hlast : ∀ s ∈ Keyword.pairSymbols, ¬ s.toList.getLast? = some '\n' := by decide
      have hpair := @not_isPairSymbol (·.getLast? = some '\n') hlast [c, d] (by rw [hd]; rfl)
      rw [hpair]
      exact hone
    · split
      · apply Text.newlines_eq_zero
        intro hmem
        rcases List.mem_cons.1 hmem with h | h
        · exact hc h.symm
        · exact hd (List.mem_singleton.1 h).symm
      · exact hone

/-- All lexemes count their lines but character literals, which count none. -/
theorem scan_counts {c : Char} {cs : List Char} {l : Lexeme} (h : scan c cs = .ok l) (hc : c ≠ '\n') :
    Text.newlines l.text = l.lines + if l.kind = .charConst then Text.newlines l.text else 0 := by
  rcases scan_class h with ⟨-, h⟩ | ⟨-, h⟩ | ⟨-, h⟩ | ⟨-, h⟩ | h
  · rw [(identifier_ok h).2, if_neg (fun hk => by cases hk)]
    exact DirectiveLine.newlines_takeWhile (by decide) _
  · have hkind : (numberText (c :: cs)).1 ≠ .charConst := by
      intro hchar
      rcases numberText_kind (c :: cs) with hk | hk | hk <;> cases hk.symm.trans hchar
    rw [(number_ok h).2, if_neg hkind]
    exact newlines_numberText _
  · obtain ⟨inner, -, hl, -⟩ := character_ok h
    rw [hl, if_pos rfl, Nat.zero_add]
  · obtain ⟨text, ht, hl⟩ := string_ok h
    rw [hl, if_neg (fun hk => by cases hk)]
    show List.count '\n' ('"' :: text) = l.lines
    rw [List.count_cons_of_ne (by decide)]
    exact (stringTail_sound ht).lines_eq.symm
  · obtain ⟨text, rest, hs⟩ := symbol_eq c cs
    have hnone := newlines_symbol hc cs
    rw [← Except.ok.inj h]
    rw [hs] at hnone ⊢
    rw [if_neg (fun hk => by cases hk)]
    exact hnone

end Lexeme

/-- A text is cut into a raw text and what follows it, which begins with the terminator if that was
met.  A line feed is never met as a terminator. -/
structure RawText.Cuts (terminator : Char) (cs : List Char) (raw : RawText) : Prop where
  text : raw.text ++ raw.rest = cs
  stop : raw.atTerminator = true → terminator ≠ '\n' ∧ ∃ r, raw.rest = terminator :: r

theorem RawText.Cuts.prepend {terminator : Char} {cs front : List Char} {x : Except Cause RawText}
    (h : ∀ r, x = .ok r → Cuts terminator cs r) {raw : RawText}
    (hx : x.map (RawText.prepend front) = .ok raw) : Cuts terminator (front ++ cs) raw := by
  cases x with
  | error e => cases hx
  | ok r =>
    obtain rfl := Except.ok.inj hx
    refine ⟨?_, (h r rfl).stop⟩
    show (front ++ r.text) ++ r.rest = front ++ cs
    rw [List.append_assoc, (h r rfl).text]

theorem RawText.scan_cuts {terminator : Char} {quotes inQuotes : Bool} {used : Nat} {cs : List Char}
    {raw : RawText} (h : scan terminator quotes used inQuotes cs = .ok raw) :
    Cuts terminator cs raw := by
  fun_induction scan terminator quotes used inQuotes cs generalizing raw with
  | case1 | case2 | case4 =>
    obtain rfl := Except.ok.inj h
    exact ⟨rfl, fun hterm => by cases hterm⟩
  | case3 | case5 | case8 => cases h
  | case6 =>
    next ih => exact Cuts.prepend (fun r hr => ih hr) h
  | case7 =>
    next c cs hn _ _ _ hstop =>
    obtain rfl := Except.ok.inj h
    simp only [Bool.and_eq_true, beq_iff_eq] at hstop
    obtain ⟨⟨-, rfl⟩, -⟩ := hstop
    exact ⟨rfl, fun _ => ⟨hn, cs, rfl⟩⟩
  | case9 =>
    next ih => exact Cuts.prepend (fun r hr => ih hr) h

/-- The terminator may be taken along; it holds no line feed. -/
theorem RawText.Cuts.taken {terminator : Char} {cs : List Char} {raw : RawText}
    (h : Cuts terminator cs raw) {keep : Bool} :
    let taken := if raw.atTerminator && !keep then [terminator] else []
    cs = (raw.text ++ taken) ++ raw.rest.drop taken.length ∧
      Text.newlines (raw.text ++ taken) = 0 + Text.newlines raw.text := by
  intro taken
  rw [Nat.zero_add, Text.newlines_append]
  by_cases htaken : (raw.atTerminator && !keep) = true
  · obtain ⟨hne, r, hr⟩ := h.stop (Bool.and_eq_true_iff.1 htaken).1
    have htaken : taken = [terminator] := if_pos htaken
    have hnone : Text.newlines [terminator] = 0 :=
      Text.newlines_eq_zero fun hmem => hne (List.mem_singleton.1 hmem).symm
    rw [htaken, hnone, ← h.text, hr]
    exact ⟨by simp, rfl⟩
  · have htaken : taken = [] := if_neg htaken
    rw [htaken, List.append_nil, ← h.text]
    exact ⟨rfl, rfl⟩

/-! ## places in the source -/

/-- The line feeds of the token's text that its scanner does not count. -/
def Token.uncounted (t : Token) : Nat :=
  if t.kind = .charConst then Text.newlines t.value.toList else 0

/-- Both places of the token are in the source and are `lag` lines behind. -/
structure Token.Placed (source : List Char) (lag : Nat) (t : Token) : Prop where
  start : ∃ c : Cursor, c.Within source ∧ c.lag = lag ∧ c.position = t.start ∧
    t.value.toList <+: c.rest
  unget : ∃ c : Cursor, c.Within source ∧ c.lag = lag ∧ c.position = t.unget

theorem Token.Placed.right_iff {source : List Char} {lag : Nat} {t : Token}
    (h : t.Placed source lag) :
    (t.start.Right source ↔ lag = 0) ∧ (t.unget.Right source ↔ lag = 0) := by
  obtain ⟨c, hc, rfl, hstart, -⟩ := h.start
  obtain ⟨d, hd, hlag, hunget⟩ := h.unget
  rw [← hstart, ← hunget, ← hlag, hd.right_iff, hlag]
  exact ⟨hc.right_iff, Iff.rfl⟩

/-- The place is where a token ends that was looked at. -/
structure Peeked.EndsAt (source : List Char) (cursor : Cursor) (p : Peeked) : Prop where
  within : cursor.Within source
  origin : p.origin.Within source
  token : p.token.Placed source p.origin.lag
  lag : cursor.lag = p.origin.lag + p.token.uncounted

/-- The place is in the source, at the end of the current token if there is one. -/
def AtPlace (source : List Char) (cursor : Cursor) : Option Peeked → Prop
  | some p => p.EndsAt source cursor
  | none => cursor.Within source

/-- How many lines a place is behind; a current token is not passed yet. -/
def lagAt (cursor : Cursor) : Option Peeked → Nat
  | some p => p.origin.lag
  | none => cursor.lag

namespace Lexer

/-- How many lines the lexer is behind. -/
def lag (lx : Lexer) : Nat := lagAt lx.cursor lx.current

/-- The lexer has no preprocessor and is at a place of the source. -/
structure InPlace (source : List Char) (lx : Lexer) : Prop where
  preprocessor : lx.preprocessor = none
  place : AtPlace source lx.cursor lx.current

/-- The line feeds that an operation steps over uncounted. -/
def missed (lx : Lexer) : Op → Nat
  | .consume =>
    match lx.current with
    | some p => p.token.uncounted
    | none => 0
  | .next =>
    match lx.peek.result with
    | .ok t => t.uncounted
    | .error _ => 0
  | .rawText terminator options =>
    let gap := lx.unget.skipGap
    match gap.1, RawText.scan terminator options.respectQuotes 0 false gap.2.cursor.rest with
    | none, .ok raw => if raw.inQuotes then 0 else Text.newlines raw.text
    | _, _ => 0
  | _ => 0

variable {lx lx' : Lexer} {source : List Char}

theorem InPlace.right_iff (h : lx.InPlace source) : lx.position.Right source ↔ lx.lag = 0 := by
  have hplace := h.place
  unfold position lag
  cases hc : lx.current with
  | some p =>
    rw [hc] at hplace
    exact hplace.token.right_iff.1
  | none =>
    rw [hc] at hplace
    exact Cursor.Within.right_iff hplace

theorem InPlace.congr (h : lx.InPlace source) (hp : lx'.preprocessor = lx.preprocessor)
    (hcursor : lx'.cursor = lx.cursor) (hcurrent : lx'.current = lx.current) :
    lx'.InPlace source ∧ lx'.lag = lx.lag := by
  refine ⟨⟨hp.trans h.preprocessor, ?_⟩, ?_⟩
  · rw [hcursor, hcurrent]
    exact h.place
  · unfold lag
    rw [hcursor, hcurrent]

theorem InPlace.moved (h : lx.InPlace source) (hp : lx'.preprocessor = lx.preprocessor)
    (hcurrent : lx'.current = none) (hin : lx'.cursor.Within source) :
    lx'.InPlace source ∧ lx'.lag = lx'.cursor.lag := by
  refine ⟨⟨hp.trans h.preprocessor, ?_⟩, ?_⟩
  · rw [hcurrent]
    exact hin
  · unfold lag
    rw [hcurrent]
    rfl

/-! ## one look ahead -/

theorem lag_skipGap (h : lx.cursor.Within source) : lx.skipGap.2.cursor.lag = lx.cursor.lag := by
  obtain ⟨row, hrow, -, hcur⟩ := lx.skipGap_row
  have hcounts : Text.newlines (rowText row) = rowLines row + 0 := (rowLines_eq hrow).symm
  rw [hcur, h.lag_advance hcounts]
  rfl

/-- Where a gap ends there is no line feed. -/
theorem head_skipGap (hg : lx.skipGap.1 = none) {c : Char} {cs : List Char}
    (hr : lx.skipGap.2.cursor.rest = c :: cs) : c ≠ '\n' := by
  have hskip := Margin.next?_skip ⟨lx.cursor, lx.comments, lx.metrics.comments⟩
  have hcause : (Margin.skip ⟨lx.cursor, lx.comments, lx.metrics.comments⟩).1 = none :=
    Option.map_eq_none_iff.1 hg
  have hrest : (Margin.skip ⟨lx.cursor, lx.comments, lx.metrics.comments⟩).2.cursor.rest = c :: cs := hr
  rw [hcause, hrest] at hskip
  exact (GapPiece.next?_none_iff.1 hskip).2.1

/-- A token that is found without a preprocessor stands after the gap at the cursor. -/
theorem lexToken_place (hp : lx.preprocessor = none) (hin : lx.cursor.Within source) {p : Peeked}
    (hok : lx.lexToken.result = .ok p) :
    p.origin = lx.cursor ∧ p.EndsAt source lx.lexToken.state.cursor := by
  have hgap := within_skipGap hin
  have hlag := lag_skipGap hin
  obtain ⟨hg, ⟨-, horigin, hat, hstate⟩ | ⟨rest, hsome, -⟩⟩ := lexToken_ok hok
  · obtain ⟨t, origin⟩ := p
    obtain rfl : origin = lx.cursor := horigin
    refine ⟨rfl, ?_⟩
    rw [hstate]
    obtain ⟨hr, htoken, hend⟩ | ⟨c, cs, l, hr, hl, htoken, hlexed⟩ := lexAt_ok hat
    · obtain rfl : t = _ := htoken
      rw [hend]
      exact ⟨hgap, hin, ⟨⟨_, hgap, hlag, rfl, List.nil_prefix⟩, ⟨_, hin, rfl, rfl⟩⟩, hlag⟩
    · obtain rfl : t = _ := htoken
      have htext : (String.ofList l.text).toList = l.text := String.toList_ofList
      have hprefix : (String.ofList l.text).toList <+: lx.skipGap.2.cursor.rest := by
        rw [htext, hr, ← Lexeme.scan_append hl]
        exact List.prefix_append ..
      have hcounts := Lexeme.scan_counts hl (head_skipGap hg hr)
      rw [hlexed]
      refine ⟨within_scan hgap hr hl, hin, ⟨⟨_, hgap, hlag, rfl, hprefix⟩, ⟨_, hin, rfl, rfl⟩⟩, ?_⟩
      show _ = lx.cursor.lag + if l.kind = .charConst then Text.newlines (String.ofList l.text).toList else 0
      rw [htext, ← hlag]
      exact hgap.lag_advance hcounts
  · rw [ahead, hp] at hsome
    cases hsome

theorem lexToken_failed (hp : lx.preprocessor = none) {f : Failure}
    (hr : lx.lexToken.result = .error f) : lx.lexToken.state = lx.skipGap.2 := by
  have ha : lx.ahead = none := by
    rw [ahead, hp]
    rfl
  cases hg : lx.skipGap.1 with
  | some e =>
    rw [lexToken_broken hg]
    rfl
  | none =>
    cases ht : (lx.skipGap.2.lexAt lx.cursor.position).1 with
    | error e =>
      rw [lexToken_lexeme_error hg ha ht]
      rfl
    | ok t =>
      rw [lexToken_lexeme_ok hg ha ht] at hr
      cases hr

/-! ## the operations -/

theorem InPlace.peek (h : lx.InPlace source) :
    lx.peek.state.InPlace source ∧ lx.peek.state.lag = lx.lag := by
  have hplace := h.place
  cases hc : lx.current with
  | some p =>
    rw [peek_of_current hc]
    exact ⟨h, rfl⟩
  | none =>
    rw [hc] at hplace
    have hlag : lx.lag = lx.cursor.lag := by
      unfold lag
      rw [hc]
      rfl
    cases hr : lx.lexToken.result with
    | ok p =>
      obtain ⟨horigin, hends⟩ := lexToken_place h.preprocessor hplace hr
      rw [peek_of_lexToken hc hr, hlag, ← horigin]
      exact ⟨⟨stable_bare.lexToken h.preprocessor, hends⟩, rfl⟩
    | error f =>
      rw [peek_of_error hc hr, lexToken_failed h.preprocessor hr, hlag, ← lag_skipGap hplace]
      exact h.moved rfl hc (within_skipGap hplace)

theorem InPlace.peeked (h : lx.InPlace source) {t : Token} (hok : lx.peek.result = .ok t) :
    t.Placed source lx.lag ∧ (lx.peek.state.consumed t).InPlace source ∧
      (lx.peek.state.consumed t).lag = lx.lag + t.uncounted := by
  obtain ⟨hpeek, hlag⟩ := h.peek
  obtain ⟨p, hc, rfl⟩ := current_peek hok
  have hends := hpeek.place
  rw [hc] at hends
  have horigin : lx.lag = p.origin.lag := by
    rw [← hlag]
    unfold lag
    rw [hc]
    rfl
  obtain ⟨hconsumed, hlag'⟩ :=
    @InPlace.moved _ (lx.peek.state.consumed p.token) _ hpeek rfl rfl hends.within
  refine ⟨horigin ▸ hends.token, hconsumed, ?_⟩
  rw [hlag', horigin]
  exact hends.lag

theorem InPlace.unget (h : lx.InPlace source) :
    lx.unget.InPlace source ∧ lx.unget.lag = lx.lag := by
  have hplace := h.place
  unfold Lexer.unget lag
  cases hc : lx.current with
  | some p =>
    rw [hc] at hplace
    exact h.moved rfl rfl hplace.origin
  | none =>
    dsimp only
    rw [hc]
    exact ⟨h, rfl⟩

theorem InPlace.fresh (h : lx.InPlace source) (hc : lx.current = none) :
    lx.cursor.Within source ∧ lx.lag = lx.cursor.lag := by
  have hplace := h.place
  unfold lag
  rw [hc] at hplace ⊢
  exact ⟨hplace, rfl⟩

theorem InPlace.advanced (h : lx.InPlace source) (hc : lx.current = none) {text rest : List Char}
    {lines missed : Nat} (htext : lx.cursor.rest = text ++ rest)
    (hcounts : Text.newlines text = lines + missed) (hp : lx'.preprocessor = lx.preprocessor)
    (hcurrent : lx'.current = none) (hcursor : lx'.cursor = lx.cursor.advance text rest lines) :
    lx'.InPlace source ∧ lx'.lag = lx.lag + missed := by
  obtain ⟨hin, hlag⟩ := h.fresh hc
  have hin' : lx'.cursor.Within source := by
    rw [hcursor]
    exact hin.advance htext (by omega)
  obtain ⟨hplace, hlag'⟩ := h.moved hp hcurrent hin'
  refine ⟨hplace, ?_⟩
  rw [hlag', hcursor, hin.lag_advance hcounts, hlag]

/-- Blanks, a text without line feeds, and a line feed that is counted. -/
theorem line_cases (lx : Lexer) : ∃ blanks cs text rest lines t,
    lx.unget.cursor.rest = blanks ++ cs ∧ Text.newlines blanks = 0 ∧
    cs = text ++ rest ∧ Text.newlines text = lines ∧
    lx.line.result = .ok t ∧ t.value.toList <+: cs ∧ t.unget = lx.unget.cursor.position ∧
    t.start = (lx.unget.cursor.advance blanks cs 0).position ∧
    lx.line.state.cursor = (lx.unget.cursor.advance blanks cs 0).advance text rest lines ∧
    lx.line.state.current = none ∧ lx.line.state.preprocessor = lx.unget.preprocessor := by
  have hcurrent := current_unget lx
  unfold line
  dsimp only
  have hsplit : lx.unget.cursor.rest = lx.unget.cursor.rest.takeWhile DirectiveLine.isInnerBlank
      ++ lx.unget.cursor.rest.dropWhile DirectiveLine.isInnerBlank :=
    List.takeWhile_append_dropWhile.symm
  have hblanks : Text.newlines (lx.unget.cursor.rest.takeWhile DirectiveLine.isInnerBlank) = 0 :=
    DirectiveLine.newlines_takeWhile (by decide) _
  generalize lx.unget.cursor.rest.takeWhile DirectiveLine.isInnerBlank = blanks at hsplit hblanks ⊢
  generalize lx.unget.cursor.rest.dropWhile DirectiveLine.isInnerBlank = cs at hsplit ⊢
  have hcs : cs = cs.takeWhile (· != '\n') ++ cs.dropWhile (· != '\n') :=
    List.takeWhile_append_dropWhile.symm
  have htext : Text.newlines (cs.takeWhile (· != '\n')) = 0 := DirectiveLine.newlines_takeWhile (by decide) _
  have hvalue : (String.ofList (Text.trimEnd (cs.takeWhile (· != '\n')))).toList <+: cs := by
    obtain ⟨blanks', htrim, -⟩ := Text.dropEndWhile_append Text.isBlank (cs.takeWhile (· != '\n'))
    rw [String.toList_ofList]
    exact List.IsPrefix.trans ⟨blanks', htrim.symm⟩ (List.takeWhile_prefix _)
  split
  · next hnil =>
    rw [hnil] at hcs
    exact ⟨blanks, cs, _, [], 0, _, hsplit, hblanks, hcs, htext, rfl, hvalue, rfl, rfl, rfl, hcurrent, rfl⟩
  · next c rest hcons =>
    have hc : (c != '\n') = false := by
      have hhead := List.head?_dropWhile_not (· != '\n') cs
      rw [hcons] at hhead
      simpa using hhead
    obtain rfl : c = '\n' := by simpa using hc
    refine ⟨blanks, cs, cs.takeWhile (· != '\n') ++ ['\n'], rest, 1, _, hsplit, hblanks, ?_, ?_, rfl,
      hvalue, rfl, rfl, rfl, hcurrent, rfl⟩
    · rw [List.append_assoc, List.singleton_append, ← hcons]
      exact hcs
    · rw [Text.newlines_append, htext]
      rfl

theorem InPlace.line (h : lx.InPlace source) :
    lx.line.state.InPlace source ∧ lx.line.state.lag = lx.lag ∧
      ∀ t, lx.line.result = .ok t → t.Placed source lx.lag := by
  obtain ⟨hunget, hlag⟩ := h.unget
  have hcurrent := current_unget lx
  obtain ⟨hin, horigin⟩ := hunget.fresh hcurrent
  obtain ⟨blanks, cs, text, rest, lines, t, hblanks, hno, hcs, hlines, hresult, hvalue, hu, hstart,
    hcursor, hc, hp⟩ := lx.line_cases
  -- two advances: the token starts between the blanks and the text
  obtain ⟨hinner, hinnerLag⟩ := @InPlace.advanced _
    { lx.unget with cursor := lx.unget.cursor.advance blanks cs 0 } _ hunget hcurrent _ _ 0 0 hblanks hno
    rfl hcurrent rfl
  obtain ⟨hplace, hlag'⟩ := @InPlace.advanced _ _ _ hinner hcurrent _ _ lines 0 hcs hlines hp hc hcursor
  refine ⟨hplace, ?_, ?_⟩
  · rw [hlag', hinnerLag, hlag]
    rfl
  · intro u hut
    obtain rfl : t = u := Except.ok.inj (hresult.symm.trans hut)
    obtain ⟨hinnerIn, hinnerLag'⟩ := hinner.fresh hcurrent
    rw [hinnerLag, hlag] at hinnerLag'
    rw [hlag] at horigin
    exact ⟨⟨_, hinnerIn, hinnerLag'.symm, hstart.symm, hvalue⟩, ⟨_, hin, horigin.symm, hu.symm⟩⟩

theorem InPlace.rawText (h : lx.InPlace source) (terminator : Char) (options : RawTextOptions) :
    (lx.rawText terminator options).state.InPlace source ∧
      (lx.rawText terminator options).state.lag
        = lx.lag + lx.missed (.rawText terminator options) := by
  obtain ⟨hunget, hlag⟩ := h.unget
  have hcurrent := current_unget lx
  obtain ⟨hin, horigin⟩ := hunget.fresh hcurrent
  obtain ⟨hgap, hgapLag⟩ := @InPlace.moved _ lx.unget.skipGap.2 _ hunget rfl hcurrent (within_skipGap hin)
  rw [lag_skipGap hin, ← horigin, hlag] at hgapLag
  unfold Lexer.rawText missed
  dsimp only
  cases hg : lx.unget.skipGap.1 with
  | some e => exact ⟨hgap, hgapLag⟩
  | none =>
    cases hscan : RawText.scan terminator options.respectQuotes 0 false lx.unget.skipGap.2.cursor.rest with
    | error cause => exact ⟨hgap, hgapLag⟩
    | ok raw =>
      dsimp only
      split
      · exact ⟨hgap, hgapLag⟩
      · obtain ⟨htext, hcounts⟩ := (RawText.scan_cuts hscan).taken
        rw [← hgapLag]
        exact hgap.advanced hcurrent htext hcounts rfl hcurrent rfl

theorem bare_apply (hp : lx.preprocessor = none) (op : Op) :
    (lx.apply op).state.preprocessor = none := by
  cases hlook : op.isLook with
  | true =>
    have hpeek : lx.peek.state.preprocessor = none := by
      cases hc : lx.current with
      | some p =>
        rw [peek_of_current hc]
        exact hp
      | none =>
        have htoken := stable_bare.lexToken hp
        cases hr : lx.lexToken.result with
        | ok p =>
          rw [peek_of_lexToken hc hr]
          exact htoken
        | error f =>
          rw [peek_of_error hc hr]
          exact htoken
    obtain ⟨t, answer, -, -, hs | hs⟩ | ⟨f, -, -, hs⟩ := lx.apply_look hlook <;>
    · rw [hs]
      exact hpeek
  | false =>
    obtain h | h | h | h := lx.preprocessor_apply hlook <;> rw [h, hp]
    all_goals rfl

/-- Every operation but going back passes over just the line feeds that it counts or misses. -/
theorem InPlace.apply (h : lx.InPlace source) {op : Op} (hop : op ≠ .restore) :
    (lx.apply op).state.InPlace source ∧ (lx.apply op).state.lag = lx.lag + lx.missed op := by
  have hp := (bare_apply h.preprocessor op).trans h.preprocessor.symm
  have hquiet : op.isQuiet = true → (lx.apply op).state.InPlace source ∧
      (lx.apply op).state.lag = lx.lag := by
    intro hop
    obtain ⟨hcursor, hcurrent, -⟩ := lx.quiet_apply hop
    exact h.congr hp hcursor hcurrent
  cases op with
  | peek => exact h.peek
  | atEnd => exact h.peek
  | next =>
    show lx.next.state.InPlace source ∧ lx.next.state.lag = lx.lag + match lx.peek.result with
      | .ok t => t.uncounted
      | .error _ => 0
    cases hr : lx.peek.result with
    | ok t =>
      rw [next_of_ok hr]
      exact (h.peeked hr).2
    | error f =>
      rw [next_of_error hr]
      exact h.peek
  | consume =>
    show lx.consume.state.InPlace source ∧ lx.consume.state.lag = lx.lag + match lx.current with
      | some p => p.token.uncounted
      | none => 0
    unfold consume
    cases hc : lx.current with
    | some p =>
      have hpeek := peek_of_current hc
      have hpeeked := @InPlace.peeked _ _ h p.token (congrArg Outcome.result hpeek)
      rw [hpeek] at hpeeked
      exact hpeeked.2
    | none => exact ⟨h, rfl⟩
  | line =>
    obtain ⟨hplace, hlag, -⟩ := h.line
    exact ⟨hplace, hlag⟩
  | rawText terminator options => exact h.rawText terminator options
  | restore => exact absurd rfl hop
  | save => exact h.congr hp lx.save_place.1 lx.save_place.2.1
  | abandon => exact h.congr hp lx.abandon_place.1 lx.abandon_place.2.1
  | _ => exact hquiet rfl

/-- A token that is answered lags as the lexer does. -/
theorem InPlace.answer (h : lx.InPlace source) {op : Op} {t : Token}
    (hok : (lx.apply op).result = .ok (.token t)) : t.Placed source lx.lag := by
  obtain hpeek | ⟨-, hline⟩ := apply_token hok
  · exact (h.peeked hpeek).1
  · exact h.line.2.2 t hline

/-! ## runs -/

/-- The position after an operation is right, and so are both places of a token that it answers. -/
def TellsLines (source : List Char) (lx : Lexer) (op : Op) : Prop :=
  (lx.apply op).state.position.Right source ∧
    ∀ t, (lx.apply op).result = .ok (.token t) → t.start.Right source ∧ t.unget.Right source

/-- The lexer and its checkpoints are at places of the source. -/
structure Charted (source : List Char) (lx : Lexer) : Prop where
  preprocessor : lx.preprocessor = none
  places : lx.Everywhere (AtPlace source)

theorem Charted.inPlace (h : lx.Charted source) : lx.InPlace source := ⟨h.preprocessor, h.places.place⟩

theorem Charted.apply (h : lx.Charted source) (op : Op) : (lx.apply op).state.Charted source :=
  ⟨bare_apply h.preprocessor op, h.places.apply fun hop => (h.inPlace.apply hop).1.place⟩

theorem charted_ofSource (source : String) (preferences : LexicalPreferences) :
    (ofSource source preferences).Charted source.toList :=
  ⟨rfl, Cursor.Within.ofText _, fun _ hs => absurd hs List.not_mem_nil⟩

/-- In a row whose lines are all right, nothing is missed. -/
theorem Charted.counts (h : lx.Charted source) (hlag : lx.lag = 0) {ops : List Op}
    (hright : lx.Along (TellsLines source) ops) : lx.Along (fun lx op => lx.missed op = 0) ops := by
  induction ops generalizing lx with
  | nil => trivial
  | cons op ops ih =>
    have hlag' := (h.apply op).inPlace.right_iff.1 hright.1.1
    refine ⟨?_, ih (h.apply op) hlag' hright.2⟩
    by_cases hop : op = .restore
    · subst hop
      rfl
    · have hstep := (h.inPlace.apply hop).2
      omega

/-- When nothing is missed, the lexer and its checkpoints do not lag. -/
theorem Charted.tells (h : lx.Charted source) (hlag : lx.Everywhere fun c p => lagAt c p = 0)
    {ops : List Op} (hmissed : lx.Along (fun lx op => lx.missed op = 0) ops) :
    lx.Along (TellsLines source) ops := by
  induction ops generalizing lx with
  | nil => trivial
  | cons op ops ih =>
    -- the checkpoints have to be in it: going back must not bring an old lag with it
    have hlag' : (lx.apply op).state.Everywhere fun c p => lagAt c p = 0 := by
      apply hlag.apply
      intro hop
      have hstep := (h.inPlace.apply hop).2
      rw [hmissed.1] at hstep
      exact hstep.trans hlag.place
    refine ⟨⟨(h.apply op).inPlace.right_iff.2 hlag'.place, ?_⟩, ih (h.apply op) hlag' hmissed.2⟩
    intro t ht
    have hplaced := (h.inPlace.answer ht).right_iff
    exact ⟨hplaced.1.2 hlag.place, hplaced.2.2 hlag.place⟩

end Lexer

/-! ## replays -/

/-- The end mark of a replay stands at the end of its last token, on the line where that begins. -/
theorem Token.Placed.replay {source : List Char} {lag : Nat} {t : Token} (h : t.Placed source lag)
    (hlines : Text.newlines source < Position.lineBound - 1)
    (hsize : Text.byteLength source < Position.offsetBound) {tokens : List Token} {kind : TokenKind}
    (hlast : tokens.getLast? = some t) (hkind : kind.isEnd = true) :
    ∃ r s, Replay.ofTokens tokens kind = .ok r ∧ t.span = .ok s ∧
      r.endMark.start.offset = s.stop.offset ∧
      (r.endMark.start = s.stop ↔ Text.newlines t.value.toList = 0) := by
  obtain ⟨c, hin, -, hstart, rest, hrest⟩ := h.start
  have hsource := hin.text
  rw [← hrest, ← List.append_assoc] at hsource
  have hbytes := congrArg Text.byteLength hsource
  have hfeeds := congrArg Text.newlines hsource
  simp only [Text.byteLength_append, Text.byteLength_reverse, Text.newlines_append,
    Text.newlines_reverse, ← hin.offset] at hbytes hfeeds
  have hline := hin.line
  rw [hstart] at hbytes hline
  have hstop : t.stop < Position.offsetBound := by
    unfold Token.stop
    omega
  have hspan := Token.span_eq hstop (by omega)
  have hend : Replay.endPosition tokens = ⟨t.stop, t.start.line⟩ := by
    unfold Replay.endPosition
    rw [hlast]
    rfl
  have hreplay : Replay.ofTokens tokens kind
      = .ok ⟨tokens, [], ⟨kind, "", ⟨t.stop, t.start.line⟩, ⟨t.stop, t.start.line⟩⟩⟩ := by
    unfold Replay.ofTokens Token.endAt
    rw [hend, if_pos hkind]
    rfl
  refine ⟨_, _, hreplay, hspan, rfl, ?_⟩
  rw [Position.mk.injEq]
  omega

/-- For every source and every run of operations: all lines are right exactly when no operation steps
over a line feed uncounted, in a character literal or in raw text.  A token that is answered is
right where the lexer is.  The end mark of a replay is the end of its last token exactly when that
token holds no line feed. -/
theorem line_numbers_right_iff {source : String}
    (hlines : Text.newlines source.toList < Position.lineBound - 1)
    (hsize : Text.byteLength source.toList < Position.offsetBound)
    (preferences : LexicalPreferences) (ops : List Op) :
    let start := Lexer.ofSource source preferences
    (start.Along (Lexer.TellsLines source.toList) ops ↔
      start.Along (fun lx op => lx.missed op = 0) ops) ∧
    ∀ op t, ((start.run ops).apply op).result = .ok (.token t) →
      (t.start.Right source.toList ↔ (start.run ops).position.Right source.toList) ∧
      (t.unget.Right source.toList ↔ (start.run ops).position.Right source.toList) ∧
      ∀ tokens kind, tokens.getLast? = some t → kind.isEnd = true →
        ∃ r s, Replay.ofTokens tokens kind = .ok r ∧ t.span = .ok s ∧
          r.endMark.start.offset = s.stop.offset ∧
          (r.endMark.start = s.stop ↔ Text.newlines t.value.toList = 0) := by
  intro start
  have hcharted := Lexer.charted_ofSource source preferences
  have hzero : start.Everywhere fun c p => lagAt c p = 0 :=
    ⟨rfl, fun _ hs => absurd hs List.not_mem_nil⟩
  refine ⟨⟨hcharted.counts rfl, hcharted.tells hzero⟩, ?_⟩
  intro op t ht
  have hrun : (start.run ops).InPlace source.toList :=
    (@Lexer.run_invariant (Lexer.Charted source.toList) (fun _ op h => h.apply op) _ hcharted ops).inPlace
  have hplaced := hrun.answer ht
  refine ⟨hplaced.right_iff.1.trans hrun.right_iff.symm, hplaced.right_iff.2.trans hrun.right_iff.symm, ?_⟩
  intro tokens kind hlast hkind
  exact hplaced.replay hlines hsize hlast hkind

/-- A character literal with an escaped line feed: the lines are wrong behind it, and so is the end
mark of its replay. -/
theorem line_numbers_sample :
    let source := "'\\\n' x"
    let start := Lexer.ofSource source ⟨true, false, false, true⟩
    let t : Token := ⟨.charConst, "'\\\n'", ⟨0, 1⟩, ⟨0, 1⟩⟩
    Text.newlines source.toList < Position.lineBound - 1 ∧
    Text.byteLength source.toList < Position.offsetBound ∧
    ¬ start.Along (Lexer.TellsLines source.toList) [.next] ∧
    (start.apply .next).result = .ok (.token t) ∧ t.start.Right source.toList ∧
    ∃ r s, Replay.ofTokens [t] .endOfFile = .ok r ∧ t.span = .ok s ∧ r.endMark.start ≠ s.stop := by
  intro source start t
  have hlines : Text.newlines source.toList < Position.lineBound - 1 := by decide +kernel
  have hsize : Text.byteLength source.toList < Position.offsetBound := by decide +kernel
  have hanswer : (start.apply .next).result = .ok (.token t) := ok_of_toOption (by decide +kernel)
  have hmissed : start.missed .next ≠ 0 := by decide +kernel
  obtain ⟨hiff, -⟩ := line_numbers_right_iff hlines hsize ⟨true, false, false, true⟩ [.next]
  obtain ⟨-, hanswered⟩ := line_numbers_right_iff hlines hsize ⟨true, false, false, true⟩ []
  obtain ⟨hstart, -, hreplay⟩ := hanswered .next t hanswer
  obtain ⟨r, s, hr, hs, -, hend⟩ := hreplay [t] .endOfFile rfl rfl
  refine ⟨hlines, hsize, fun h => hmissed (hiff.1 h).1, hanswer, hstart.2 (by decide +kernel),
    r, s, hr, hs, fun h => absurd (hend.1 h) (by decide +kernel)⟩

end HeaderLex
