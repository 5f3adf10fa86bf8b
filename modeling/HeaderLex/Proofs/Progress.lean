import HeaderLex.Proofs.Crashes

/-!
# Progress

A look ahead goes on after a directive, a skipped region goes on after a directive, a token or a
line, and reading a whole source goes on after a token.  Each of these turns leaves the cursor
strictly further on in the same text, whatever the preprocessor answers, so none of the loops can
turn forever.

* `Cursor.Over`, `Cursor.Before`       a cursor further on, and the text between;
* `Lexer.Account`                      the text that was stepped over, and the directives in it;
* `LexTurn`, `SkimTurn`, `DrainTurn`   the turns of the three loops;
* `reading_progresses`                 the turns move forward and end, and what a whole reading costs.
-/

namespace HeaderLex

/-! ## cursors in one text -/

/-- The cursor `d` stands after `text`, which follows the cursor `c`. -/
structure Cursor.Over (c : Cursor) (text : List Char) (d : Cursor) : Prop where
  rest : c.rest = text ++ d.rest
  before : d.before = text.reverse ++ c.before
  offset : d.position.offset = c.position.offset + Text.byteLength text

/-- The cursor `d` stands at least one byte after the cursor `c`, in the same text. -/
def Cursor.Before (c d : Cursor) : Prop := ∃ text, c.Over text d ∧ 0 < Text.byteLength text

namespace Cursor

variable {c d e : Cursor} {s t : List Char}

theorem Over.refl (c : Cursor) : c.Over [] c := ⟨rfl, rfl, rfl⟩

theorem Over.trans (h : c.Over s d) (k : d.Over t e) : c.Over (s ++ t) e where
  rest := by rw [h.rest, k.rest, List.append_assoc]
  before := by rw [k.before, h.before, List.reverse_append, List.append_assoc]
  offset := by rw [k.offset, h.offset, Text.byteLength_append, Nat.add_assoc]

theorem over_advance (c : Cursor) {text rest : List Char} (h : c.rest = text ++ rest) (lines : Nat) :
    c.Over text (c.advance text rest lines) :=
  ⟨h, rfl, rfl⟩

theorem Over.length (h : c.Over s d) : c.rest.length = s.length + d.rest.length := by
  rw [h.rest, List.length_append]

end Cursor

/-- A cursor with less text after it stands further on. -/
theorem Cursor.Over.strict {c d : Cursor} {s : List Char} (h : c.Over s d)
    (hlt : d.rest.length < c.rest.length) : c.Before d := by
  refine ⟨s, h, Nat.lt_of_lt_of_le ?_ (Text.length_le_byteLength s)⟩
  have := h.length
  omega

namespace Lexer

variable {lx lx' : Lexer} {c : Cursor} {n : Nat}

/-! ## what was stepped over -/

/-- The lexer has read on from the cursor `c`, and counts at most `n` directives and those that begin
with a `#` of the text between. -/
def Account (c : Cursor) (n : Nat) (lx : Lexer) : Prop :=
  ∃ text, c.Over text lx.cursor ∧ lx.metrics.directives ≤ n + text.count '#'

theorem Account.start (lx : Lexer) : lx.Account lx.cursor lx.metrics.directives :=
  ⟨[], .refl _, Nat.le_refl _⟩

/-- A move over a text in which as many directives begin as it counts. -/
theorem Account.move (h : lx.Account c n) (text : List Char) (hover : lx.cursor.Over text lx'.cursor)
    (hcount : lx'.metrics.directives ≤ lx.metrics.directives + text.count '#') :
    lx'.Account c n := by
  obtain ⟨s, hs, hn⟩ := h
  refine ⟨s ++ text, hs.trans hover, ?_⟩
  rw [List.count_append]
  omega

theorem directives_verdictAt (lx : Lexer) (unget : Position) (rest : List Char)
    (isIncluded : Bool) : (lx.verdictAt unget rest isIncluded).2.metrics.directives
      = lx.metrics.directives + 1 := by
  unfold verdictAt askPreprocessor
  split <;> rfl

/-- Every move of a look ahead steps over the text that follows, and every directive begins with a
symbol of its own. -/
theorem conserved_account (c : Cursor) (n : Nat) : Conserved (Account c n) where
  gap {lx} h := by
    obtain ⟨row, -, htext, hcursor⟩ := lx.skipGap_row
    refine h.move (rowText row) ?_ (Nat.le_add_right _ _)
    rw [hcursor]
    exact lx.cursor.over_advance htext _
  lexeme {lx} unget h := by
    cases ht : (lx.lexAt unget).1 with
    | error e =>
      rw [(lexAt_error ht).1]
      exact h
    | ok t =>
      obtain ⟨-, -, hs⟩ | ⟨a, cs, l, hr, hl, -, hs⟩ := lexAt_ok ht
      · rw [hs]
        exact h
      · rw [hs]
        refine h.move l.text ?_ (Nat.le_add_right _ _)
        exact lx.cursor.over_advance (hr.trans (Lexeme.scan_append hl).symm) _
  directive {lx} unget {rest} isIncluded h hd := by
    refine h.move ('#' :: DirectiveLine.taken rest) ?_ ?_
    · rw [cursor_verdictAt]
      apply lx.cursor.over_advance
      rw [(directiveAt?_eq_some.1 hd).1, List.cons_append, DirectiveLine.taken_append_left]
    · rw [directives_verdictAt, List.count_cons_self]
      omega
  line {lx} h := by
    unfold skipLine
    split
    · exact h
    · next a cs hr =>
      refine h.move (a :: cs.takeWhile (· != '\n')) ?_ (Nat.le_add_right _ _)
      apply lx.cursor.over_advance
      rw [hr, List.cons_append, List.takeWhile_append_dropWhile]
  regions _ _ h := h

/-! ## turns -/

/-- The search for the next token goes on after a directive. -/
def LexTurn (lx lx' : Lexer) : Prop := ∃ events, lx.lexStep = .inr (lx', events)

/-- Stepping over a region that began at `start` goes on. -/
def SkimTurn (start : Position) (x y : Skim) : Prop := x.step start = .inr y

/-- Reading a whole source goes on after a token. -/
def DrainTurn (lx lx' : Lexer) : Prop :=
  ∃ t, lx.peek.result = .ok t ∧ t.isEnd = false ∧ lx' = lx.peek.state.consumed t

/-- A search that goes on has handled a directive. -/
theorem lexTurn_directive (h : LexTurn lx lx') : ∃ rest, lx.ahead = some rest ∧
    lx' = (lx.skipGap.2.handleDirective lx.cursor.position rest).state := by
  obtain ⟨events, h⟩ := h
  unfold lexStep at h
  dsimp only at h
  split at h
  · cases h
  · split at h
    · next rest hd =>
      split at h
      · obtain ⟨rfl, -⟩ := Prod.mk.inj (Sum.inr.inj h)
        exact ⟨rest, hd, rfl⟩
      · cases h
    · split at h <;> cases h

theorem lexTurn_before (h : LexTurn lx lx') : lx.cursor.Before lx'.cursor := by
  have hless : lx'.unread < lx.unread := unread_lexStep h.choose_spec
  obtain ⟨rest, ha, rfl⟩ := lexTurn_directive h
  have hkeeps := conserved_account lx.cursor lx.metrics.directives
  obtain ⟨text, hover, -⟩ := hkeeps.handleDirective (hkeeps.gap (.start lx)) lx.cursor.position
    (Stable.directiveAt?_of_ahead ha)
  exact hover.strict hless

theorem skimTurn_before {start : Position} {x y : Skim} (h : SkimTurn start x y) :
    x.lexer.cursor.Before y.lexer.cursor := by
  have hkeeps := conserved_account x.lexer.cursor x.lexer.metrics.directives
  have hstep := hkeeps.step start (hkeeps.gap (.start x.lexer))
  rw [show x.step start = .inr y from h] at hstep
  obtain ⟨text, hover, -⟩ := hstep
  exact hover.strict (Skim.unread_step h)

theorem wellFounded_lexTurn : WellFounded fun lx' lx => LexTurn lx lx' :=
  Subrelation.wf (fun h => unread_lexStep h.choose_spec) (measure unread).wf

theorem wellFounded_skimTurn (start : Position) : WellFounded fun y x => SkimTurn start x y :=
  Subrelation.wf (fun h => Skim.unread_step h) (measure fun x : Skim => x.lexer.unread).wf

/-- A turn that reads the current token does not move the cursor; the current token is what is left
to do. -/
theorem wellFounded_drainTurn : WellFounded fun lx' lx => DrainTurn lx lx' := by
  refine Subrelation.wf (fun {lx' lx} h => ?_) (measure workLeft).wf
  obtain ⟨t, ht, hend, rfl⟩ := h
  exact workLeft_consumed ht hend

/-! ## tokens -/

theorem found_before {p : Peeked} (hok : lx.lexToken.result = .ok p)
    (hend : p.token.isEnd = false) : lx.cursor.Before lx.lexToken.state.cursor := by
  have hkeeps := conserved_account lx.cursor lx.metrics.directives
  obtain ⟨text, hover, -⟩ := hkeeps.lexToken (hkeeps.gap (.start lx))
  exact hover.strict (lexToken_progress hok hend)

/-- A token that was found stands after the place where its own look ahead began, which may be behind
directives. -/
theorem origin_before {p : Peeked} (hok : lx.lexToken.result = .ok p)
    (hend : p.token.isEnd = false) : p.origin.Before lx.lexToken.state.cursor := by
  induction hok using found_induction with
  | lexeme lx hok hg ha horigin hat hstate =>
    rw [horigin]
    exact found_before hok hend
  | directive lx rest hok hrec hg ha hd hstate ih =>
    rw [hstate]
    exact ih

/-- The end mark stands at the end of the text. -/
theorem rest_of_end {p : Peeked} (hok : lx.lexToken.result = .ok p) (hend : p.token.isEnd = true) :
    lx.lexToken.state.cursor.rest = [] := by
  induction hok using found_induction with
  | lexeme lx hok hg ha horigin hat hstate =>
    obtain ⟨hr, -, hs⟩ | ⟨a, cs, l, -, hl, ht, -⟩ := lexAt_ok hat
    · rw [hstate, hs]
      exact hr
    · rw [ht] at hend
      have hkind : l.kind.isEnd = true := hend
      rw [Lexeme.scan_kind hl] at hkind
      cases hkind
  | directive lx rest hok hrec hg ha hd hstate ih =>
    rw [hstate]
    exact ih

/-- A current token other than the end mark stands before the cursor, and its look ahead began
before it. -/
def Forward (c : Cursor) (current : Option Peeked) : Prop :=
  ∀ p, current = some p → p.token.isEnd = false → p.origin.Before c

theorem forward_apply (h : lx.Everywhere Forward) (op : Op) : (lx.apply op).state.Everywhere Forward := by
  refine h.found (fun _ p hp => by cases hp) ?_ op
  rintro lx p hok q ⟨⟩ hend
  exact origin_before hok hend

/-- A consumed token other than the end mark moves the cursor, from before its gap to after it. -/
theorem next_before (h : Forward lx.cursor lx.current) {t : Token} (hnext : lx.next.result = .ok t)
    (hend : t.isEnd = false) : lx.unget.cursor.Before lx.next.state.cursor := by
  cases hr : lx.peek.result with
  | error f =>
    rw [next_of_error hr] at hnext
    cases hnext
  | ok u =>
    rw [next_of_ok hr] at hnext ⊢
    obtain rfl : u = t := Except.ok.inj hnext
    show lx.unget.cursor.Before lx.peek.state.cursor
    cases hc : lx.current with
    | some p =>
      rw [peek_of_current hc] at hr ⊢
      obtain rfl : p.token = u := Except.ok.inj hr
      unfold unget
      rw [hc]
      exact h p hc hend
    | none =>
      obtain ⟨p, hp, rfl, hstate⟩ := peek_fresh hc hr
      unfold unget
      rw [hc, hstate]
      exact found_before hp hend

/-! ## whole sources -/

theorem Account.peek (h : lx.Account c n) (hc : lx.current = none) : lx.peek.state.Account c n := by
  have htoken : lx.lexToken.state.Account c n :=
    (conserved_account c n).lexToken ((conserved_account c n).gap h)
  cases hr : lx.lexToken.result with
  | ok p =>
    rw [peek_of_lexToken hc hr]
    exact htoken
  | error f =>
    rw [peek_of_error hc hr]
    exact htoken

theorem directives_countToken (m : Metrics) (t : Token) (p : LexicalPreferences) :
    (m.countToken t p).directives = m.directives := by
  have hclass : ∀ m : Metrics, (m.countClass t p).directives = m.directives := by
    intro m
    unfold Metrics.countClass
    split <;> rfl
  unfold Metrics.countToken
  dsimp only
  split <;> exact hclass _

theorem Account.consumed (h : lx.Account c n) (t : Token) : (lx.consumed t).Account c n := by
  obtain ⟨text, hover, hcount⟩ := h
  exact ⟨text, hover, (directives_countToken lx.metrics t lx.preferences).symm ▸ hcount⟩

/-- Reading to the end steps over the text under the cursor, with or without success. -/
theorem Account.drain (h : lx.Account c n) (hc : lx.current = none) : lx.drain.state.Account c n := by
  fun_induction Lexer.drain lx with
  | case1 lx o f hf => exact h.peek hc
  | case2 lx o t ht hend => exact (h.peek hc).consumed t
  | case3 lx o t ht hend r ih => exact ih ((h.peek hc).consumed t) rfl

/-- A reading that succeeds ends at the end of the text, and every token of it took a character. -/
theorem drain_tokens {tokens : List Token} (hc : lx.current = none)
    (h : lx.drain.result = .ok tokens) :
    lx.drain.state.cursor.rest = [] ∧ tokens.length ≤ lx.unread := by
  induction tokens generalizing lx with
  | nil =>
    obtain ⟨t, ht, ⟨hend, -⟩ | ⟨ts, -, -, hts⟩⟩ := drain_ok h
    · obtain ⟨p, hp, rfl, hstate⟩ := peek_fresh hc ht
      rw [drain_state_of_end ht hend, hstate]
      exact ⟨rest_of_end hp hend, Nat.zero_le _⟩
    · cases hts
  | cons t ts ih =>
    obtain ⟨u, hu, ⟨-, hnil⟩ | ⟨us, hend, hrec, hts⟩⟩ := drain_ok h
    · cases hnil
    · obtain ⟨rfl, rfl⟩ := List.cons.inj hts
      obtain ⟨hrest, hlength⟩ := ih rfl hrec
      refine ⟨drain_state_next hu hend ▸ hrest, ?_⟩
      obtain ⟨p, hp, rfl, hstate⟩ := peek_fresh hc hu
      have hless : lx.lexToken.state.unread < lx.unread := lexToken_progress hp hend
      rw [hstate] at hlength
      exact Nat.lt_of_le_of_lt hlength hless

theorem crashed_drain (lx : Lexer) : lx.drain.crashed = false := by
  fun_induction drain lx with
  | case1 lx o f hf =>
    have hlook : o.crashed = false := crashed_peek lx
    unfold Outcome.crashed at hlook
    rwa [hf] at hlook
  | case2 lx o t ht hend => rfl
  | case3 lx o t ht hend r ih =>
    unfold Outcome.crashed at ih ⊢
    dsimp only
    cases hr : r.result with
    | ok ts => rfl
    | error f => rwa [hr] at ih

theorem crashed_tokenizeAll (lx : Lexer) : lx.tokenizeAll.crashed = false := crashed_drain lx

/-- Lexing makes progress and ends, for every source and all answers of a preprocessor. -/
theorem reading_progresses (source : String) (preferences : LexicalPreferences)
    (p : Option Preprocessor) :
    (∀ lx lx', LexTurn lx lx' → lx.cursor.Before lx'.cursor) ∧
    (∀ start x y, SkimTurn start x y → x.lexer.cursor.Before y.lexer.cursor) ∧
    (WellFounded fun lx' lx => LexTurn lx lx') ∧
    (∀ start, WellFounded fun y x => SkimTurn start x y) ∧
    (WellFounded fun lx' lx => DrainTurn lx lx') ∧
    let fresh := (ofSource source preferences).withPreprocessor p
    (∀ ops t, (fresh.run ops).next.result = .ok t → t.isEnd = false →
      (fresh.run ops).unget.cursor.Before (fresh.run ops).next.state.cursor) ∧
    (∀ ops, (fresh.run ops).peek.crashed = false ∧ (fresh.run ops).tokenizeAll.crashed = false) ∧
    fresh.tokenizeAll.state.metrics.directives ≤ source.toList.count '#' ∧
    ∀ tokens, fresh.tokenizeAll.result = .ok tokens →
      tokens.length ≤ Text.byteLength source.toList ∧
      fresh.tokenizeAll.state.cursor.rest = [] ∧
      fresh.tokenizeAll.state.cursor.position.offset = Text.byteLength source.toList := by
  refine ⟨fun _ _ => lexTurn_before, fun _ _ _ => skimTurn_before, wellFounded_lexTurn,
    wellFounded_skimTurn, wellFounded_drainTurn, ?_⟩
  intro fresh
  have hfresh : fresh.Everywhere Forward :=
    ⟨fun _ hp => (by cases hp), fun _ hs => absurd hs List.not_mem_nil⟩
  have hforward := @run_invariant (Everywhere Forward) (fun _ op h => forward_apply h op) _ hfresh
  -- the text that was stepped over begins the source
  obtain ⟨text, hover, hcount⟩ := (Account.start fresh).drain rfl
  have hsource : source.toList = text ++ fresh.drain.state.cursor.rest := hover.rest
  refine ⟨fun ops t hnext hend => next_before (hforward ops).place hnext hend,
    fun ops => ⟨crashed_peek _, crashed_tokenizeAll _⟩, ?_, fun tokens h => ?_⟩
  · have hzero : fresh.metrics.directives = 0 := rfl
    have hseen : fresh.tokenizeAll.state.metrics.directives
        ≤ fresh.metrics.directives + text.count '#' := hcount
    rw [hsource, List.count_append]
    omega
  · obtain ⟨hrest, hlength⟩ := drain_tokens rfl h
    refine ⟨Nat.le_trans hlength (Text.length_le_byteLength _), hrest, ?_⟩
    rw [hrest, List.append_nil] at hsource
    rw [hsource]
    exact hover.offset.trans (Nat.zero_add _)

/-- A region with an apostrophe in its prose is left out between two tokens. -/
theorem reading_progresses_sample :
    let script := Script.ofAnswers [.ok ⟨.silent, true⟩, .ok ⟨.included, false⟩]
    let source := "a\n#if X\ndon't\n#endif\nü"
    let fresh := (ofSource source ⟨true, false, false, true⟩).withPreprocessor
      (some (.scripted script))
    let first : Token := ⟨.identifier, "a", ⟨0, 1⟩, ⟨0, 1⟩⟩
    let last : Token := ⟨.symbol, "ü", ⟨21, 5⟩, ⟨21, 5⟩⟩
    fresh.tokenizeAll.result = .ok [first, last] ∧ [first, last].length ≤ 23 ∧
    fresh.tokenizeAll.state.cursor.position.offset = 23 ∧
    fresh.tokenizeAll.state.metrics.directives ≤ 2 ∧
    (fresh.run [.next]).unget.cursor.Before (fresh.run [.next]).next.state.cursor ∧
    ∃ lx', LexTurn (fresh.run [.next]) lx' ∧ (fresh.run [.next]).cursor.Before lx'.cursor := by
  intro script source fresh first last
  obtain ⟨hturn, -, -, -, -, hnext, -, hdirectives, hall⟩ :=
    reading_progresses source ⟨true, false, false, true⟩ (some (.scripted script))
  have hresult : fresh.tokenizeAll.result = .ok [first, last] :=
    ok_of_toOption (by decide +kernel)
  have hlast : (fresh.run [.next]).next.result = .ok last := ok_of_toOption (by decide +kernel)
  have hgoes : (fresh.run [.next]).lexStep.isRight = true := by decide +kernel
  obtain ⟨⟨lx', events⟩, hstep⟩ := Sum.isRight_iff.1 hgoes
  have hsize : Text.byteLength source.toList = 23 := by decide +kernel
  have hmarks : source.toList.count '#' = 2 := by decide +kernel
  exact ⟨hresult, hsize ▸ (hall _ hresult).1, hsize ▸ (hall _ hresult).2.2, hmarks ▸ hdirectives,
    hnext [.next] last hlast (by decide), lx', ⟨events, hstep⟩, hturn _ _ ⟨events, hstep⟩⟩

end Lexer

end HeaderLex
