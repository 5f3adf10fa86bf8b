import HeaderLex.Proofs.Locality
import HeaderLex.Proofs.Lossless
import HeaderLex.Proofs.Reading

/-!
# Code between directives

A text that is read without a preprocessor, and that has no `#` at the beginning of a line, is read in
the same way wherever whole lines of it stand in a source with directives.

* `Crosses`              from one place of a text to another over gap pieces and lexemes only;
* `Lexer.Plain.crosses`  reading without a preprocessor crosses the whole text;
* `Crosses.embed`        lines are crossed in the same way inside a larger text;
* `Crosses.reads`        in an included region their lexemes are delivered, else they are dropped.
-/

namespace HeaderLex

/-! ## the judgment -/

/-- The way from one place of a text to a later one leads over gap pieces and lexemes, and never to
a directive.  The texts before both places are given backwards. -/
inductive Crosses : List Char → List Char → List (TokenKind × String) → List Char → List Char → Prop
  | done {before cs : List Char} : Crosses before cs [] before cs
  | piece {before cs rest after tail : List Char} {p : GapPiece} {ts : List (TokenKind × String)} :
      GapPiece.next? cs = .ok (some (p, rest)) →
      Crosses (p.text.reverse ++ before) rest ts after tail → Crosses before cs ts after tail
  | token {before cs after tail : List Char} {a : Char} {l : Lexeme}
      {ts : List (TokenKind × String)} :
      GapPiece.next? (a :: cs) = .ok none → ¬ (a = '#' ∧ lastLineBlank before = true) →
      Lexeme.scan a cs = .ok l → Crosses (l.text.reverse ++ before) l.rest ts after tail →
      Crosses before (a :: cs) (l.content :: ts) after tail

theorem Crosses.row {before rest after tail : List Char} {row : List GapPiece}
    {ts : List (TokenKind × String)} (hrow : IsRow row rest)
    (h : Crosses ((rowText row).reverse ++ before) rest ts after tail) :
    Crosses before (rowText row ++ rest) ts after tail := by
  induction row generalizing before with
  | nil => exact h
  | cons p ps ih =>
    show Crosses before ((p.text ++ rowText ps) ++ rest) ts after tail
    rw [List.append_assoc]
    refine .piece (GapPiece.next?_text hrow.1) (ih hrow.2 ?_)
    rw [← List.append_assoc, ← List.reverse_append]
    exact h

theorem Crosses.text {before cs after tail : List Char} {ts : List (TokenKind × String)}
    (h : Crosses before cs ts after tail) : before.reverse ++ cs = after.reverse ++ tail := by
  induction h with
  | done => rfl
  | piece hn _ ih =>
    rw [← ih, GapPiece.next?_eq hn, List.reverse_append, List.reverse_reverse, List.append_assoc]
  | token _ _ hl _ ih =>
    rw [← ih, ← Lexeme.scan_append hl, List.reverse_append, List.reverse_reverse, List.append_assoc]

/-! ## reading without a preprocessor -/

namespace Lexer

/-- A token is the symbol of a directive, if there were a preprocessor. -/
def hashFirst (lx : Lexer) (t : Token) : Bool := t.isMark '#' && lx.isFirstInLine t

theorem scan_hash (cs : List Char) : Lexeme.scan '#' cs = .ok ⟨.symbol, ['#'], cs, 0⟩ := by
  show Except.ok (Lexeme.symbol '#' cs) = _
  cases cs with
  | nil => rfl
  | cons d cs =>
    have hhead : ∀ s ∈ Keyword.pairSymbols, ¬ s.toList.head? = some '#' := by decide
    have hpair := @Lexeme.not_isPairSymbol (·.head? = some '#') hhead ['#', d] rfl
    show Except.ok (if Keyword.isPairSymbol (String.ofList ['#', d]) then _ else _) = _
    rw [hpair]
    rfl

theorem isFirstInLine_of_offset {lx : Lexer} {t : Token} {before rest : List Char}
    (hsource : before.reverse ++ rest = lx.source)
    (hoffset : t.start.offset = Text.byteLength before) :
    lx.isFirstInLine t = lastLineBlank before := by
  have hlen : Text.byteLength before ≤ Text.byteLength lx.source := by
    rw [← hsource, Text.byteLength_append, Text.byteLength_reverse]
    omega
  have hcut : Text.cutAt? (Text.byteLength before) lx.source = some (before.reverse, rest) := by
    rw [← hsource, ← Text.byteLength_reverse]
    exact Text.cutAt?_append _ _
  unfold isFirstInLine
  rw [hoffset, Nat.min_eq_left hlen, hcut]
  show lastLineBlank before.reverse.reverse = _
  rw [List.reverse_reverse]

/-- Reading without a preprocessor crosses the text under the cursor. -/
theorem Plain.crosses {lx lx₀ : Lexer} (h : lx.Plain lx₀.source) {tokens : List Token}
    (hd : lx.drain.result = .ok tokens) (hhash : ∀ t ∈ tokens, lx₀.hashFirst t = false) :
    ∃ after, Crosses lx.cursor.before lx.cursor.rest (tokens.map Token.content) after [] := by
  induction tokens generalizing lx with
  | nil =>
    obtain ⟨row, hrow, htext⟩ := h.drain_nil hd
    rw [htext, ← List.append_nil (rowText row)]
    exact ⟨_, Crosses.row hrow .done⟩
  | cons t ts ih =>
    obtain ⟨row, a, cs, l, lx', hrow, htext, hnone, hl, hin, htok, hplain, hrec, hbefore, hrest⟩ :=
      h.drain_cons hd
    obtain ⟨after, htail⟩ := ih hplain hrec fun u hu => hhash u (List.mem_cons_of_mem _ hu)
    rw [hbefore, hrest] at htail
    have hcontent : t.content = l.content := by
      rw [htok]
      rfl
    have hdir : ¬ (a = '#' ∧ lastLineBlank ((rowText row).reverse ++ lx.cursor.before) = true) := by
      rintro ⟨rfl, hblank⟩
      rw [scan_hash] at hl
      obtain rfl := Except.ok.inj hl
      have hfirst : lx₀.isFirstInLine t = true := by
        rw [isFirstInLine_of_offset hin.text (by rw [htok]; exact hin.offset)]
        exact hblank
      have hmark : t.isMark '#' = true := by
        rw [htok]
        rfl
      have hno := hhash t List.mem_cons_self
      rw [hashFirst, hmark, hfirst] at hno
      cases hno
    refine ⟨after, ?_⟩
    rw [htext, List.map_cons, hcontent]
    exact Crosses.row hrow (.token hnone hdir hl htail)

end Lexer

/-! ## lines inside a larger text -/

/-- The place is at the beginning of a line. -/
def LineStart (before : List Char) : Prop := before = [] ∨ ∃ b, before = '\n' :: b

/-- The text is made of whole lines. -/
def WholeLines (cs : List Char) : Prop := cs = [] ∨ ∃ ds, cs = ds ++ ['\n']

theorem lastLineBlank_append {outer : List Char} (h : LineStart outer) (before : List Char) :
    lastLineBlank (before ++ outer) = lastLineBlank before := by
  unfold lastLineBlank
  rcases h with rfl | ⟨b, rfl⟩
  · rw [List.append_nil]
  · rw [takeWhile_line (by decide)]

theorem LineStart.of_wholeLines {cs outer : List Char} (hcs : WholeLines cs)
    (h : LineStart outer) : LineStart (cs.reverse ++ outer) := by
  rcases hcs with rfl | ⟨ds, rfl⟩
  · exact h
  · refine .inr ⟨ds.reverse ++ outer, ?_⟩
    rw [List.reverse_append]
    rfl

/-- Whole lines are crossed in the same way inside a larger text. -/
theorem Crosses.embed {before cs after : List Char} {ts : List (TokenKind × String)}
    (h : Crosses before cs ts after []) (hcs : WholeLines cs) {outer : List Char}
    (houter : LineStart outer) (tail : List Char) :
    Crosses (before ++ outer) (cs ++ tail) ts (after ++ outer) tail := by
  generalize hend : ([] : List Char) = last at h
  induction h with
  | done =>
    subst hend
    exact .done
  | @piece before cs rest after _ p ts hn _ ih =>
    subst hend
    rw [List.append_assoc] at ih
    rcases hcs with rfl | ⟨ds, rfl⟩
    · cases hn
    · rw [List.append_assoc]
      rcases GapPiece.next?_line hn with ⟨rfl, hnext⟩ | ⟨r, rfl, hnext⟩
      · exact .piece (hnext tail) (ih (.inl rfl) rfl)
      · refine .piece (hnext tail) ?_
        have := ih (.inr ⟨r, rfl⟩) rfl
        rwa [List.append_assoc r] at this
  | @token before cs after _ a l ts hn hdir hl _ ih =>
    subst hend
    rw [List.append_assoc] at ih
    rcases hcs with hnil | ⟨ds, hds⟩
    · cases hnil
    · -- a lexeme is no line feed, so the line feed at the end stands behind its first character
      obtain ⟨rfl, rfl⟩ | ⟨ds', rfl, rfl⟩ : (a = '\n' ∧ cs = []) ∨ ∃ ds', ds = a :: ds' ∧
          cs = ds' ++ ['\n'] := by
        cases ds with
        | nil => exact .inl ⟨(List.cons.inj hds).1, (List.cons.inj hds).2⟩
        | cons d ds' =>
          obtain ⟨rfl, h⟩ := List.cons.inj hds
          exact .inr ⟨ds', rfl, h⟩
      · cases hn
      · obtain ⟨r, hr, hscan⟩ := Lexeme.scan_line hl
        have hrest := ih (.inr ⟨r, hr⟩) rfl
        rw [hr, List.append_assoc] at hrest
        have hdir' : ¬ (a = '#' ∧ lastLineBlank (before ++ outer) = true) := by
          rw [lastLineBlank_append houter]
          exact hdir
        rw [List.cons_append, List.append_assoc]
        exact @Crosses.token _ _ _ _ a { l with rest := r ++ '\n' :: tail } ts
          (GapPiece.next?_line_none hn tail) hdir' (hscan tail) hrest

/-! ## code under a region -/

namespace SerializeState

/-- No serialization function was begun beyond its first word. -/
def Harmless (s : SerializeState) : Prop := s = start ∨ s = sawVoid

end SerializeState

/-- What is done with a text fits the region that it stands in. -/
def Mode.Fits : Mode → Region → Prop
  | reading, region => region = .included
  | skipping scan seen, region =>
    region = (if scan then .scanned else .silent) ∧ seen.Harmless

theorem Mode.Fits.turn {mode : Mode} {region : Region} (h : mode.Fits region) (next : Region) :
    (mode.turn next).Fits next := by
  cases mode with
  | reading => cases next <;> simp [Mode.turn, Fits, SerializeState.Harmless]
  | skipping scan seen =>
    obtain ⟨-, hseen⟩ := h
    cases next with
    | included => rfl
    | scanned =>
      refine ⟨rfl, ?_⟩
      cases scan with
      | true => exact hseen
      | false => exact .inl rfl
    | silent => exact ⟨rfl, hseen⟩

/-- A token that may stand in a region that is searched for illegal contents, whatever was seen
before it: neither a macro name nor the name of a serialization function. -/
def IsClean (t : TokenKind × String) : Prop :=
  t.1 = .identifier → Keyword.isReflectionMacro t.2 = false ∧ t.2 ≠ "Serialize"

instance (t : TokenKind × String) : Decidable (IsClean t) :=
  inferInstanceAs (Decidable (_ → _ ∧ _))

theorem SerializeState.Harmless.check {seen : SerializeState} (h : seen.Harmless) {t : Token}
    (hclean : IsClean t.content) :
    seen.check t = (.ok (), if t.isWord "void" then sawVoid else start) := by
  have hname : (t.isIdentifier && Keyword.isReflectionMacro t.value) = false := by
    rw [Bool.and_eq_false_imp]
    intro hid
    exact (hclean (beq_iff_eq.1 hid)).1
  have hserialize : t.isWord "Serialize" = false := by
    unfold Token.isWord
    rw [Bool.and_eq_false_imp]
    intro hid
    exact beq_false_of_ne (hclean (beq_iff_eq.1 hid)).2
  unfold SerializeState.check
  rw [hname]
  rcases h with rfl | rfl
  · cases hv : t.isWord "void" <;> simp [move, hv]
  · simp [move, hserialize]

/-- A clean lexeme passes the search for illegal contents. -/
theorem SerializeState.Harmless.passes {scan : Bool} {seen : SerializeState} (h : seen.Harmless)
    {l : Lexeme} (hclean : scan = true → IsClean l.content) :
    ∃ seen', seen'.Harmless ∧ Passes scan seen l seen' := by
  cases scan with
  | false => exact ⟨seen, h, rfl⟩
  | true =>
    refine ⟨if l.kind == .identifier && String.ofList l.text == "void" then sawVoid else start, ?_, ?_⟩
    · split
      · exact .inr rfl
      · exact .inl rfl
    · intro t ht
      have hkind : t.kind = l.kind := congrArg Prod.fst ht
      have hvalue : t.value = String.ofList l.text := congrArg Prod.snd ht
      rw [h.check (by rw [ht]; exact hclean rfl), Token.isWord, Token.isIdentifier, hkind, hvalue]

/-- What is delivered of code that stands in a region. -/
def Region.keeps (region : Region) (ts : List (TokenKind × String)) : List (TokenKind × String) :=
  if region.isIncluded then ts else []

/-- Code is delivered or dropped as its region says, and reading goes on after it. -/
theorem Crosses.reads {c : Conditional} {stack : List Frame} {region : Region}
    {before cs after tail : List Char} {ts us : List (TokenKind × String)}
    (h : Crosses before cs ts after tail) (hclean : region = .scanned → ∀ t ∈ ts, IsClean t)
    (hrest : ∀ mode : Mode, mode.Fits region → Reads c mode stack after tail us) {mode : Mode}
    (hfit : mode.Fits region) : Reads c mode stack before cs (region.keeps ts ++ us) := by
  induction h generalizing mode with
  | done =>
    have hnil : region.keeps [] = [] := by
      unfold Region.keeps
      split <;> rfl
    rw [hnil]
    exact hrest mode hfit
  | piece hn _ ih => exact .piece hn (ih hclean hrest hfit)
  | @token before cs after tail a l ts hn hdir hl _ ih =>
    have hclean' : region = .scanned → ∀ t ∈ ts, IsClean t :=
      fun hr t ht => hclean hr t (List.mem_cons_of_mem _ ht)
    cases mode with
    | reading =>
      have hr : region = .included := hfit
      subst hr
      exact .token hn hdir hl (ih hclean' hrest rfl)
    | skipping scan seen =>
      obtain ⟨hr, hseen⟩ := hfit
      have hpass : scan = true → IsClean l.content := by
        intro hs
        rw [hs] at hr
        exact hclean hr _ List.mem_cons_self
      obtain ⟨seen', hseen', hpasses⟩ := hseen.passes hpass
      have hkeeps : region.keeps (l.content :: ts) = region.keeps ts := by
        rw [hr]
        cases scan <;> rfl
      rw [hkeeps]
      exact .skipped hn hdir hl hpasses (ih hclean' hrest ⟨hr, hseen'⟩)

end HeaderLex
