import HeaderLex.Proofs.Lossless
import HeaderLex.Proofs.Reading

/-!
# Plain reading as a judgment on texts

Without a preprocessor the tokens of a source depend on its text alone: the text is cut into gaps
and lexemes, in turn.  `Yields` says so, and counts the bytes on the way.

* `Located`              what is seen of a token: its kind, its text and where it starts;
* `Yields`              a text that begins at some byte yields these tokens, up to its end;
* `Yields.drain`        a lexer without a preprocessor reads what its text yields;
* `tokenize_iff_yields` so a source is read to its end exactly if it yields tokens;
* `Yields.shift`        what a text yields does not depend on where it begins.
-/

namespace HeaderLex

/-- A token without its line and without the place where the look ahead began. -/
structure Located where
  kind : TokenKind
  value : String
  /-- First byte of the text. -/
  offset : Nat
deriving DecidableEq, Repr

namespace Located

def content (t : Located) : TokenKind × String := (t.kind, t.value)

/-- The token in a text that begins `bytes` bytes later. -/
def shift (bytes : Nat) (t : Located) : Located := { t with offset := t.offset + bytes }

end Located

def Token.located (t : Token) : Located := ⟨t.kind, t.value, t.start.offset⟩

def Lexeme.located (l : Lexeme) (offset : Nat) : Located := ⟨l.kind, String.ofList l.text, offset⟩

/-! ## the judgment -/

/-- The text, which begins at some byte, yields tokens up to its end. -/
inductive Yields : Nat → List Char → List Located → Prop
  | done {n : Nat} {gap : List Char} : IsGap gap [] → Yields n gap []
  | token {n : Nat} {gap cs : List Char} {a : Char} {l : Lexeme} {ts : List Located} :
      IsGap gap (a :: cs) → GapPiece.next? (a :: cs) = .ok none → Lexeme.scan a cs = .ok l →
      Yields (n + Text.byteLength gap + Text.byteLength l.text) l.rest ts →
      Yields n (gap ++ a :: cs) (l.located (n + Text.byteLength gap) :: ts)

theorem Yields.shift {n : Nat} {cs : List Char} {ts : List Located} (h : Yields n cs ts)
    (bytes : Nat) : Yields (n + bytes) cs (ts.map (Located.shift bytes)) := by
  induction h with
  | done hgap => exact .done hgap
  | @token n gap cs a l ts hgap hnone hscan _ ih =>
    have hplace : n + Text.byteLength gap + bytes = n + bytes + Text.byteLength gap :=
      Nat.add_right_comm ..
    have hafter : n + Text.byteLength gap + Text.byteLength l.text + bytes
        = n + bytes + Text.byteLength gap + Text.byteLength l.text := by omega
    rw [hafter] at ih
    rw [List.map_cons]
    show Yields _ _ (l.located (n + Text.byteLength gap + bytes) :: _)
    rw [hplace]
    exact .token hgap hnone hscan ih

/-! ## skipping a given row -/

/-- A row of pieces is skipped as a whole where no piece follows it. -/
theorem Margin.skip_of_row {m : Margin} {row : List GapPiece} {rest : List Char}
    (hrow : IsRow row rest) (htext : m.cursor.rest = rowText row ++ rest)
    (hnone : GapPiece.next? rest = .ok none) :
    m.skip.1 = none ∧ m.skip.2.cursor = m.cursor.advance (rowText row) rest (rowLines row) := by
  induction row generalizing m with
  | nil =>
    replace htext : m.cursor.rest = rest := htext
    subst htext
    rw [skip_none hnone]
    refine ⟨rfl, ?_⟩
    dsimp only
    split <;> rfl
  | cons p ps ih =>
    have hnext : GapPiece.next? m.cursor.rest = .ok (some (p, rowText ps ++ rest)) := by
      rw [htext]
      show GapPiece.next? ((p.text ++ rowText ps) ++ rest) = _
      rw [List.append_assoc]
      exact GapPiece.next?_text hrow.1
    obtain ⟨hended, hcursor⟩ := @ih (m.pass p (rowText ps ++ rest)) hrow.2 rfl
    rw [skip_piece hnext]
    refine ⟨hended, hcursor.trans ?_⟩
    exact Cursor.advance_advance ..

namespace Lexer

variable {lx : Lexer}

theorem skipGap_of_row {row : List GapPiece} {rest : List Char} (hrow : IsRow row rest)
    (htext : lx.cursor.rest = rowText row ++ rest) (hnone : GapPiece.next? rest = .ok none) :
    lx.skipGap.1 = none ∧
      lx.skipGap.2.cursor = lx.cursor.advance (rowText row) rest (rowLines row) := by
  obtain ⟨hended, hcursor⟩ :=
    @Margin.skip_of_row ⟨lx.cursor, lx.comments, lx.metrics.comments⟩ row rest hrow htext hnone
  refine ⟨?_, hcursor⟩
  show Option.map _ (Margin.skip _).1 = none
  rw [hended]
  rfl

/-- Where no directive can begin behind a row of pieces, a look does not meet one. -/
theorem ahead_of_row {row : List GapPiece} {rest : List Char} (hrow : IsRow row rest)
    (htext : lx.cursor.rest = rowText row ++ rest) (hnone : GapPiece.next? rest = .ok none)
    (hhead : rest.head? ≠ some '#') : lx.ahead = none := by
  obtain ⟨-, hcursor⟩ := skipGap_of_row hrow htext hnone
  unfold ahead
  split
  · rw [hcursor]
    refine Option.eq_none_iff_forall_ne_some.2 fun cs hcs => hhead ?_
    have hrest : rest = '#' :: cs := (directiveAt?_eq_some.1 hcs).1
    rw [hrest]
    rfl
  · rfl

/-! ## reading without directives -/

/-- Behind a row of pieces a look finds the lexeme there. -/
theorem peek_of_row {row : List GapPiece} {a : Char} {cs : List Char} {l : Lexeme}
    (ha : lx.ahead = none) (hc : lx.current = none) (hrow : IsRow row (a :: cs))
    (hrest : lx.cursor.rest = rowText row ++ a :: cs) (hnone : GapPiece.next? (a :: cs) = .ok none)
    (hscan : Lexeme.scan a cs = .ok l) :
    let place := lx.cursor.advance (rowText row) (a :: cs) (rowLines row)
    let t : Token := ⟨l.kind, String.ofList l.text, place.position, lx.cursor.position⟩
    lx.peek.result = .ok t ∧ lx.peek.state = { lx.skipGap.2 with
      cursor := place.advance l.text l.rest l.lines, current := some ⟨t, lx.cursor⟩ } := by
  intro place t
  obtain ⟨hended, hcursor⟩ := skipGap_of_row hrow hrest hnone
  have hat : lx.skipGap.2.lexAt lx.cursor.position
      = (.ok t, { lx.skipGap.2 with cursor := place.advance l.text l.rest l.lines }) := by
    unfold lexAt
    rw [hcursor]
    simp only [Cursor.rest_advance, hscan]
    rfl
  obtain ⟨hpeek, hstate⟩ := peek_lexeme hc hended ha (congrArg Prod.fst hat)
  rw [hat] at hstate
  exact ⟨hpeek, hstate⟩

/-- Behind a row of pieces a look fails where there is no lexeme. -/
theorem peek_fails_of_row {row : List GapPiece} {a : Char} {cs : List Char} {cause : Cause}
    (ha : lx.ahead = none) (hc : lx.current = none) (hrow : IsRow row (a :: cs))
    (hrest : lx.cursor.rest = rowText row ++ a :: cs) (hnone : GapPiece.next? (a :: cs) = .ok none)
    (hscan : Lexeme.scan a cs = .error cause) :
    lx.peek.result = .error (.source ⟨cause,
      (lx.cursor.advance (rowText row) (a :: cs) (rowLines row)).position⟩) := by
  obtain ⟨hended, hcursor⟩ := skipGap_of_row hrow hrest hnone
  have hat : (lx.skipGap.2.lexAt lx.cursor.position).1
      = .error ⟨cause, (lx.cursor.advance (rowText row) (a :: cs) (rowLines row)).position⟩ := by
    unfold lexAt
    rw [hcursor]
    simp only [Cursor.rest_advance, hscan]
  have htoken := lexToken_lexeme_error hended ha hat
  rw [peek_of_error hc (congrArg Outcome.result htoken)]

/-- A row of pieces up to the end of the source has no tokens. -/
theorem drain_of_row {row : List GapPiece} (hc : lx.current = none) (hrow : IsRow row [])
    (hrest : lx.cursor.rest = rowText row ++ []) : lx.drain.result = .ok [] := by
  obtain ⟨hended, hcursor⟩ := skipGap_of_row hrow hrest rfl
  have hat : (lx.skipGap.2.lexAt lx.cursor.position).1
      = .ok ⟨.endOfFile, "", lx.skipGap.2.cursor.position, lx.cursor.position⟩ := by
    unfold lexAt
    rw [hcursor]
    rfl
  have ha : lx.ahead = none := ahead_of_row hrow hrest rfl (Option.some_ne_none _).symm
  obtain ⟨hpeek, -⟩ := peek_lexeme hc hended ha hat
  exact drain_of_end hpeek rfl

/-- A source that is one lexeme is read as one token, with or without a preprocessor. -/
theorem tokenizeAll_of_lexeme {source : String} {preferences : LexicalPreferences}
    {p : Option Preprocessor} {a : Char} {cs : List Char} {l : Lexeme}
    (htext : source.toList = a :: cs) (hhead : a ≠ '#') (hnone : GapPiece.next? (a :: cs) = .ok none)
    (hscan : Lexeme.scan a cs = .ok l) (hall : l.rest = []) :
    ((ofSource source preferences).withPreprocessor p).tokenizeAll.result
      = .ok [⟨l.kind, String.ofList l.text, .start, .start⟩] := by
  let lx := (ofSource source preferences).withPreprocessor p
  have ha : lx.ahead = none :=
    @ahead_of_row lx [] _ trivial htext hnone fun h => hhead (Option.some.inj h)
  obtain ⟨hpeek, hstate⟩ := @peek_of_row lx [] _ _ _ ha rfl trivial htext hnone hscan
  refine drain_of_token hpeek (Lexeme.scan_kind hscan) (@drain_of_row _ [] rfl trivial ?_)
  show lx.peek.state.cursor.rest = []
  rw [hstate]
  exact hall

/-- A source that begins with no lexeme is refused. -/
theorem tokenizeAll_of_error {source : String} {preferences : LexicalPreferences}
    {p : Option Preprocessor} {a : Char} {cs : List Char} {cause : Cause}
    (htext : source.toList = a :: cs) (hhead : a ≠ '#') (hnone : GapPiece.next? (a :: cs) = .ok none)
    (hscan : Lexeme.scan a cs = .error cause) :
    ((ofSource source preferences).withPreprocessor p).tokenizeAll.result
      = .error (.source ⟨cause, .start⟩) := by
  let lx := (ofSource source preferences).withPreprocessor p
  have ha : lx.ahead = none :=
    @ahead_of_row lx [] _ trivial htext hnone fun h => hhead (Option.some.inj h)
  exact drain_of_error (@peek_fails_of_row lx [] _ _ _ ha rfl trivial htext hnone hscan)

/-- The tokens that are read are those that the text under the cursor yields. -/
theorem Plain.yields {source : List Char} (h : lx.Plain source) {tokens : List Token}
    (hd : lx.drain.result = .ok tokens) :
    Yields lx.cursor.position.offset lx.cursor.rest (tokens.map Token.located) := by
  induction tokens generalizing lx with
  | nil =>
    obtain ⟨row, hrow, htext⟩ := h.drain_nil hd
    rw [htext]
    exact .done ⟨row, rfl, hrow⟩
  | cons t ts ih =>
    obtain ⟨row, a, cs, l, lx', hrow, htext, hnone, hl, hin, htok, hplain, hrec, hbefore, hrest⟩ :=
      h.drain_cons hd
    have htail := ih hplain hrec
    have hoffset : lx'.cursor.position.offset
        = lx.cursor.position.offset + Text.byteLength (rowText row) + Text.byteLength l.text := by
      rw [hplain.within.offset, h.within.offset, hbefore]
      simp only [Text.byteLength_append, Text.byteLength_reverse]
      omega
    rw [hoffset, hrest] at htail
    rw [htext, List.map_cons, htok]
    exact .token ⟨row, rfl, hrow⟩ hnone hl htail

end Lexer

/-- What the text under the cursor yields is read. -/
theorem Yields.drain {n : Nat} {cs : List Char} {ts : List Located} (h : Yields n cs ts)
    {lx : Lexer} (hp : lx.preprocessor = none) (hc : lx.current = none) (hrest : lx.cursor.rest = cs)
    (hoffset : lx.cursor.position.offset = n) :
    ∃ tokens, lx.drain.result = .ok tokens ∧ tokens.map Token.located = ts := by
  induction h generalizing lx with
  | @done n gap hgap =>
    obtain ⟨row, rfl, hrow⟩ := hgap
    have htext := hrest.trans (List.append_nil _).symm
    exact ⟨[], Lexer.drain_of_row hc hrow htext, rfl⟩
  | @token n gap cs a l ts hgap hnone hscan _ ih =>
    obtain ⟨row, rfl, hrow⟩ := hgap
    obtain ⟨hpeek, hstate⟩ := Lexer.peek_of_row (Lexer.ahead_of_bare hp) hc hrow hrest hnone hscan
    have hbare : lx.peek.state.preprocessor = none := by
      rw [hstate]
      exact hp
    have hnext : lx.peek.state.cursor = (lx.cursor.advance (rowText row) (a :: cs)
        (rowLines row)).advance l.text l.rest l.lines := by
      rw [hstate]
    obtain ⟨tokens, hdrain, rfl⟩ := @ih (lx.peek.state.consumed _) hbare rfl
      (congrArg Cursor.rest hnext) (by rw [← hoffset]; exact congrArg (·.position.offset) hnext)
    refine ⟨_, Lexer.drain_of_token hpeek (Lexeme.scan_kind hscan) hdrain, ?_⟩
    rw [List.map_cons, ← hoffset]
    rfl

/-- Without a preprocessor a source is read to its end exactly if its text yields tokens, and then
these are the ones. -/
theorem tokenize_iff_yields {source : String} {preferences : LexicalPreferences} {ts : List Located} :
    (∃ tokens, (tokenize source preferences).result = .ok tokens ∧ tokens.map Token.located = ts) ↔
      Yields 0 source.toList ts := by
  constructor
  · rintro ⟨tokens, htokens, rfl⟩
    exact Lexer.Plain.yields ⟨rfl, rfl, Cursor.Within.ofText source.toList⟩ htokens
  · intro h
    exact @Yields.drain _ _ _ h (Lexer.ofSource source preferences) rfl rfl rfl rfl

end HeaderLex
