import HeaderLex.Proofs.Condition
import HeaderLex.Proofs.LiteralBodies
import HeaderLex.Proofs.Yield

/-!
# String literals and the texts that they stand for

A text is written as a string literal with a backslash before each backslash and each quote, and with
an escape for each line feed, tab and carriage return.  The scanner takes a backslash together with the
character behind it and so finds the closing quote; the reader of the literal finds the same pairs
again, and puts back what they stand for.

* `StringLiteral.escape`, `StringLiteral.quote`   a text as it is written between quotes, and with them;
* `resolveEscapes_escape`   the escapes stand for the text;
* `literalBody_escape`      the scanner does not stop before the closing quote;
* `tokenizeAll_literal`     a source that is a literal is one token, or is too long;
* `tokenize_quote`          so a literal within the limit is one token that stands for the text.
-/

namespace HeaderLex

open Lexeme (literalBody)
open Token (resolveEscapes stripQuotes unquote?)

namespace StringLiteral

/-- The character that stands behind a backslash for one that cannot stand for itself. -/
def mark? (c : Char) : Option Char :=
  if c = '\\' ∨ c = '"' then some c
  else if c = '\n' then some 'n'
  else if c = '\t' then some 't'
  else if c = '\r' then some 'r'
  else none

/-- A text with its escapes. -/
def escape : List Char → List Char
  | [] => []
  | c :: cs =>
    match mark? c with
    | some mark => '\\' :: mark :: escape cs
    | none => c :: escape cs

/-- A text as a string literal. -/
def quote (s : String) : String := String.ofList ('"' :: (escape s.toList ++ ['"']))

variable {c mark : Char} {cs : List Char}

/-! ## escapes -/

theorem escape_of_mark (h : mark? c = some mark) (cs : List Char) :
    escape (c :: cs) = '\\' :: mark :: escape cs := by
  rw [escape, h]

theorem escape_of_plain (h : mark? c = none) (cs : List Char) : escape (c :: cs) = c :: escape cs := by
  rw [escape, h]

/-- A character without a mark ends neither a literal nor its line, and begins no escape. -/
theorem plain_of_mark?_eq_none (h : mark? c = none) : c ≠ '\n' ∧ c ≠ '"' ∧ c ≠ '\\' := by
  refine ⟨?_, ?_, ?_⟩
  all_goals
    rintro rfl
    cases h

/-- A mark is read as the character that it stands for. -/
theorem resolve_mark (h : mark? c = some mark) :
    (if mark = 'n' then '\n' else if mark = 't' then '\t' else if mark = 'r' then '\r' else mark) = c := by
  unfold mark? at h
  split at h
  · next hself =>
    cases h
    rcases hself with rfl | rfl
    · rfl
    · rfl
  split at h
  · next hc =>
    cases h
    exact hc.symm
  split at h
  · next hc =>
    cases h
    exact hc.symm
  split at h
  · next hc =>
    cases h
    exact hc.symm
  · cases h

theorem resolveEscapes_escape (cs : List Char) : resolveEscapes (escape cs) = cs := by
  induction cs with
  | nil => rfl
  | cons c cs ih =>
    cases hmark : mark? c with
    | some mark => rw [escape_of_mark hmark, resolveEscapes, ih, resolve_mark hmark]
    | none =>
      obtain ⟨-, -, hc⟩ := plain_of_mark?_eq_none hmark
      rw [escape_of_plain hmark, resolveEscapes, ih]
      · exact fun h _ => hc h
      · exact fun _ _ h _ => hc h

theorem stripQuotes_quoted (cs : List Char) : stripQuotes ('"' :: (cs ++ ['"'])) = cs := by
  have hstart : Text.strip? ['"'] ('"' :: (cs ++ ['"'])) = some (cs ++ ['"']) :=
    Text.strip?_eq_some.2 rfl
  have hunquote : unquote? '"' ('"' :: (cs ++ ['"'])) = some cs := by
    unfold unquote?
    rw [hstart]
    exact Text.stripEnd?_append cs ['"']
  unfold stripQuotes
  rw [hunquote]

/-! ## the scanner -/

/-- The scanner passes over the escapes up to the closing quote. -/
theorem literalBody_escape (cs rest : List Char) :
    literalBody (escape cs ++ '"' :: rest) = (escape cs, '"' :: rest) := by
  induction cs with
  | nil => rfl
  | cons c cs ih =>
    cases hmark : mark? c with
    | some mark =>
      rw [escape_of_mark hmark, List.cons_append, List.cons_append, literalBody, ih]
    | none =>
      obtain ⟨hnewline, hquote, hbackslash⟩ := plain_of_mark?_eq_none hmark
      rw [escape_of_plain hmark, List.cons_append,
        Lexeme.literalBody_plain _ hnewline hquote hbackslash, ih]

end StringLiteral

open StringLiteral (escape quote)

/-- A source that is a string literal is read as one token, or is too long. -/
theorem tokenizeAll_literal {source : String} {body : List Char} (preferences : LexicalPreferences)
    (p : Option Preprocessor) (htext : source.toList = '"' :: (body ++ ['"']))
    (hbody : literalBody (body ++ ['"']) = (body, ['"'])) :
    ((Lexer.ofSource source preferences).withPreprocessor p).tokenizeAll.result =
      if Text.byteLength source.toList ≤ maxText + 1 then .ok [⟨.stringConst, source, .start, .start⟩]
      else .error (.source ⟨.stringTooLong maxText, .start⟩) := by
  have hbytes : Text.byteLength source.toList = 1 + Text.byteLength body + 1 := by
    rw [htext, Text.byteLength_cons, Text.byteLength_append, ← Nat.add_assoc]
    rfl
  have hnone : GapPiece.next? ('"' :: (body ++ ['"'])) = .ok none := rfl
  have hscan := Lexeme.scan_literal hbody
  rw [hbytes]
  by_cases hfits : 1 + Text.byteLength body + 1 ≤ maxText + 1
  · rw [limited_of_not_lt (by omega)] at hscan
    rw [if_pos hfits, Lexer.tokenizeAll_of_lexeme htext (by decide) hnone hscan rfl]
    dsimp only
    rw [← htext, String.ofList_toList]
  · rw [limited_of_lt (by omega)] at hscan
    rw [if_neg hfits, Lexer.tokenizeAll_of_error htext (by decide) hnone hscan]

theorem tokenize_eq (source : String) (preferences : LexicalPreferences) :
    tokenize source preferences
      = ((Lexer.ofSource source preferences).withPreprocessor none).tokenizeAll := rfl

/-- A text that is written as a string literal within the limit is read as one token, with or without a
preprocessor, and this token stands for the text. -/
theorem tokenize_quote (s : String) (preferences : LexicalPreferences) (p : Option Preprocessor)
    (hfits : Text.byteLength (quote s).toList ≤ maxText) :
    let t : Token := ⟨.stringConst, quote s, .start, .start⟩
    ((Lexer.ofSource (quote s) preferences).withPreprocessor p).tokenizeAll.result = .ok [t] ∧
      (tokenize (quote s) preferences).result = .ok [t] ∧ t.unescaped = .ok s := by
  intro t
  have htext : (quote s).toList = '"' :: (escape s.toList ++ ['"']) := String.toList_ofList
  have hread (p : Option Preprocessor) :
      ((Lexer.ofSource (quote s) preferences).withPreprocessor p).tokenizeAll.result = .ok [t] := by
    rw [tokenizeAll_literal preferences p htext (StringLiteral.literalBody_escape _ []),
      if_pos (Nat.le_succ_of_le hfits)]
  have hplain := hread none
  rw [← tokenize_eq] at hplain
  refine ⟨hread p, hplain, ?_⟩
  show Except.ok (String.ofList (resolveEscapes (stripQuotes (quote s).toList))) = _
  rw [htext, StringLiteral.stripQuotes_quoted, StringLiteral.resolveEscapes_escape,
    String.ofList_toList]

/-- The backslash at the end of the text is escaped, and does not hide the closing quote. -/
theorem tokenize_quote_sample :
    let s := "ü\t\"\\n\\"
    let source := "\"ü\\t\\\"\\\\n\\\\\""
    let t : Token := ⟨.stringConst, source, .start, .start⟩
    quote s = source ∧ Text.byteLength (quote s).toList ≤ maxText ∧
    ((Lexer.ofSource source ⟨true, false, false, true⟩).withPreprocessor
      (some (.conditional Conditional.standard))).tokenizeAll.result = .ok [t] ∧
    (tokenize source ⟨true, false, false, true⟩).result = .ok [t] ∧ t.unescaped = .ok s := by
  intro s source t
  have hquote : quote s = source := by decide +kernel
  have hfits : Text.byteLength (quote s).toList ≤ maxText := by decide +kernel
  have hread := tokenize_quote s ⟨true, false, false, true⟩
    (some (.conditional Conditional.standard)) hfits
  rw [hquote] at hread
  exact ⟨hquote, hfits, hread⟩

end HeaderLex
