import HeaderLex.Proofs.Crashes
import HeaderLex.Proofs.ErrorOrigins
import HeaderLex.Proofs.IntegerTokens
import HeaderLex.Proofs.StringLiterals

/-!
# The lengths of what a lexer hands out

Identifiers, numbers, string literals and raw texts have a limit each.  All that is handed out keeps its
limit, but string literals: the scanner takes the closing quote without a test, so a literal may have
one byte more.  A text is refused as too long only where the source has a text of its kind that is
longer than the limit.

* `TokenKind.limit?`, `Token.Fits`   the limits;
* `Token.IsLexeme.fits_iff`          lexemes, but one length of string literals, keep them;
* `byteLength_rawText`               raw texts keep theirs;
* `Op.Exceeds`                       what stands at the place of an error about a length;
* `exceeds_peek`, `exceeds_rawText`  no other text is refused for its length;
* `scan_literal_iff`                 which literals are scanned;
* `length_limits_iff`                all this over every run.
-/

namespace HeaderLex

open Lexeme (numberText literalBody)

/-! ## the limits -/

def TokenKind.limit? : TokenKind → Option Nat
  | identifier => some maxName
  | decimalConst | hexConst | floatConst => some maxNumber
  | stringConst => some maxText
  | _ => none

/-- The token is not longer than its kind allows. -/
def Token.Fits (t : Token) : Prop := ∀ n ∈ t.kind.limit?, Text.byteLength t.value.toList ≤ n

/-- A text is refused for its length. -/
def Cause.isTooLong : Cause → Bool
  | identifierTooLong _ | stringTooLong _ | numberTooLong _ => true
  | _ => false

theorem Cause.isTooLong_of_isOfGap {cause : Cause} (h : cause.isOfGap = true) :
    cause.isTooLong = false := by
  cases cause with
  | unexpectedCommentClose | unterminatedComment => rfl
  | _ => cases h

theorem Cause.isTooLong_of_isOfRegion {cause : Cause} (h : cause.isOfRegion = true) :
    cause.isTooLong = false := by
  cases cause with
  | invalidDirective | illegalMacroInConditional | serializeInConditional => rfl
  | _ => cases h

/-- The text begins with one of the kind of the cause, which is longer than its limit.  A string literal
is counted from its opening quote up to where it is closed or breaks off, raw text up to its
terminator. -/
inductive Op.Exceeds (op : Op) (cs : List Char) : Cause → Prop
  | name : op.isLook = true → cs.head?.any isNameStart = true →
      maxName < Text.byteLength (cs.takeWhile isNameChar) →
      Exceeds op cs (.identifierTooLong maxName)
  | number {text : List Char} : op.isLook = true → LongestPrefix Numeral cs text →
      maxNumber < Text.byteLength text → Exceeds op cs (.numberTooLong maxNumber)
  | literal {tail : List Char} : op.isLook = true → cs = '"' :: tail →
      maxText < Text.byteLength ('"' :: (literalBody tail).1) →
      Exceeds op cs (.stringTooLong maxText)
  | rawText {terminator : Char} {options : RawTextOptions} : op = .rawText terminator options →
      maxText < Text.byteLength (RawText.scanAll terminator options.respectQuotes false cs).text →
      Exceeds op cs (.stringTooLong maxText)

/-! ## tokens -/

namespace Lexeme

variable {cs : List Char} {l : Lexeme}

/-- A string literal is its body between the quotes; the opening quote and the body keep the limit. -/
theorem string_body (h : string cs = .ok l) : l.kind = .stringConst ∧
    l.text = '"' :: ((literalBody cs).1 ++ ['"']) ∧
    Text.byteLength ('"' :: (literalBody cs).1) ≤ maxText := by
  obtain ⟨text, htail, hl⟩ := string_ok h
  rw [stringTail_eq] at htail
  obtain ⟨hle, hclosed⟩ := limited_ok htail
  have htext : text = (literalBody cs).1 ++ ['"'] := by
    unfold closed at hclosed
    split at hclosed
    · exact (congrArg Prod.fst (Except.ok.inj hclosed)).symm
    · cases hclosed
  rw [hl, htext]
  exact ⟨rfl, rfl, hle⟩

end Lexeme

namespace Token

variable {t : Token}

theorem fits_of_le {n : Nat} (hlimit : t.kind.limit? = some n)
    (h : Text.byteLength t.value.toList ≤ n) : t.Fits := by
  intro m hm
  rw [hlimit] at hm
  obtain rfl := Option.some.inj hm
  exact h

theorem fits_of_none (hlimit : t.kind.limit? = none) : t.Fits := by
  intro n hn
  rw [hlimit] at hn
  cases hn

/-- The tokens that are no string literals keep their limit. -/
theorem fits_iff_of_kind {k : TokenKind} (hkind : t.kind = k) (hk : k ≠ .stringConst) (h : t.Fits) :
    t.Fits ↔ ¬ (t.kind = .stringConst ∧ Text.byteLength t.value.toList = maxText + 1) :=
  iff_of_true h fun hlong => hk (hkind.symm.trans hlong.1)

/-- A lexeme keeps its limit, or is a string literal that is longer by one byte. -/
theorem IsLexeme.fits_iff (h : t.IsLexeme) :
    t.Fits ↔ ¬ (t.kind = .stringConst ∧ Text.byteLength t.value.toList = maxText + 1) := by
  obtain ⟨c, cs, l, hscan, hkind, hvalue⟩ := h
  have htext : t.value.toList = l.text := by rw [hvalue, String.toList_ofList]
  rcases Lexeme.scan_class hscan with ⟨-, h⟩ | ⟨-, h⟩ | ⟨-, h⟩ | ⟨-, h⟩ | h
  · obtain ⟨hle, rfl⟩ := Lexeme.identifier_ok h
    refine fits_iff_of_kind hkind (fun h => by cases h) (fits_of_le (by rw [hkind]; rfl) ?_)
    rw [htext]
    exact hle
  · obtain ⟨hle, rfl⟩ := Lexeme.number_ok h
    have hlimit : t.kind.limit? = some maxNumber ∧ (numberText (c :: cs)).1 ≠ .stringConst := by
      rw [hkind]
      rcases Lexeme.numberText_kind (c :: cs) with hk | hk | hk <;>
      · dsimp only
        rw [hk]
        exact ⟨rfl, fun h => by cases h⟩
    refine fits_iff_of_kind hkind hlimit.2 (fits_of_le hlimit.1 ?_)
    rw [htext]
    exact hle
  · obtain ⟨inner, -, hl, -⟩ := Lexeme.character_ok h
    rw [hl] at hkind
    exact fits_iff_of_kind hkind (fun h => by cases h) (fits_of_none (by rw [hkind]; rfl))
  · obtain ⟨hstring, hbody, hle⟩ := Lexeme.string_body h
    have hkind : t.kind = .stringConst := hkind.trans hstring
    have hbytes : Text.byteLength t.value.toList
        = Text.byteLength ('"' :: (literalBody cs).1) + 1 := by
      rw [htext, hbody, ← List.cons_append, Text.byteLength_append]
      rfl
    constructor
    · rintro hfits ⟨-, hlong⟩
      have hmax := hfits maxText (by rw [hkind]; rfl)
      omega
    · intro hshort
      have hne : Text.byteLength t.value.toList ≠ maxText + 1 := fun hlong => hshort ⟨hkind, hlong⟩
      exact fits_of_le (by rw [hkind]; rfl) (by omega)
  · obtain ⟨text, rest, hs⟩ := Lexeme.symbol_eq c cs
    rw [← Except.ok.inj h, hs] at hkind
    exact fits_iff_of_kind hkind (fun h => by cases h) (fits_of_none (by rw [hkind]; rfl))

end Token

/-! ## errors -/

/-- Where a scan refuses a text for its length, a text of this kind is too long. -/
theorem exceeds_scan {op : Op} (hop : op.isLook = true) {c : Char} {cs : List Char} {cause : Cause}
    (h : Lexeme.scan c cs = .error cause) (hlong : cause.isTooLong = true) :
    op.Exceeds (c :: cs) cause := by
  rcases Lexeme.scan_class h with ⟨hname, h⟩ | ⟨hstart, h⟩ | ⟨-, h⟩ | ⟨rfl, hstring⟩ | h
  · obtain ⟨hmax, rfl⟩ := Lexeme.identifier_error h
    exact .name hop hname hmax
  · obtain ⟨hmax, rfl⟩ := Lexeme.number_error h
    exact .number hop (NumberStart.iff_class.2 hstart).longest hmax
  · obtain rfl := Lexeme.character_error h
    cases hlong
  · obtain ⟨hmax, rfl⟩ | rfl := Lexeme.string_error hstring
    · exact .literal hop rfl hmax
    · cases hlong
  · cases h

namespace Lexer

variable {lx : Lexer} {source : List Char} {e : SourceError}

theorem exceeds_peek {op : Op} (hop : op.isLook = true) (hwithin : lx.cursor.Within source)
    (h : lx.peek.result = .error (.source e)) (hlong : e.cause.isTooLong = true)
    (hscript : ∀ place, ¬ MayRefuse lx.answers place e) :
    ∃ before rest, Text.cutAt? e.position.offset source = some (before, rest) ∧
      op.Exceeds rest e.cause := by
  have hkept := (stable_within source).toConserved.and (stable_answers lx.answers).toConserved
  obtain hgap | hregion | ⟨hplace, hrest, hscan, hposition⟩ | ⟨hplace, hmay⟩ :=
    hkept.arising_peek ⟨within_skipGap hwithin, List.Subset.refl _⟩ e h
  · exact absurd hlong (by rw [Cause.isTooLong_of_isOfGap hgap]; decide)
  · exact absurd hlong (by rw [Cause.isTooLong_of_isOfRegion hregion]; decide)
  · refine ⟨_, _, hposition ▸ Cursor.Within.cutAt? hplace.1, ?_⟩
    rw [hrest]
    exact exceeds_scan hop hscan hlong
  · exact absurd (hmay.mono hplace.2) (hscript _)

theorem exceeds_rawText {terminator : Char} {options : RawTextOptions}
    (hwithin : lx.unget.cursor.Within source)
    (h : (lx.rawText terminator options).result = .error (.source e))
    (hlong : e.cause.isTooLong = true) :
    ∃ before rest, Text.cutAt? e.position.offset source = some (before, rest) ∧
      (Op.rawText terminator options).Exceeds rest e.cause := by
  have hplace : lx.unget.skipGap.2.cursor.Within source := within_skipGap hwithin
  unfold rawText at h
  dsimp only at h
  split at h
  · next e' hgap =>
    cases h
    exact absurd hlong (by rw [Cause.isTooLong_of_isOfGap (skipGap_error hgap).1]; decide)
  · split at h
    · next cause hscan =>
      cases h
      refine ⟨_, _, hplace.cutAt?, ?_⟩
      rw [RawText.scan_eq (Nat.zero_le _)] at hscan
      unfold limited at hscan
      split at hscan
      · next hmax =>
        cases hscan
        rw [Nat.zero_add] at hmax
        exact .rawText rfl hmax
      · cases hscan
    · next raw hscan =>
      split at h
      · cases h
        cases hlong
      · cases h

/-- Raw text keeps its limit. -/
theorem byteLength_rawText {terminator : Char} {options : RawTextOptions} {s : String}
    (h : (lx.rawText terminator options).result = .ok s) : Text.byteLength s.toList ≤ maxText := by
  unfold rawText at h
  dsimp only at h
  split at h
  · cases h
  split at h
  · cases h
  next raw hscan =>
    split at h
    · cases h
    · obtain rfl := Except.ok.inj h
      rw [RawText.scan_eq (Nat.zero_le _)] at hscan
      obtain ⟨hle, hraw⟩ := limited_ok hscan
      rw [Nat.zero_add, Except.ok.inj hraw] at hle
      obtain ⟨blanks, htext, -⟩ := Text.dropEndWhile_append Text.isBlank raw.text
      rw [htext, Text.byteLength_append] at hle
      rw [String.toList_ofList]
      exact (Nat.le_add_right _ _).trans hle

end Lexer

/-! ## runs -/

/-- A literal with its closing quote is scanned exactly if it is not longer than its limit and one
byte. -/
theorem scan_literal_iff {body rest : List Char}
    (h : literalBody (body ++ '"' :: rest) = (body, '"' :: rest)) :
    (∃ l, Lexeme.scan '"' (body ++ '"' :: rest) = .ok l) ↔
      Text.byteLength ('"' :: (body ++ ['"'])) ≤ maxText + 1 := by
  have hbytes : Text.byteLength ('"' :: (body ++ ['"'])) = 1 + Text.byteLength body + 1 := by
    rw [Text.byteLength_cons, Text.byteLength_append, ← Nat.add_assoc]
    rfl
  rw [Lexeme.scan_literal h, hbytes]
  constructor
  · rintro ⟨l, hl⟩
    have hle := (limited_ok hl).1
    omega
  · intro hle
    exact ⟨_, limited_of_not_lt (by omega) _⟩

/-- The lengths of all that a lexer hands out, and the errors about lengths.  Tokens keep their limits
exactly if they are not string literals that are longer by one byte; such literals are scanned like any
shorter ones.  Raw texts keep their limit.  An error about a length stands where the source has a text
of its kind that is too long, unless it is a script's own answer on a directive. -/
theorem length_limits_iff (source : String) (preferences : LexicalPreferences)
    (p : Option Preprocessor) :
    let start := (Lexer.ofSource source preferences).withPreprocessor p
    (∀ t, start.HandsOut t →
      (t.Fits ↔ ¬ (t.kind = .stringConst ∧ Text.byteLength t.value.toList = maxText + 1))) ∧
    (∀ body rest, literalBody (body ++ '"' :: rest) = (body, '"' :: rest) →
      ((∃ l, Lexeme.scan '"' (body ++ '"' :: rest) = .ok l) ↔
        Text.byteLength ('"' :: (body ++ ['"'])) ≤ maxText + 1)) ∧
    (∀ ops terminator options s,
      ((start.run ops).apply (.rawText terminator options)).result = .ok (.text s) →
      Text.byteLength s.toList ≤ maxText) ∧
    ∀ op e, start.Raises op e → e.cause.isTooLong = true →
      (∀ place, ¬ MayRefuse start.answers place e) →
      ∃ before rest, Text.cutAt? e.position.offset source.toList = some (before, rest) ∧
        op.Exceeds rest e.cause := by
  intro start
  refine ⟨?_, fun body rest h => scan_literal_iff h, ?_, ?_⟩
  · intro t hout
    rcases hout.cases rfl rfl with hkind | hkind | hlexeme
    · exact Token.fits_iff_of_kind hkind (by decide) (Token.fits_of_none (by rw [hkind]; rfl))
    · exact Token.fits_iff_of_kind hkind (by decide) (Token.fits_of_none (by rw [hkind]; rfl))
    · exact hlexeme.fits_iff
  · intro ops terminator options s h
    replace h : Except.map Answer.text ((start.run ops).rawText terminator options).result
      = .ok (.text s) := h
    cases hraw : ((start.run ops).rawText terminator options).result with
    | error f =>
      rw [hraw] at h
      cases h
    | ok s' =>
      rw [hraw] at h
      obtain rfl := Answer.text.inj (Except.ok.inj h)
      exact Lexer.byteLength_rawText hraw
  · intro op e hraises hlong hscript
    obtain ⟨ops, hfailed⟩ := hraises.failed
    have hgrounded := Lexer.grounded_run source preferences p ops
    rcases Lexer.apply_failure hfailed with ⟨hlook, hpeek⟩ | ⟨terminator, options, rfl, hraw⟩
    · exact Lexer.exceeds_peek hlook hgrounded.place.1 hpeek hlong
        fun place hmay => hscript place (hmay.mono (start.answers_run ops))
    · exact Lexer.exceeds_rawText hgrounded.place.unget hraw hlong

/-- A literal of `maxText - 1` letters is longer than its limit with the quotes around it, and is handed
out.  With one letter more it is refused.  A short raw text is handed out as well. -/
theorem length_limits_sample :
    let source (n : Nat) := String.ofList ('"' :: (List.replicate n 'a' ++ ['"']))
    let start (source : String) :=
      (Lexer.ofSource source ⟨true, false, false, true⟩).withPreprocessor none
    let t : Token := ⟨.stringConst, source (maxText - 1), .start, .start⟩
    let e : SourceError := ⟨.stringTooLong maxText, .start⟩
    let raw : Op := .rawText ';' ⟨false, true⟩
    (start (source (maxText - 1))).HandsOut t ∧ Text.byteLength t.value.toList = maxText + 1 ∧
    ¬ t.Fits ∧
    (start (source maxText)).Raises .next e ∧ (∃ before rest,
      Text.cutAt? e.position.offset (source maxText).toList = some (before, rest) ∧
        Op.next.Exceeds rest e.cause) ∧
    (((start "ab ;").run []).apply raw).result = .ok (.text "ab") ∧
    Text.byteLength "ab".toList ≤ maxText := by
  intro source start t e raw
  have htext (n : Nat) : (source n).toList = '"' :: (List.replicate n 'a' ++ ['"']) :=
    String.toList_ofList
  have hbytes (n : Nat) : Text.byteLength (source n).toList = n + 2 := by
    have hletter : 'a'.utf8Size = 1 := rfl
    have hquote : '"'.utf8Size = 1 := rfl
    rw [htext, Text.byteLength_cons, Text.byteLength_append, Text.byteLength_cons,
      Text.byteLength_nil, Text.byteLength_replicate, hletter, hquote]
    omega
  have hread (n : Nat) := tokenizeAll_literal ⟨true, false, false, true⟩ none (htext n)
    (Lexeme.literalBody_letters (fun c hc => by rw [List.eq_of_mem_replicate hc]; decide) [])
  have hpositive : 0 < maxText := by decide
  have hout : (start (source (maxText - 1))).HandsOut t := by
    have hall := hread (maxText - 1)
    rw [if_pos (by rw [hbytes]; omega)] at hall
    exact @Lexer.HandsOut.whole _ _ [] _ hall (List.mem_singleton.2 rfl)
  have hraises : (start (source maxText)).Raises .next e := by
    have hall := hread maxText
    rw [if_neg (by rw [hbytes]; omega)] at hall
    exact @Lexer.Raises.whole _ [] _ hall
  have hraw : (((start "ab ;").run []).apply raw).result = .ok (.text "ab") :=
    ok_of_toOption (by decide +kernel)
  have hbare : ∀ place, ¬ MayRefuse (start (source maxText)).answers place e := by
    rintro place ⟨answer, hanswer, -⟩
    cases hanswer
  have hlength : Text.byteLength t.value.toList = maxText + 1 := (hbytes _).trans (by omega)
  obtain ⟨hfits, -, -, -⟩ := length_limits_iff (source (maxText - 1)) ⟨true, false, false, true⟩ none
  obtain ⟨-, -, -, herrors⟩ := length_limits_iff (source maxText) ⟨true, false, false, true⟩ none
  obtain ⟨-, -, htexts, -⟩ := length_limits_iff "ab ;" ⟨true, false, false, true⟩ none
  refine ⟨hout, hlength, ?_, hraises, herrors .next e hraises rfl hbare, hraw, htexts [] _ _ _ hraw⟩
  intro hfit
  exact (hfits t hout).1 hfit ⟨rfl, hlength⟩

end HeaderLex
