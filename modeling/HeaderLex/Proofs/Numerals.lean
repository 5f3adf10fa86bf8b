import HeaderLex.Proofs.Printing
import Mathlib.Computability.Language

/-!
# Numbers are the longest match of their grammar

The numbers of a source are given by a grammar with three kinds: hexadecimal and decimal integers,
and fractions.  The scanner takes its parts one after the other and never goes back; still no longer
beginning of the text is a number.

* `Numeral.alternative`        the numbers of each kind, without a sign;
* `Numeral.Covers`             words of a language at the beginning of a text end within a part of it;
* `covers_run`, `covers_sign`, ...   how the parts of a number cover the parts of the grammar;
* `numberText_longest`         what is scanned is a number, and covers all numbers;
* `kind_unique`                a text is a number of one kind only;
* `lexAt_number_longest`       the token, or the error, where a number begins.
-/

namespace HeaderLex

open Lexeme (isSign isHexDigit splitSign splitHexMark splitFraction splitExponent numberText numberEnd)
open Number (isDigit)
open Token (isIntegerSuffix isFloatSuffix)
open scoped Computability

/-! ## the grammar -/

namespace Numeral

/-- One character of a class. -/
def one (p : Char → Bool) : Language Char := {w | ∃ c, p c = true ∧ w = [c]}

def isHexMark (c : Char) : Bool := c == 'x' || c == 'X'

def isExponentMark (c : Char) : Bool := c == 'e' || c == 'E'

/-- A sign or nothing. -/
def sign : Language Char := 1 + one isSign

def hex : Language Char :=
  one (· == '0') * (one isHexMark * ((one isHexDigit)∗ * (one isIntegerSuffix)∗))

def decimal : Language Char := one isDigit * (one isDigit)∗ * (one isIntegerSuffix)∗

def fraction : Language Char := one (· == '.') * (one isDigit)∗

def exponent : Language Char := one isExponentMark * (sign * (one isDigit * (one isDigit)∗))

/-- An exponent and a suffix, each or none of them. -/
def ending : Language Char := (1 + exponent) * (1 + one isFloatSuffix)

/-- At least one of a fraction, an exponent and a suffix, in this order. -/
def broken : Language Char :=
  fraction * ending + exponent * (1 + one isFloatSuffix) + one isFloatSuffix

def float : Language Char := (one isDigit)∗ * broken

/-- The numbers of a kind, without a sign. -/
def alternative : TokenKind → Language Char
  | .hexConst => hex
  | .decimalConst => decimal
  | .floatConst => float
  | _ => 0

end Numeral

/-- The numbers: an optional sign, and one of the three alternatives. -/
def Numeral : Language Char :=
  Numeral.sign * (Numeral.hex + Numeral.decimal + Numeral.float)

/-- The text is the longest beginning of `cs` in the language. -/
structure LongestPrefix (L : Language Char) (cs text : List Char) : Prop where
  mem : text ∈ L
  isPrefix : text <+: cs
  longest : ∀ w ∈ L, w <+: cs → w <+: text

namespace Numeral

/-! ## words of the grammar -/

section

variable {p q : Char → Bool} {L M : Language Char} {w : List Char} {c : Char}

theorem mem_star : w ∈ (one p)∗ ↔ ∀ c ∈ w, p c = true := by
  rw [Language.mem_kstar]
  constructor
  · rintro ⟨parts, rfl, hparts⟩ c hc
    obtain ⟨part, hpart, hin⟩ := List.mem_flatten.1 hc
    obtain ⟨d, hd, rfl⟩ := hparts part hpart
    rwa [List.mem_singleton.1 hin]
  · intro h
    refine ⟨w.map ([·]), (List.flatMap_singleton' w).symm, ?_⟩
    intro part hpart
    obtain ⟨c, hc, rfl⟩ := List.mem_map.1 hpart
    exact ⟨c, h c hc, rfl⟩

theorem mem_one_mul : w ∈ one p * L ↔ ∃ c ds, p c = true ∧ ds ∈ L ∧ w = c :: ds := by
  rw [Language.mem_mul]
  constructor
  · rintro ⟨_, ⟨c, hc, rfl⟩, ds, hds, rfl⟩
    exact ⟨c, ds, hc, hds, rfl⟩
  · rintro ⟨c, ds, hc, hds, rfl⟩
    exact ⟨[c], ⟨c, hc, rfl⟩, ds, hds, rfl⟩

theorem takeWhile_mem_star (p : Char → Bool) (cs : List Char) : cs.takeWhile p ∈ (one p)∗ :=
  mem_star.2 (List.all_eq_true.1 List.all_takeWhile)

theorem takeWhile_mem_some {cs : List Char} (h : cs.head?.any p = true) :
    cs.takeWhile p ∈ one p * (one p)∗ := by
  cases cs with
  | nil => cases h
  | cons c cs =>
    have hc : p c = true := h
    rw [List.takeWhile_cons_of_pos hc]
    exact mem_one_mul.2 ⟨c, _, hc, takeWhile_mem_star p cs, rfl⟩

theorem splitSign_mem (cs : List Char) : (splitSign cs).1 ∈ sign := by
  obtain ⟨c, ds, rfl, hc⟩ | hnone := Lexeme.splitSign_cases cs
  · rw [Lexeme.splitSign_of_sign hc]
    exact (Language.mem_add _ _ _).2 (.inr ⟨c, hc, rfl⟩)
  · rw [Lexeme.splitSign_of_head hnone]
    exact (Language.mem_add _ _ _).2 (.inl Language.nil_mem_one)

theorem mem_perhaps_mul : w ∈ (1 + L) * M ↔ w ∈ M ∨ w ∈ L * M := by
  rw [add_mul, one_mul, Language.mem_add]

/-! ## words at the beginning of a text -/

/-- Every word of the language begins with a character of the class. -/
def Begins (p : Char → Bool) (L : Language Char) : Prop := ∀ w ∈ L, w.head?.any p = true

/-- No word of the language begins with a character of the class. -/
def Stops (p : Char → Bool) (L : Language Char) : Prop := ∀ w ∈ L, w.head?.any p = false

/-- Where a word of the language stands at the beginning of the text `cs`, it ends within `text`. -/
def Covers (L : Language Char) (cs text : List Char) : Prop := ∀ w ∈ L, w <+: cs → w <+: text

theorem begins_one : Begins p (one p) := by
  rintro _ ⟨c, hc, rfl⟩
  exact hc

theorem Begins.mul (h : Begins p L) : Begins p (L * M) := by
  intro w hw
  obtain ⟨u, hu, v, -, rfl⟩ := Language.mem_mul.1 hw
  have hhead := h u hu
  cases u with
  | nil => cases hhead
  | cons c u => exact hhead

theorem Begins.mono (h : Begins p L) (hpq : ∀ c, p c = true → q c = true) : Begins q L := by
  intro w hw
  have hhead := h w hw
  cases w with
  | nil => cases hhead
  | cons c w => exact hpq c hhead

theorem Begins.add (h : Begins p L) (h' : Begins p M) : Begins p (L + M) :=
  fun w hw => ((Language.mem_add _ _ _).1 hw).elim (h w) (h' w)

theorem stops_nil : Stops p 1 := by
  intro w hw
  rw [(Language.mem_one w).1 hw]
  rfl

theorem Begins.stops (h : Begins p L) (hpq : ∀ c, p c = true → q c = false) : Stops q L := by
  intro w hw
  have hhead := h w hw
  cases w with
  | nil => cases hhead
  | cons c w => exact hpq c hhead

theorem Stops.perhaps (h : Stops p L) : Stops p (1 + L) := by
  intro w hw
  exact ((Language.mem_add _ _ _).1 hw).elim (stops_nil w) (h w)

end

section

variable {p q : Char → Bool} {L M : Language Char} {cs ds text : List Char} {c : Char}

theorem covers_add : Covers (L + M) cs text ↔ Covers L cs text ∧ Covers M cs text := by
  constructor
  · intro h
    exact ⟨fun w hw => h w ((Language.mem_add _ _ _).2 (.inl hw)),
      fun w hw => h w ((Language.mem_add _ _ _).2 (.inr hw))⟩
  · rintro ⟨h, h'⟩ w hw
    exact ((Language.mem_add _ _ _).1 hw).elim (h w) (h' w)

theorem covers_nil : Covers 1 cs text := by
  intro w hw _
  rw [(Language.mem_one w).1 hw]
  exact List.nil_prefix

theorem Covers.mono (h : Covers L cs text) (hML : ∀ w ∈ M, w ∈ L) : Covers M cs text :=
  fun w hw => h w (hML w hw)

/-- No word of the language stands where another character does. -/
theorem Begins.covers (h : Begins p L) (hcs : cs.head?.any p = false) : Covers L cs text := by
  intro w hw hprefix
  have hhead := h w hw
  cases w with
  | nil => cases hhead
  | cons c w =>
    obtain ⟨rest, rfl⟩ := hprefix
    exact absurd (hhead.symm.trans hcs) (by decide)

theorem covers_star (hcs : cs.head?.any p = false) : Covers (one p)∗ cs text := by
  intro w hw hprefix
  cases w with
  | nil => exact List.nil_prefix
  | cons c w =>
    obtain ⟨rest, rfl⟩ := hprefix
    have hc : p c = true := mem_star.1 hw c List.mem_cons_self
    exact absurd (hc.symm.trans hcs) (by decide)

theorem covers_letters (p : Char → Bool) (cs : List Char) :
    Covers (one p)∗ cs (cs.takeWhile p) := by
  rintro w hw ⟨rest, rfl⟩
  rw [List.takeWhile_append_of_pos (mem_star.1 hw)]
  exact List.prefix_append ..

theorem covers_cons (h : Covers L cs text) : Covers (one p * L) (c :: cs) (c :: text) := by
  intro w hw hprefix
  obtain ⟨d, ds, -, hds, rfl⟩ := mem_one_mul.1 hw
  obtain ⟨rfl, hrest⟩ := List.cons_prefix_cons.1 hprefix
  exact List.cons_prefix_cons.2 ⟨rfl, h ds hds hrest⟩

/-- A run of characters covers all runs; what comes behind it does not begin inside the run. -/
theorem covers_run (hstop : Stops p L) (h : Covers L (cs.dropWhile p) text) :
    Covers ((one p)∗ * L) cs (cs.takeWhile p ++ text) := by
  intro w hw hprefix
  obtain ⟨run, hrun, tail, htail, rfl⟩ := Language.mem_mul.1 hw
  have hall := mem_star.1 hrun
  obtain ⟨rest, rfl⟩ := hprefix
  cases tail with
  | nil =>
    rw [List.append_nil, List.takeWhile_append_of_pos hall]
    exact ⟨rest.takeWhile p ++ text, (List.append_assoc ..).symm⟩
  | cons c tail =>
    have hc : p c = false := hstop _ htail
    obtain ⟨htake, hdrop⟩ := @takeWhile_of_head p (c :: (tail ++ rest)) hc
    have hcs : run ++ c :: tail ++ rest = run ++ c :: (tail ++ rest) := List.append_assoc ..
    rw [hcs, List.takeWhile_append_of_pos hall, htake, List.append_nil]
    rw [hcs, List.dropWhile_append_of_pos hall, hdrop] at h
    exact (List.prefix_append_right_inj run).2 (h _ htail ⟨rest, rfl⟩)

/-- At least one character of a run. -/
theorem covers_some_run (hstop : Stops p L) (h : Covers L (cs.dropWhile p) text) :
    Covers (one p * (one p)∗ * L) cs (cs.takeWhile p ++ text) := by
  apply (covers_run hstop h).mono
  intro w hw
  obtain ⟨run, hrun, tail, htail, rfl⟩ := Language.mem_mul.1 hw
  have hstar : one p * (one p)∗ ≤ (one p)∗ := mul_kstar_le_kstar
  exact Language.append_mem_mul (hstar hrun) htail

/-- Where a word with an optional sign stands, its sign is the one of the text: nothing else begins
with a sign. -/
theorem prefix_sign {w : List Char} (hbegins : Begins p L) (hp : ∀ c, p c = true → isSign c = false)
    (hw : w ∈ sign * L) (hcs : w <+: cs) :
    ∃ u ∈ L, u <+: (splitSign cs).2 ∧ w = (splitSign cs).1 ++ u := by
  have hword := mem_perhaps_mul.1 hw
  obtain ⟨c, ds, rfl, hc⟩ | hnone := Lexeme.splitSign_cases cs
  · rw [Lexeme.splitSign_of_sign hc]
    rcases hword with hw | hw
    · have hhead := hbegins w hw
      cases w with
      | nil => cases hhead
      | cons d w =>
        obtain ⟨rfl, -⟩ := List.cons_prefix_cons.1 hcs
        exact absurd (hc.symm.trans (hp d hhead)) (by decide)
    · obtain ⟨d, u, -, hu, rfl⟩ := mem_one_mul.1 hw
      obtain ⟨rfl, hrest⟩ := List.cons_prefix_cons.1 hcs
      exact ⟨u, hu, hrest, rfl⟩
  · rw [Lexeme.splitSign_of_head hnone]
    rcases hword with hw | hw
    · exact ⟨w, hw, hcs, rfl⟩
    · obtain ⟨d, u, hd, hu, rfl⟩ := mem_one_mul.1 hw
      obtain ⟨rest, rfl⟩ := hcs
      exact absurd (hd.symm.trans hnone) (by decide)

theorem covers_sign (hbegins : Begins p L) (hp : ∀ c, p c = true → isSign c = false)
    (h : Covers L (splitSign cs).2 text) : Covers (sign * L) cs ((splitSign cs).1 ++ text) := by
  intro w hw hprefix
  obtain ⟨u, hu, hbody, rfl⟩ := prefix_sign hbegins hp hw hprefix
  exact (List.prefix_append_right_inj _).2 (h u hu hbody)

end

/-! ## classes of characters -/

theorem isSign_of_isDigit {c : Char} (h : isDigit c = true) : isSign c = false := by
  cases hc : isSign c with
  | false => rfl
  | true =>
    obtain rfl | rfl : c = '+' ∨ c = '-' := by simpa [isSign] using hc
    · cases h
    · cases h

theorem isDigit_of_isExponentMark {c : Char} (h : isExponentMark c = true) : isDigit c = false := by
  obtain rfl | rfl : c = 'e' ∨ c = 'E' := by simpa [isExponentMark] using h
  · rfl
  · rfl

theorem isDigit_of_isFloatSuffix {c : Char} (h : isFloatSuffix c = true) : isDigit c = false := by
  obtain rfl | rfl : c = 'f' ∨ c = 'F' := by simpa [isFloatSuffix] using h
  · rfl
  · rfl

theorem isHexDigit_of_isIntegerSuffix {c : Char} (h : isIntegerSuffix c = true) :
    isHexDigit c = false := by
  obtain ((rfl | rfl) | rfl) | rfl : ((c = 'u' ∨ c = 'U') ∨ c = 'l') ∨ c = 'L' := by
    simpa [isIntegerSuffix] using h
  all_goals rfl

/-! ## the parts of a number -/

theorem stops_suffix : Stops isDigit (1 + one isFloatSuffix) :=
  (begins_one.stops fun _ => isDigit_of_isFloatSuffix).perhaps

theorem begins_exponent : Begins isExponentMark exponent := begins_one.mul

theorem stops_ending : Stops isDigit ending := by
  intro w hw
  rcases mem_perhaps_mul.1 hw with hw | hw
  · exact stops_suffix w hw
  · exact begins_exponent.mul.stops (fun _ => isDigit_of_isExponentMark) w hw

section

variable {cs digits part rest text : List Char}

/-- A fraction covers all fractions, or there is none. -/
theorem splitFraction_covers (h : splitFraction cs = (part, rest)) :
    part = [] ∧ rest = cs ∧ cs.head?.any (· == '.') = false ∨
    part ∈ fraction ∧ cs.head? = some '.' ∧ ∀ {L : Language Char} {text : List Char},
      Stops isDigit L → Covers L rest text → Covers (fraction * L) cs (part ++ text) := by
  cases hpoint : cs.head?.any (· == '.') with
  | false =>
    rw [Lexeme.splitFraction_of_head hpoint] at h
    cases h
    exact .inl ⟨rfl, rfl, rfl⟩
  | true =>
    cases cs with
    | nil => cases hpoint
    | cons c cs =>
      obtain rfl : c = '.' := by simpa using hpoint
      cases h
      refine .inr ⟨mem_one_mul.2 ⟨'.', _, rfl, ?_, rfl⟩, rfl, ?_⟩
      · exact takeWhile_mem_star isDigit cs
      · intro L text hstop hcovers
        rw [fraction, mul_assoc]
        exact covers_cons (covers_run hstop hcovers)

/-- An exponent covers all exponents, or there is none. -/
theorem splitExponent_covers (h : splitExponent cs = (part, rest)) :
    part = [] ∧ rest = cs ∧ (∀ (L : Language Char) (text : List Char), Covers (exponent * L) cs text) ∨
    part ∈ exponent ∧ cs.head?.any isExponentMark = true ∧ ∀ {L : Language Char} {text : List Char},
      Stops isDigit L → Covers L rest text → Covers (exponent * L) cs (part ++ text) := by
  cases cs with
  | nil =>
    cases h
    exact .inl ⟨rfl, rfl, fun L text => begins_exponent.mul.covers rfl⟩
  | cons c cs =>
    have hmul : ∀ L, exponent * L
        = one isExponentMark * (sign * (one isDigit * (one isDigit)∗ * L)) := by
      intro L
      simp only [exponent, mul_assoc]
    have hdigits : ∀ L, Begins isDigit (one isDigit * (one isDigit)∗ * L) :=
      fun L => begins_one.mul.mul
    cases hmark : Lexeme.isExponent c cs with
    | false =>
      rw [Lexeme.splitExponent_of_no_digit hmark] at h
      cases h
      refine .inl ⟨rfl, rfl, ?_⟩
      intro L text w hw hprefix
      -- the mark, the sign and the digit of the word would be those of the text
      rw [hmul] at hw
      obtain ⟨d, u, hd, hu, rfl⟩ := mem_one_mul.1 hw
      obtain ⟨rfl, hrest⟩ := List.cons_prefix_cons.1 hprefix
      obtain ⟨v, hv, hbody, -⟩ := prefix_sign (hdigits L) (fun _ => isSign_of_isDigit) hu hrest
      have hhead := hdigits L v hv
      cases v with
      | nil => cases hhead
      | cons a v =>
        obtain ⟨tail, htail⟩ := hbody
        have hexponent : Lexeme.isExponent d cs = true := by
          refine Bool.and_eq_true_iff.2 ⟨hd, ?_⟩
          rw [← htail]
          exact hhead
        exact absurd (hexponent.symm.trans hmark) (by decide)
    | true =>
      rw [Lexeme.splitExponent_of_digit hmark rfl] at h
      cases h
      obtain ⟨hc, hdigit⟩ := Bool.and_eq_true_iff.1 hmark
      refine .inr ⟨?_, hc, ?_⟩
      · have hnumber := Language.append_mem_mul (splitSign_mem cs) (takeWhile_mem_some hdigit)
        exact mem_one_mul.2 ⟨c, _, hc, hnumber, rfl⟩
      · intro L text hstop hcovers
        rw [hmul, List.cons_append, List.append_assoc]
        exact covers_cons (covers_sign (hdigits L) (fun _ => isSign_of_isDigit)
          (covers_some_run hstop hcovers))

/-- How the digits of a number are followed, by kind: a suffix, letters behind whole digits, or
nothing behind a fraction or an exponent. -/
inductive Closes : TokenKind → Bool → List Char → Prop
  | float {isWhole : Bool} {last : List Char} : last ∈ one isFloatSuffix →
      Closes .floatConst isWhole last
  | whole {last : List Char} : last ∈ (one isIntegerSuffix)∗ → Closes .decimalConst true last
  | bare : Closes .floatConst false []

/-- What follows the digits of a number covers all suffixes. -/
theorem numberEnd_covers (digits : List Char) (isWhole : Bool) (cs : List Char) :
    ∃ kind last rest, numberEnd digits isWhole cs = (kind, digits ++ last, rest) ∧
      Closes kind isWhole last ∧ Covers (1 + one isFloatSuffix) cs last ∧
      (isWhole = true → Covers (one isIntegerSuffix)∗ cs last) := by
  cases hfloat : cs.head?.any isFloatSuffix with
  | true =>
    cases cs with
    | nil => cases hfloat
    | cons c cs =>
      have hsuffix : Covers (one isFloatSuffix) (c :: cs) [c] := by
        rintro _ ⟨d, -, rfl⟩ hprefix
        exact List.cons_prefix_cons.2 ⟨(List.cons_prefix_cons.1 hprefix).1, List.nil_prefix⟩
      refine ⟨.floatConst, [c], cs, Lexeme.numberEnd_float digits isWhole hfloat,
        .float ⟨c, hfloat, rfl⟩, covers_add.2 ⟨covers_nil, hsuffix⟩, fun _ => covers_star ?_⟩
      obtain rfl | rfl : c = 'f' ∨ c = 'F' := by simpa [isFloatSuffix] using hfloat
      · rfl
      · rfl
  | false =>
    have hnone : ∀ last, Covers (1 + one isFloatSuffix) cs last :=
      fun last => covers_add.2 ⟨covers_nil, begins_one.covers hfloat⟩
    cases isWhole with
    | true =>
      refine ⟨.decimalConst, _, _, Lexeme.numberEnd_whole digits hfloat,
        .whole (takeWhile_mem_star _ _), hnone _, fun _ => covers_letters _ _⟩
    | false =>
      refine ⟨.floatConst, [], cs, ?_, .bare, hnone _, fun h => by cases h⟩
      rw [List.append_nil]
      exact Lexeme.numberEnd_broken digits hfloat

/-- An exponent and a suffix cover all of them, each or none. -/
theorem ending_covers {more last : List Char} (he : splitExponent cs = (part, more))
    (hlast : Covers (1 + one isFloatSuffix) more last) : Covers ending cs (part ++ last) := by
  rw [ending, add_mul, one_mul]
  apply covers_add.2
  obtain ⟨rfl, rfl, hnone⟩ | ⟨-, hmark, hcovers⟩ := splitExponent_covers he
  · exact ⟨hlast, hnone _ _⟩
  · refine ⟨covers_add.2 ⟨covers_nil, begins_one.covers ?_⟩, hcovers stops_suffix hlast⟩
    cases cs with
    | nil => rfl
    | cons c cs =>
      obtain rfl | rfl : c = 'e' ∨ c = 'E' := by simpa [isExponentMark] using hmark
      · rfl
      · rfl

theorem mem_ending_of_exponent (w : List Char) (h : w ∈ exponent * (1 + one isFloatSuffix)) :
    w ∈ ending :=
  mem_perhaps_mul.2 (.inr h)

theorem mem_ending_of_suffix (w : List Char) (h : w ∈ one isFloatSuffix) : w ∈ ending :=
  mem_perhaps_mul.2 (.inl ((Language.mem_add _ _ _).2 (.inr h)))

theorem mem_perhaps {L : Language Char} {w : List Char} (h : w = [] ∨ w ∈ L) : w ∈ 1 + L :=
  (Language.mem_add _ _ _).2 (h.imp (Language.mem_one w).2 id)

/-- At least one of the three parts makes a fraction. -/
theorem mem_broken {tenths power last : List Char} (htenths : tenths = [] ∨ tenths ∈ fraction)
    (hpower : power = [] ∨ power ∈ exponent) (hlast : last = [] ∨ last ∈ one isFloatSuffix)
    (hsome : tenths ≠ [] ∨ power ≠ [] ∨ last ≠ []) : tenths ++ (power ++ last) ∈ broken := by
  rw [broken, Language.mem_add, Language.mem_add]
  rcases htenths with rfl | htenths
  · rw [List.nil_append]
    rcases hpower with rfl | hpower
    · refine .inr (hlast.resolve_left fun hnil => ?_)
      simp [hnil] at hsome
    · exact .inl (.inr (Language.append_mem_mul hpower (mem_perhaps hlast)))
  · have hending := Language.append_mem_mul (mem_perhaps hpower) (mem_perhaps hlast)
    exact .inl (.inl (Language.append_mem_mul htenths hending))

/-- What is left of a number behind its first digits covers all that can stand there, and is of the
kind that the scanner gives it. -/
theorem tail_covers {tenths power more : List Char} (hf : splitFraction cs = (tenths, rest))
    (he : splitExponent rest = (power, more)) (digits : List Char) :
    ∃ kind last left, numberEnd digits (tenths.isEmpty && power.isEmpty) more
        = (kind, digits ++ last, left) ∧
      Covers broken cs (tenths ++ (power ++ last)) ∧
      Covers (one isIntegerSuffix)∗ cs (tenths ++ (power ++ last)) ∧
      (kind = .floatConst ∧ tenths ++ (power ++ last) ∈ broken ∨
        kind = .decimalConst ∧ tenths ++ (power ++ last) ∈ (one isIntegerSuffix)∗ ∧ tenths = []) := by
  obtain ⟨kind, last, left, hend, hcloses, hsuffix, hletters⟩ :=
    numberEnd_covers digits (tenths.isEmpty && power.isEmpty) more
  have hending := ending_covers he hsuffix
  have hpower : power = [] ∨ power ∈ exponent :=
    (splitExponent_covers he).imp And.left And.left
  have htenths : tenths = [] ∨ tenths ∈ fraction :=
    (splitFraction_covers hf).imp And.left And.left
  refine ⟨kind, last, left, hend, ?_, ?_, ?_⟩
  · rw [broken, covers_add, covers_add]
    obtain ⟨rfl, rfl, hpoint⟩ | ⟨-, hpoint, hcovers⟩ := splitFraction_covers hf
    · exact ⟨⟨begins_one.mul.mul.covers hpoint, hending.mono mem_ending_of_exponent⟩,
        hending.mono mem_ending_of_suffix⟩
    · have hhead : ∀ {p : Char → Bool}, p '.' = false → cs.head?.any p = false := by
        intro p hp
        rw [hpoint]
        exact hp
      exact ⟨⟨hcovers stops_ending hending, begins_exponent.mul.covers (hhead rfl)⟩,
        begins_one.covers (hhead rfl)⟩
  · obtain ⟨rfl, rfl, hpoint⟩ | ⟨-, hpoint, -⟩ := splitFraction_covers hf
    · obtain ⟨rfl, rfl, -⟩ | ⟨-, hmark, -⟩ := splitExponent_covers he
      · exact hletters rfl
      · apply covers_star
        cases rest with
        | nil => rfl
        | cons c rest =>
          obtain rfl | rfl : c = 'e' ∨ c = 'E' := by simpa [isExponentMark] using hmark
          · rfl
          · rfl
    · apply covers_star
      rw [hpoint]
      rfl
  · generalize hwhole : (tenths.isEmpty && power.isEmpty) = isWhole at hcloses
    cases hcloses with
    | float hlast =>
      refine .inl ⟨rfl, mem_broken htenths hpower (.inr hlast) (.inr (.inr ?_))⟩
      obtain ⟨c, -, rfl⟩ := hlast
      exact List.cons_ne_nil _ _
    | whole hlast =>
      obtain ⟨rfl, rfl⟩ : tenths = [] ∧ power = [] := by simpa using hwhole
      exact .inr ⟨rfl, hlast, rfl⟩
    | bare =>
      refine .inl ⟨rfl, mem_broken htenths hpower (.inl rfl) ?_⟩
      by_cases hnil : tenths = []
      · refine .inr (.inl fun hpow => ?_)
        simp [hnil, hpow] at hwhole
      · exact .inl hnil

end

/-! ## whole numbers -/

/-- What stands behind the first digits of a fraction. -/
def isTailStart (c : Char) : Bool := c == '.' || isExponentMark c || isFloatSuffix c

theorem tailStart_cases {c : Char} (h : isTailStart c = true) :
    c = '.' ∨ c = 'e' ∨ c = 'E' ∨ c = 'f' ∨ c = 'F' := by
  simpa [isTailStart, isExponentMark, isFloatSuffix, or_assoc] using h

theorem begins_broken : Begins isTailStart broken := by
  have hmark : ∀ c, isExponentMark c = true → isTailStart c = true := by
    intro c hc
    simp [isTailStart, hc]
  have hsuffix : ∀ c, isFloatSuffix c = true → isTailStart c = true := by
    intro c hc
    simp [isTailStart, hc]
  have hpoint : ∀ c, (c == '.') = true → isTailStart c = true := by
    intro c hc
    simp [isTailStart, eq_of_beq hc]
  exact ((begins_one.mul.mul.mono hpoint).add (begins_exponent.mul.mono hmark)).add
    (begins_one.mono hsuffix)

theorem isDigit_of_isTailStart {c : Char} (h : isTailStart c = true) : isDigit c = false := by
  obtain rfl | rfl | rfl | rfl | rfl := tailStart_cases h <;> rfl

theorem stops_broken : Stops isDigit broken :=
  begins_broken.stops fun _ => isDigit_of_isTailStart

theorem stops_letters {p : Char → Bool} (h : ∀ c, isIntegerSuffix c = true → p c = false) :
    Stops p (one isIntegerSuffix)∗ := by
  intro w hw
  cases w with
  | nil => rfl
  | cons c w => exact h c (mem_star.1 hw c List.mem_cons_self)

theorem isDigit_of_isIntegerSuffix {c : Char} (h : isIntegerSuffix c = true) :
    isDigit c = false := by
  obtain ((rfl | rfl) | rfl) | rfl : ((c = 'u' ∨ c = 'U') ∨ c = 'l') ∨ c = 'L' := by
    simpa [isIntegerSuffix] using h
  all_goals rfl

/-- How a number without its sign begins. -/
def isStart (c : Char) : Bool := isDigit c || isTailStart c

theorem isSign_of_isStart {c : Char} (h : isStart c = true) : isSign c = false := by
  rcases Bool.or_eq_true_iff.1 h with h | h
  · exact isSign_of_isDigit h
  · obtain rfl | rfl | rfl | rfl | rfl := tailStart_cases h <;> rfl

theorem begins_alternatives : Begins isStart (hex + decimal + float) := by
  have hdigit : ∀ c, isDigit c = true → isStart c = true := by
    intro c hc
    simp [isStart, hc]
  have hzero : ∀ c, (c == '0') = true → isStart c = true := by
    intro c hc
    rw [eq_of_beq hc]
    rfl
  refine ((begins_one.mul.mono hzero).add (begins_one.mul.mul.mono hdigit)).add ?_
  intro w hw
  obtain ⟨run, hrun, tail, htail, rfl⟩ := Language.mem_mul.1 hw
  cases run with
  | nil => exact begins_broken.mono (fun c hc => by simp [isStart, hc]) tail htail
  | cons c run => exact hdigit c (mem_star.1 hrun c List.mem_cons_self)

section

variable {body rest : List Char}

/-- Behind a hexadecimal mark the digits and letters cover all numbers. -/
theorem hex_covers {x : Char} (hx : x = 'x' ∨ x = 'X') (rest : List Char) :
    Covers (hex + decimal + float) ('0' :: x :: rest) ('0' :: x :: (rest.takeWhile isHexDigit ++
      (rest.dropWhile isHexDigit).takeWhile isIntegerSuffix)) := by
  have hdigit : isDigit x = false ∧ isTailStart x = false ∧ isIntegerSuffix x = false := by
    obtain rfl | rfl := hx
    · exact ⟨rfl, rfl, rfl⟩
    · exact ⟨rfl, rfl, rfl⟩
  -- a decimal number or a fraction would end behind the zero
  have hzero : ('0' :: x :: rest).takeWhile isDigit = ['0'] ∧
      ('0' :: x :: rest).dropWhile isDigit = x :: rest := by
    obtain ⟨htake, hdrop⟩ := @takeWhile_of_head isDigit (x :: rest) hdigit.1
    rw [List.takeWhile_cons_of_pos rfl, List.dropWhile_cons_of_pos rfl, htake, hdrop]
    exact ⟨rfl, rfl⟩
  have hlonger : ∀ {L : Language Char}, Covers L ('0' :: x :: rest) (['0'] ++ []) →
      Covers L ('0' :: x :: rest) ('0' :: x :: (rest.takeWhile isHexDigit ++
        (rest.dropWhile isHexDigit).takeWhile isIntegerSuffix)) :=
    fun h w hw hprefix => (h w hw hprefix).trans (List.prefix_append ['0'] _)
  refine covers_add.2 ⟨covers_add.2 ⟨?_, hlonger ?_⟩, hlonger ?_⟩
  · have hletters : Covers (one isIntegerSuffix)∗ (rest.dropWhile isHexDigit)
        ((rest.dropWhile isHexDigit).takeWhile isIntegerSuffix) := covers_letters _ _
    exact covers_cons (covers_cons (covers_run
      (stops_letters fun _ => isHexDigit_of_isIntegerSuffix) hletters))
  · have hletters := covers_some_run (stops_letters fun _ => isDigit_of_isIntegerSuffix)
      (hzero.2.symm ▸ @covers_star isIntegerSuffix (x :: rest) [] hdigit.2.2)
    rwa [hzero.1] at hletters
  · have hbehind : Covers broken (x :: rest) [] := begins_broken.covers hdigit.2.1
    have htail := covers_run stops_broken (hzero.2.symm ▸ hbehind)
    rwa [hzero.1] at htail

theorem covers_hex_of_none (h : splitHexMark body = none) (text : List Char) :
    Covers hex body text := by
  intro w hw hprefix
  obtain ⟨z, ds, hz, hds, rfl⟩ := mem_one_mul.1 hw
  obtain ⟨x, es, hx, -, rfl⟩ := mem_one_mul.1 hds
  obtain ⟨rest, rfl⟩ := hprefix
  obtain rfl : z = '0' := eq_of_beq hz
  have hmark := Lexeme.splitHexMark_mark (by simpa [isHexMark] using hx) (es ++ rest)
  exact absurd (hmark.symm.trans h) (by simp)

end

/-- The scanner takes a number, and no longer beginning of the text is one. -/
theorem numberText_longest {cs : List Char} (hstart : (splitSign cs).2.head?.any
    (fun c => isDigit c || c == '.') = true) :
    (numberText cs).2.1 ∈ sign * alternative (numberText cs).1 ∧
      Covers Numeral cs (numberText cs).2.1 := by
  rcases hs : splitSign cs with ⟨signed, body⟩
  rw [hs] at hstart
  replace hstart : body.head?.any (fun c => isDigit c || c == '.') = true := hstart
  have hsigned : signed ∈ sign := by
    have hmem := splitSign_mem cs
    rwa [hs] at hmem
  have hcovers : ∀ {text : List Char}, Covers (hex + decimal + float) body text →
      Covers Numeral cs (signed ++ text) := by
    intro text h
    have hsign := @covers_sign isStart (hex + decimal + float) cs text begins_alternatives
      (fun _ => isSign_of_isStart)
    rw [hs] at hsign
    exact hsign h
  cases hm : splitHexMark body with
  | some m =>
    obtain ⟨mark, ds⟩ := m
    obtain ⟨x, hx, rfl, rfl⟩ := Lexeme.splitHexMark_some hm
    rw [Lexeme.numberText_of_hex hs hm]
    have hmark : isHexMark x = true := by
      obtain rfl | rfl := hx <;> rfl
    have htext : signed ++ ['0', x] ++ ds.takeWhile isHexDigit
        ++ (ds.dropWhile isHexDigit).takeWhile isIntegerSuffix = signed ++ ('0' :: x ::
          (ds.takeWhile isHexDigit ++ (ds.dropWhile isHexDigit).takeWhile isIntegerSuffix)) := by
      simp only [List.append_assoc, List.cons_append, List.nil_append]
    dsimp only
    rw [htext]
    refine ⟨Language.append_mem_mul hsigned ?_, hcovers (hex_covers hx ds)⟩
    have hdigits := Language.append_mem_mul (takeWhile_mem_star isHexDigit ds)
      (takeWhile_mem_star isIntegerSuffix (ds.dropWhile isHexDigit))
    exact mem_one_mul.2 ⟨'0', _, rfl, mem_one_mul.2 ⟨x, _, hmark, hdigits, rfl⟩, rfl⟩
  | none =>
    rcases hf : splitFraction (body.dropWhile isDigit) with ⟨tenths, rest⟩
    rcases he : splitExponent rest with ⟨power, more⟩
    obtain ⟨kind, last, left, hend, hbroken, hletters, hkind⟩ :=
      tail_covers hf he (signed ++ body.takeWhile isDigit ++ tenths ++ power)
    rw [Lexeme.numberText_of_decimal hs hm hf he, hend]
    have htext : signed ++ body.takeWhile isDigit ++ tenths ++ power ++ last
        = signed ++ (body.takeWhile isDigit ++ (tenths ++ (power ++ last))) := by
      simp only [List.append_assoc]
    dsimp only
    rw [htext]
    refine ⟨Language.append_mem_mul hsigned ?_, hcovers ?_⟩
    · obtain ⟨rfl, hmem⟩ | ⟨rfl, hmem, rfl⟩ := hkind
      · exact Language.append_mem_mul (takeWhile_mem_star isDigit body) hmem
      · have hhead : body.head?.any isDigit = true := by
          cases body with
          | nil => cases hstart
          | cons c body =>
            -- a point in front would be a fraction
            cases hc : isDigit c with
            | true => exact hc
            | false =>
              have hpoint : c = '.' := by simpa [hc] using hstart
              subst hpoint
              cases hf
        exact Language.append_mem_mul (takeWhile_mem_some hhead) hmem
    · refine covers_add.2 ⟨covers_add.2 ⟨covers_hex_of_none hm _, ?_⟩, ?_⟩
      · exact covers_some_run (stops_letters fun _ => isDigit_of_isIntegerSuffix) hletters
      · exact covers_run stops_broken hbroken

/-! ## one kind only -/

/-- All characters of all words of the language are in the class. -/
def Within (p : Char → Bool) (L : Language Char) : Prop := ∀ w ∈ L, ∀ c ∈ w, p c = true

section

variable {p q : Char → Bool} {L M : Language Char}

theorem within_one (h : ∀ c, q c = true → p c = true) : Within p (one q) := by
  rintro _ ⟨c, hc, rfl⟩ d hd
  rw [List.mem_singleton.1 hd]
  exact h c hc

theorem within_star (h : ∀ c, q c = true → p c = true) : Within p (one q)∗ :=
  fun _ hw c hc => h c (mem_star.1 hw c hc)

theorem Within.mul (h : Within p L) (h' : Within p M) : Within p (L * M) := by
  intro w hw c hc
  obtain ⟨u, hu, v, hv, rfl⟩ := Language.mem_mul.1 hw
  exact (List.mem_append.1 hc).elim (h u hu c) (h' v hv c)

theorem Within.add (h : Within p L) (h' : Within p M) : Within p (L + M) :=
  fun w hw => ((Language.mem_add _ _ _).1 hw).elim (h w) (h' w)

theorem Within.perhaps (h : Within p L) : Within p (1 + L) := by
  apply Within.add _ h
  intro w hw c hc
  rw [(Language.mem_one w).1 hw] at hc
  cases hc

end

/-- The characters of decimal numbers. -/
def isDecimalChar (c : Char) : Bool := isSign c || isDigit c || isIntegerSuffix c

/-- The characters of fractions. -/
def isFloatChar (c : Char) : Bool := isSign c || isDigit c || isTailStart c

theorem within_decimal : Within isDecimalChar (sign * decimal) := by
  have hdigit : ∀ c, isDigit c = true → isDecimalChar c = true := by
    intro c hc
    simp [isDecimalChar, hc]
  have hsign : Within isDecimalChar sign :=
    (within_one fun c hc => by simp [isDecimalChar, hc]).perhaps
  exact hsign.mul (((within_one hdigit).mul (within_star hdigit)).mul
    (within_star fun c hc => by simp [isDecimalChar, hc]))

theorem within_float : Within isFloatChar (sign * float) := by
  have hdigit : ∀ c, isDigit c = true → isFloatChar c = true := by
    intro c hc
    simp [isFloatChar, hc]
  have hsign : Within isFloatChar sign :=
    (within_one fun c hc => by simp [isFloatChar, hc]).perhaps
  have hsuffix : Within isFloatChar (one isFloatSuffix) :=
    within_one fun c hc => by simp [isFloatChar, isTailStart, hc]
  have hexponent : Within isFloatChar exponent :=
    (within_one fun c hc => by simp [isFloatChar, isTailStart, hc]).mul
      (hsign.mul ((within_one hdigit).mul (within_star hdigit)))
  have hfraction : Within isFloatChar fraction :=
    (within_one fun c hc => by simp [isFloatChar, isTailStart, eq_of_beq hc]).mul
      (within_star hdigit)
  have hbroken : Within isFloatChar broken :=
    ((hfraction.mul (hexponent.perhaps.mul hsuffix.perhaps)).add
      (hexponent.mul hsuffix.perhaps)).add hsuffix
  exact hsign.mul ((within_star hdigit).mul hbroken)

/-- A fraction has a character that begins its fraction, exponent or suffix. -/
theorem exists_tailStart {w : List Char} (h : w ∈ sign * float) : ∃ c ∈ w, isTailStart c = true := by
  obtain ⟨u, -, v, hv, rfl⟩ := Language.mem_mul.1 h
  obtain ⟨run, -, tail, htail, rfl⟩ := Language.mem_mul.1 hv
  have hhead := begins_broken tail htail
  cases tail with
  | nil => cases hhead
  | cons c tail => exact ⟨c, by simp, hhead⟩

/-- A hexadecimal number has its mark. -/
theorem exists_hexMark {w : List Char} (h : w ∈ sign * hex) : ∃ c ∈ w, isHexMark c = true := by
  obtain ⟨u, -, v, hv, rfl⟩ := Language.mem_mul.1 h
  obtain ⟨z, ds, -, hds, rfl⟩ := mem_one_mul.1 hv
  obtain ⟨x, es, hx, -, rfl⟩ := mem_one_mul.1 hds
  exact ⟨x, by simp, hx⟩

theorem not_hexMark {c : Char} (h : isDecimalChar c = true ∨ isFloatChar c = true) :
    isHexMark c = false := by
  cases hc : isHexMark c with
  | false => rfl
  | true =>
    obtain rfl | rfl : c = 'x' ∨ c = 'X' := by simpa [isHexMark] using hc
    · exact absurd h (by decide)
    · exact absurd h (by decide)

theorem not_tailStart {c : Char} (h : isDecimalChar c = true) : isTailStart c = false := by
  cases hc : isTailStart c with
  | false => rfl
  | true => obtain rfl | rfl | rfl | rfl | rfl := tailStart_cases hc <;> exact absurd h (by decide)

/-- A text is a number of one kind only. -/
theorem kind_unique {w : List Char} {j k : TokenKind} (hj : w ∈ sign * alternative j)
    (hk : w ∈ sign * alternative k) : j = k := by
  have hmark : ∀ {L : Language Char} {p : Char → Bool}, Within p L →
      (∀ c, p c = true → isHexMark c = false) → w ∈ sign * hex → w ∉ L := by
    intro L p hwithin hp hhex hL
    obtain ⟨c, hc, hx⟩ := exists_hexMark hhex
    exact absurd (hx.symm.trans (hp c (hwithin w hL c hc))) (by decide)
  have hdecimal := hmark within_decimal fun c hc => not_hexMark (.inl hc)
  have hfloat := hmark within_float fun c hc => not_hexMark (.inr hc)
  have hpoint : w ∈ sign * float → w ∉ sign * decimal := by
    intro hw hd
    obtain ⟨c, hc, ht⟩ := exists_tailStart hw
    exact absurd (ht.symm.trans (not_tailStart (within_decimal w hd c hc))) (by decide)
  have hzero : w ∉ sign * (0 : Language Char) := by
    rw [mul_zero]
    exact Language.notMem_zero w
  cases j <;> cases k <;> first
    | rfl
    | exact absurd hj hzero
    | exact absurd hk hzero
    | exact absurd hk (hdecimal hj)
    | exact absurd hj (hdecimal hk)
    | exact absurd hk (hfloat hj)
    | exact absurd hj (hfloat hk)
    | exact absurd hk (hpoint hj)
    | exact absurd hj (hpoint hk)

theorem mem_of_alternative {k : TokenKind} {w : List Char} (h : w ∈ sign * alternative k) :
    w ∈ Numeral := by
  obtain ⟨u, hu, v, hv, rfl⟩ := Language.mem_mul.1 h
  refine Language.append_mem_mul hu ?_
  rw [Language.mem_add, Language.mem_add]
  cases k with
  | hexConst => exact .inl (.inl hv)
  | decimalConst => exact .inl (.inr hv)
  | floatConst => exact .inr hv
  | _ => exact absurd hv (Language.notMem_zero v)

end Numeral

/-! ## the token of a number -/

/-- A number begins: a digit, or a sign or a point in front of one. -/
def NumberStart (c : Char) (cs : List Char) : Prop :=
  isDigit c = true ∨ (c = '+' ∨ c = '-' ∨ c = '.') ∧ cs.head?.any isDigit = true

instance (c : Char) (cs : List Char) : Decidable (NumberStart c cs) :=
  inferInstanceAs (Decidable (_ ∨ _))

namespace NumberStart

variable {c : Char} {cs : List Char}

theorem not_name (h : NumberStart c cs) : isNameStart c = false := by
  rcases h with h | ⟨rfl | rfl | rfl, -⟩
  · simp only [isDigit, Bool.and_eq_true, decide_eq_true_eq] at h
    have habove : ∀ n : UInt32, 57 < n.toNat → ¬ n ≤ c.val := by
      intro n hn hle
      have hval : n.toNat ≤ c.toNat := UInt32.le_iff_toNat_le.1 hle
      omega
    have hupper : c.isUpper = false := decide_eq_false fun h => habove _ (by decide) h.1
    have hlower : c.isLower = false :=
      Bool.and_eq_false_iff.2 (.inl (decide_eq_false (habove _ (by decide))))
    have hscore : (c == '_') = false := by
      rw [beq_eq_false_iff_ne]
      rintro rfl
      exact absurd h (by decide)
    show ((c.isUpper || c.isLower) || c == '_') = false
    rw [hupper, hlower, hscore]
    rfl
  · rfl
  · rfl
  · rfl

theorem iff_class :
    NumberStart c cs ↔ (isDigit c || ((isSign c || c == '.') && cs.head?.any isDigit)) = true := by
  simp [NumberStart, isSign, or_assoc]

theorem scan (h : NumberStart c cs) : Lexeme.scan c cs = Lexeme.number (c :: cs) := by
  unfold Lexeme.scan
  rw [h.not_name, iff_class.1 h]
  rfl

theorem body (h : NumberStart c cs) :
    (splitSign (c :: cs)).2.head?.any (fun c => isDigit c || c == '.') = true := by
  have hhead : cs.head?.any isDigit = true →
      cs.head?.any (fun c => isDigit c || c == '.') = true := by
    cases cs with
    | nil => exact id
    | cons d cs => exact fun hd => Bool.or_eq_true_iff.2 (.inl hd)
  rcases h with h | ⟨rfl | rfl | rfl, h⟩
  · have hsign : (c :: cs).head?.any isSign = false := Numeral.isSign_of_isDigit h
    rw [Lexeme.splitSign_of_head hsign]
    exact Bool.or_eq_true_iff.2 (.inl h)
  · exact hhead h
  · exact hhead h
  · rfl

/-- The scanner of numbers takes the longest beginning that is one. -/
theorem longest (h : NumberStart c cs) : LongestPrefix Numeral (c :: cs) (numberText (c :: cs)).2.1 := by
  obtain ⟨hmem, hcovers⟩ := Numeral.numberText_longest h.body
  exact ⟨Numeral.mem_of_alternative hmem, ⟨_, Lexeme.numberText_append (c :: cs)⟩, hcovers⟩

end NumberStart

/-- A text that is a number is scanned as a whole, whatever its length. -/
theorem numberText_of_mem {c : Char} {cs : List Char} {kind : TokenKind} (hstart : NumberStart c cs)
    (h : c :: cs ∈ Numeral.sign * Numeral.alternative kind) :
    numberText (c :: cs) = (kind, c :: cs, []) := by
  obtain ⟨hmem, hcovers⟩ := Numeral.numberText_longest hstart.body
  have happend := Lexeme.numberText_append (c :: cs)
  obtain ⟨more, hmore⟩ := hcovers _ (Numeral.mem_of_alternative h) (List.prefix_refl _)
  rcases hn : numberText (c :: cs) with ⟨k, text, rest⟩
  simp only [hn] at hmem happend hmore
  obtain ⟨rfl, rfl⟩ : more = [] ∧ rest = [] := by
    have hlength := congrArg List.length happend
    have hlength' := congrArg List.length hmore
    simp only [List.length_append] at hlength hlength'
    exact ⟨List.eq_nil_of_length_eq_zero (by omega), List.eq_nil_of_length_eq_zero (by omega)⟩
  rw [List.append_nil] at happend
  subst happend
  rw [Numeral.kind_unique hmem h]

/-- Where a number begins, the token is the longest beginning of the text that is a number, of its one
kind; or that text is too long. -/
theorem lexAt_number_longest {lx : Lexer} {c : Char} {cs : List Char}
    (hrest : lx.cursor.rest = c :: cs) (hstart : NumberStart c cs) (unget : Position) :
    ∃ kind text rest, c :: cs = text ++ rest ∧ LongestPrefix Numeral (c :: cs) text ∧
      (∀ k, text ∈ Numeral.sign * Numeral.alternative k ↔ k = kind) ∧
      lx.lexAt unget = if maxNumber < Text.byteLength text then
          (.error ⟨.numberTooLong maxNumber, lx.cursor.position⟩, lx)
        else (.ok ⟨kind, String.ofList text, lx.cursor.position, unget⟩,
          { lx with cursor := lx.cursor.advance text rest 0 }) := by
  obtain ⟨hmem, -⟩ := Numeral.numberText_longest hstart.body
  have hlongest := hstart.longest
  have happend := Lexeme.numberText_append (c :: cs)
  have hscan := hstart.scan
  unfold Lexeme.number at hscan
  rcases hn : numberText (c :: cs) with ⟨kind, text, rest⟩
  simp only [hn] at hmem hlongest happend hscan
  refine ⟨kind, text, rest, happend.symm, hlongest,
    fun k => ⟨fun hk => Numeral.kind_unique hk hmem, fun hk => hk ▸ hmem⟩, ?_⟩
  unfold Lexer.lexAt
  by_cases hlong : maxNumber < Text.byteLength text
  · rw [if_pos hlong] at hscan
    simp only [hrest, hscan, if_pos hlong]
  · rw [if_neg hlong] at hscan
    simp only [hrest, hscan, if_neg hlong]

/-- A point, an exponent and a suffix follow the digits; a second digit behind the suffix does not
belong to the number. -/
theorem lexAt_number_sample :
    let lx := Lexer.ofSource "-0.e+05f5" ⟨true, false, false, true⟩
    let cs := "0.e+05f5".toList
    lx.cursor.rest = '-' :: cs ∧ NumberStart '-' cs ∧
      ∃ kind text rest, '-' :: cs = text ++ rest ∧ LongestPrefix Numeral ('-' :: cs) text ∧
        (∀ k, text ∈ Numeral.sign * Numeral.alternative k ↔ k = kind) ∧
        lx.lexAt Position.start = if maxNumber < Text.byteLength text then
            (.error ⟨.numberTooLong maxNumber, lx.cursor.position⟩, lx)
          else (.ok ⟨kind, String.ofList text, lx.cursor.position, Position.start⟩,
            { lx with cursor := lx.cursor.advance text rest 0 }) := by
  intro lx cs
  have hrest : lx.cursor.rest = '-' :: cs := by decide
  have hstart : NumberStart '-' cs := by decide
  exact ⟨hrest, hstart, lexAt_number_longest hrest hstart Position.start⟩

end HeaderLex
