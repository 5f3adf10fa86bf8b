import HeaderLex.Grammar.Group

/-!
# Nested brackets

Round, square and curly brackets nest.  The routines keep the brackets that are still to be closed on
a stack; what a stack accepts is what is properly nested.

* `Token.edges`       the brackets that a token opens or closes;
* `Nested`            properly nested brackets, as a grammar;
* `Edge.after`        the brackets that are open after some edges;
* `nested_iff_after`  nested is what opens nothing and leaves nothing open;
* `edges_cases`       the edges of a token, and what the routines make of it.
-/

namespace HeaderLex

open HeaderLex.Grammar

inductive Bracket where
  | round
  | square
  | curly
deriving DecidableEq, Repr

namespace Bracket

def opener : Bracket → Char
  | round => '('
  | square => '['
  | curly => '{'

def closer : Bracket → Char
  | round => ')'
  | square => ']'
  | curly => '}'

end Bracket

/-- One bracket in a text. -/
inductive Edge where
  | opening (b : Bracket)
  | closing (b : Bracket)
deriving DecidableEq, Repr

/-- The brackets of a token, in order; the symbol of two square brackets opens two. -/
def Token.edges (t : Token) : List Edge :=
  if t.isMark '(' then [.opening .round]
  else if t.isMark ')' then [.closing .round]
  else if t.isMark '[' then [.opening .square]
  else if t.isOperator "[[" then [.opening .square, .opening .square]
  else if t.isMark ']' then [.closing .square]
  else if t.isMark '{' then [.opening .curly]
  else if t.isMark '}' then [.closing .curly]
  else []

/-- Properly nested brackets. -/
inductive Nested : List Edge → Prop
  | nil : Nested []
  | wrap (b : Bracket) {inner rest : List Edge} : Nested inner → Nested rest →
      Nested (.opening b :: inner ++ .closing b :: rest)

/-! ## what a stack accepts -/

namespace Edge

/-- The open brackets, innermost first, after one more edge. -/
def step : Edge → List Bracket → Option (List Bracket)
  | opening b, pending => some (b :: pending)
  | closing _, [] => none
  | closing b, c :: pending => if b = c then some pending else none

/-- The open brackets after some edges. -/
def after : List Bracket → List Edge → Option (List Bracket)
  | pending, [] => some pending
  | pending, e :: es => (e.step pending).bind (after · es)

theorem after_append (pending : List Bracket) (es fs : List Edge) :
    after pending (es ++ fs) = (after pending es).bind (after · fs) := by
  induction es generalizing pending with
  | nil => rfl
  | cons e es ih =>
    show (e.step pending).bind _ = ((e.step pending).bind _).bind _
    rw [Option.bind_assoc]
    exact congrArg _ (funext ih)

end Edge

theorem Nested.append {es fs : List Edge} (hes : Nested es) (hfs : Nested fs) :
    Nested (es ++ fs) := by
  induction hes with
  | nil => exact hfs
  | @wrap b inner rest hinner _ _ ih =>
    rw [List.append_assoc, List.cons_append]
    exact .wrap b hinner ih

/-- Nested brackets leave the open ones as they were. -/
theorem Nested.after {es : List Edge} (h : Nested es) (pending : List Bracket) :
    Edge.after pending es = some pending := by
  induction h generalizing pending with
  | nil => rfl
  | @wrap b inner rest _ _ ihinner ihrest =>
    show Edge.after (b :: pending) (inner ++ .closing b :: rest) = _
    rw [Edge.after_append, ihinner]
    show ((Edge.closing b).step (b :: pending)).bind _ = _
    rw [Edge.step, if_pos rfl]
    exact ihrest pending

/-- What the open brackets demand: nested brackets before each of their ends, and after the last. -/
inductive Closes : List Bracket → List Edge → Prop
  | nil {es : List Edge} : Nested es → Closes [] es
  | cons (b : Bracket) {pending : List Bracket} {inner rest : List Edge} : Nested inner →
      Closes pending rest → Closes (b :: pending) (inner ++ .closing b :: rest)

theorem Closes.prepend {pending : List Bracket} {es fs : List Edge} (hes : Nested es)
    (h : Closes pending fs) : Closes pending (es ++ fs) := by
  cases h with
  | nil hfs => exact .nil (hes.append hfs)
  | cons b hinner hrest =>
    rw [← List.append_assoc]
    exact .cons b (hes.append hinner) hrest

theorem closes_of_after {pending : List Bracket} {es : List Edge}
    (h : Edge.after pending es = some []) : Closes pending es := by
  induction es generalizing pending with
  | nil =>
    obtain rfl : pending = [] := Option.some.inj h
    exact .nil .nil
  | cons e es ih =>
    obtain ⟨next, hstep, hrest⟩ := Option.bind_eq_some_iff.mp h
    cases e with
    | opening b =>
      obtain rfl : b :: pending = next := Option.some.inj hstep
      cases ih hrest with
      | cons _ hinner hclosed =>
        simpa using hclosed.prepend (.wrap b hinner .nil)
    | closing b =>
      cases pending with
      | nil => cases hstep
      | cons c pending =>
        rw [Edge.step] at hstep
        split at hstep
        · next hbc =>
          subst hbc
          obtain rfl : pending = next := Option.some.inj hstep
          exact .cons b .nil (ih hrest)
        · cases hstep

theorem nested_iff_after {es : List Edge} : Nested es ↔ Edge.after [] es = some [] := by
  constructor
  · intro h
    exact h.after []
  · intro h
    cases closes_of_after h with
    | nil hes => exact hes

/-! ## the brackets of a token -/

/-- What a token is to the routines, by its edges. -/
inductive Token.Edged (t : Token) : Prop
  | plain : t.edges = [] → closersOf t = [] → isCloser t = false → Edged t
  | one (b : Bracket) : t.edges = [.opening b] → closersOf t = [b.closer] → isCloser t = false →
      Edged t
  | two (b : Bracket) : t.edges = [.opening b, .opening b] → closersOf t = [b.closer, b.closer] →
      isCloser t = false → Edged t
  | close (b : Bracket) : t.edges = [.closing b] → isCloser t = true →
      (∀ c : Bracket, t.isMark c.closer = decide (b = c)) → Edged t

theorem Token.eq_of_isOperator {t : Token} {text : String} (h : t.isOperator text = true) :
    t = ⟨.symbol, text, t.start, t.unget⟩ := by
  obtain ⟨kind, value, start, unget⟩ := t
  simp only [isOperator, isSymbol, Bool.and_eq_true, beq_iff_eq] at h
  rw [h.1, h.2]

theorem Token.edged (t : Token) : t.Edged := by
  by_cases round : t.isMark '('
  · rw [eq_of_isOperator round]
    exact .one .round rfl rfl rfl
  by_cases square : t.isMark '['
  · rw [eq_of_isOperator square]
    exact .one .square rfl rfl rfl
  by_cases double : t.isOperator "[["
  · rw [eq_of_isOperator double]
    exact .two .square rfl rfl rfl
  by_cases curly : t.isMark '{'
  · rw [eq_of_isOperator curly]
    exact .one .curly rfl rfl rfl
  by_cases round' : t.isMark ')'
  · rw [eq_of_isOperator round']
    exact .close .round rfl rfl fun c => by cases c <;> rfl
  by_cases square' : t.isMark ']'
  · rw [eq_of_isOperator square']
    exact .close .square rfl rfl fun c => by cases c <;> rfl
  by_cases curly' : t.isMark '}'
  · rw [eq_of_isOperator curly']
    exact .close .curly rfl rfl fun c => by cases c <;> rfl
  · exact .plain (by simp [edges, *]) (by simp [closersOf, *]) (by simp [isCloser, *])

/-- The closers still to come stand for the open brackets: after a token that fits. -/
theorem nextClosers_of_after {υ : Type} (form : ListForm) {t : Token} {pending next : List Bracket}
    (h : Edge.after pending t.edges = some next) :
    (nextClosers form (pending.map Bracket.closer) t : Parser υ (List Char))
      = pure (next.map Bracket.closer) := by
  unfold nextClosers
  cases t.edged with
  | plain hedges hclosers hcloser =>
    rw [hedges] at h
    obtain rfl : pending = next := Option.some.inj h
    simp [hcloser, hclosers]
  | one b hedges hclosers hcloser =>
    rw [hedges] at h
    obtain rfl : b :: pending = next := Option.some.inj h
    simp [hcloser, hclosers]
  | two b hedges hclosers hcloser =>
    rw [hedges] at h
    obtain rfl : b :: b :: pending = next := Option.some.inj h
    simp [hcloser, hclosers]
  | close b hedges hcloser hmark =>
    rw [hedges] at h
    cases pending with
    | nil => cases h
    | cons c pending =>
      by_cases hbc : b = c
      · subst hbc
        simp only [Edge.after, Edge.step, if_true, Option.bind_some, Option.some.injEq] at h
        subst h
        simp [hcloser, hmark]
      · simp [Edge.after, Edge.step, hbc] at h

/-- A token that does not fit is refused. -/
theorem nextClosers_of_none {υ : Type} (form : ListForm) {t : Token} {pending : List Bracket}
    (h : Edge.after pending t.edges = none) :
    ∃ expected, (nextClosers form (pending.map Bracket.closer) t : Parser υ (List Char))
      = unexpected expected t form.context := by
  unfold nextClosers
  cases t.edged with
  | plain hedges | one b hedges | two b hedges =>
    rw [hedges] at h
    cases h
  | close b hedges hcloser hmark =>
    rw [hedges] at h
    cases pending with
    | nil => exact ⟨_, by simp [hcloser]; rfl⟩
    | cons c pending =>
      by_cases hbc : b = c
      · simp [Edge.after, Edge.step, hbc] at h
      · exact ⟨_, by simp [hcloser, hmark, hbc]; rfl⟩

end HeaderLex
