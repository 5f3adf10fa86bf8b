import HeaderLex.Proofs.Provenance

/-!
# Properties that the routines inherit from their parts

The routines of the grammar are put together in few ways.  A property that all of these ways keep
holds of a routine as soon as it holds of what the routine runs for its caller.

* `Compositional`         a property of parsers that is kept by sequence, repetition and added state;
* `Compositional.locating`   it is a judgment of parsers for which every place is good;
* `Compositional.tryIf`, `Compositional.requireList`, ...   the routines, each from its parts;
* `Pervasive`             the property also holds of the three routines that catch an error or set a
                          checkpoint;
* `Grammar.Entry`         the routines of the grammar, with what their callers may hand them;
* `Pervasive.entry`       all of them have the property.
-/

namespace HeaderLex

open HeaderLex.Parser HeaderLex.Operation HeaderLex.Grammar

/-- The ways to put parsers together keep the property, and so do the parsers that the grammar
begins with. -/
structure Compositional (J : ∀ {υ α : Type}, Parser υ α → Prop) : Prop where
  pure : ∀ {υ α : Type} (a : α), J (Pure.pure a : Parser υ α)
  bind : ∀ {υ α β : Type} {p : Parser υ α} {f : α → Parser υ β},
    J p → (∀ a, J (f a)) → J (p >>= f)
  loop : ∀ {υ β γ : Type} {body : β → Parser υ (β ⊕ γ)},
    (∀ b, J (body b)) → ∀ b, J (Parser.loop body b)
  withState : ∀ {υ α β : Type} (init : β) {p : Parser (υ × β) α},
    J p → J (Parser.withState init p)
  peek : ∀ {υ : Type}, J (Parser.peek : Parser υ Token)
  consume : ∀ {υ : Type}, J (Parser.consume : Parser υ Unit)
  refuse : ∀ {υ α : Type} (e : SourceError), J (Operation.refuse e : Parser υ α)
  user : ∀ {υ : Type}, J (Parser.user : Parser υ υ)
  modifyUser : ∀ {υ : Type} (f : υ → υ), J (Parser.modifyUser f)
  push : ∀ {υ : Type} (list : TokenList) (t : Token),
    J (Parser.onArena (·.push list t) : Parser υ TokenList)

namespace Compositional

variable {J : ∀ {υ α : Type}, Parser υ α → Prop} (h : Compositional J) {υ α : Type}
include h

/-- A property that does not speak of places holds of the routines as such a judgment does. -/
theorem locating : Locating (fun _ => True) (fun {_ _} _ _ p => J p) where
  pure a _ := h.pure a
  bind hp hf := h.bind hp fun a => hf a fun _ _ => trivial
  loop _ _ _ hbody b _ := h.loop (fun b => hbody b fun _ _ => trivial) b
  withState init _ _ hp := h.withState init hp
  peek := h.peek
  consume := h.consume
  refuse e _ := h.refuse e
  user := h.user
  modifyUser f _ := h.modifyUser f
  push list t _ := h.push list t

theorem next : J (Parser.next : Parser υ Token) := h.locating.next nowhere

/-! ## single tokens -/

theorem tryIf (p : Token → Bool) : J (Grammar.tryIf p : Parser υ (Option Token)) :=
  h.locating.tryIf nowhere p

theorem requireIf (p : Token → Bool) (expected : String) (context : Option String) :
    J (Grammar.requireIf p expected context : Parser υ Token) :=
  h.locating.requireIf nowhere p expected context

theorem tryText (text : String) : J (Grammar.tryText text : Parser υ Bool) :=
  h.locating.tryText nowhere text

theorem tryMark (c : Char) : J (Grammar.tryMark c : Parser υ Bool) := h.locating.tryMark nowhere c

theorem optional (text : String) : J (Grammar.optional text : Parser υ Unit) :=
  h.locating.optional nowhere text

theorem optionalWith (text : String) {action : Parser υ Unit} (haction : J action) :
    J (Grammar.optionalWith text action) := h.locating.optionalWith nowhere text haction

theorem requireMark (c : Char) (context : Option String) :
    J (Grammar.requireMark c context : Parser υ Token) := h.requireIf _ _ _

theorem requireIdentifier (context : Option String) :
    J (Grammar.requireIdentifier context : Parser υ Token) := h.requireIf _ _ _

/-! ## lists and groups -/

theorem requireList (form : ListForm) {action : Parser υ Unit} (haction : J action) :
    J (Grammar.requireList form action) := h.locating.requireList nowhere form haction

theorem tryList (form : ListForm) {action : Parser υ Unit} (haction : J action) :
    J (Grammar.tryList form action) := h.locating.tryList nowhere form haction

theorem requireListTokens (form : ListForm) {action : List Token → Parser υ Unit}
    (haction : ∀ element, J (action element)) : J (Grammar.requireListTokens form action) :=
  h.locating.requireListTokens nowhere form fun element _ => haction element

theorem listElements (form : ListForm) :
    J (Grammar.listElements form : Parser υ (List (List Token))) :=
  h.locating.listElements nowhere form

theorem skipBalanced (opening closing : Char) (context : String) :
    J (Grammar.skipBalanced opening closing context : Parser υ (List Token)) :=
  h.locating.skipBalanced nowhere opening closing context

/-! ## constants -/

theorem tryDecoded (decode : Token → Option α) :
    J (Grammar.tryDecoded decode : Parser υ (Option α)) := h.locating.tryDecoded nowhere decode

theorem requireInt (context : Option String) :
    J (Grammar.requireInt context : Parser υ Int32) := h.locating.requireInt nowhere context

/-! ## qualified names -/

theorem pushToken (t : Token) : J (Grammar.pushToken t : Parser (υ × TokenList) Unit) :=
  h.locating.pushToken nowhere fun _ _ => trivial

theorem templateArguments : J (Grammar.templateArguments : Parser (υ × TokenList) Unit) :=
  h.locating.templateArguments nowhere

theorem segmentEnd :
    J (do
      let t ← Parser.peek
      if t.isOperator "::" then
        Parser.consume
        Grammar.pushToken t
        return false
      else return true : Parser (υ × TokenList) Bool) := h.locating.segmentEnd nowhere

theorem nameSegment (templates : Bool) :
    J (Grammar.nameSegment templates : Parser (υ × TokenList) Bool) :=
  h.locating.nameSegment nowhere templates

theorem nameTokens (templates : Bool) :
    J (Grammar.nameTokens templates : Parser (υ × TokenList) Unit) :=
  h.locating.nameTokens nowhere templates

theorem requireQualifiedName {templates : Bool}
    (hname : J (Grammar.tryQualifiedName templates : Parser υ (Option TokenList)))
    (context : Option String) :
    J (Grammar.requireQualifiedName templates context : Parser υ TokenList) :=
  h.locating.requireQualifiedName nowhere hname context

/-! ## specifiers -/

theorem tryDeprecation : J (Grammar.tryDeprecation : Parser υ (Option Deprecation)) :=
  h.locating.tryDeprecation nowhere

theorem tryAttributes : J (Grammar.tryAttributes : Parser υ (Option (List Attribute))) :=
  h.locating.tryAttributes nowhere

/-! ## skipped declarations -/

theorem skipTurn {warn : Warning → Parser υ Unit} (hwarn : ∀ w, J (warn w)) (s : SkipState) :
    J (Grammar.skipTurn warn s) :=
  h.locating.skipTurn nowhere (fun w _ => hwarn w) fun _ _ => trivial

theorem skipSemicolons (count : Nat) : J (Grammar.skipSemicolons count : Parser υ Nat) :=
  h.locating.skipSemicolons nowhere count

/-! ## routines with a signed constant in them -/

section

variable (hsigned : ∀ {υ α : Type} (decode : Token → Option α) (negate : α → α),
  J (Grammar.trySigned decode negate : Parser υ (Option α)))
include hsigned

theorem requireIntExpression (context : Option String) :
    J (Grammar.requireIntExpression context : Parser υ Int32) :=
  h.locating.requireIntExpression nowhere hsigned context

theorem tryAlignment : J (Grammar.tryAlignment : Parser υ (Option Int32)) :=
  h.locating.tryAlignment nowhere hsigned

theorem specifiers : J (Grammar.specifiers : Parser υ Specifiers) :=
  h.locating.specifiers nowhere hsigned

end

end Compositional

/-! ## all routines -/

/-- The property also holds of the parsers that the grammar builds from checkpoints and caught
errors, and of what it logs. -/
structure Pervasive (J : ∀ {υ α : Type}, Parser υ α → Prop) : Prop extends Compositional J where
  log : ∀ {υ : Type} (event : Event), event.isError = false →
    J (Operation.log event : Parser υ Unit)
  signed : ∀ {υ α : Type} (decode : Token → Option α) (negate : α → α),
    J (Grammar.trySigned decode negate : Parser υ (Option α))
  name : ∀ {υ : Type} (templates : Bool),
    J (Grammar.tryQualifiedName templates : Parser υ (Option TokenList))
  instanceName : ∀ {υ : Type}, J (Grammar.skipInstance : Parser υ Nat)

/-- The routines of the grammar.  What they run for their caller is `Ok`. -/
inductive Grammar.Entry (Ok : ∀ {υ α : Type}, Parser υ α → Prop) {υ : Type} :
    {α : Type} → Parser υ α → Prop
  | tryText (text : String) : Entry Ok (Grammar.tryText text)
  | tryMark (c : Char) : Entry Ok (Grammar.tryMark c)
  | tryAny (texts : List String) : Entry Ok (Grammar.tryAny texts)
  | optional (text : String) : Entry Ok (Grammar.optional text)
  | optionalWith (text : String) {action : Parser υ Unit} : Ok action →
      Entry Ok (Grammar.optionalWith text action)
  | requireText (text : String) (context : Option String) :
      Entry Ok (Grammar.requireText text context)
  | requireMark (c : Char) (context : Option String) : Entry Ok (Grammar.requireMark c context)
  | tryIdentifier : Entry Ok Grammar.tryIdentifier
  | requireIdentifier (context : Option String) : Entry Ok (Grammar.requireIdentifier context)
  | requireList (form : ListForm) {action : Parser υ Unit} : Ok action →
      Entry Ok (Grammar.requireList form action)
  | requireListTokens (form : ListForm) {action : List Token → Parser υ Unit} :
      (∀ element, Ok (action element)) → Entry Ok (Grammar.requireListTokens form action)
  | tryList (form : ListForm) {action : Parser υ Unit} : Ok action →
      Entry Ok (Grammar.tryList form action)
  | listElements (form : ListForm) : Entry Ok (Grammar.listElements form)
  | skipBalanced (opening closing : Char) (context : String) :
      Entry Ok (Grammar.skipBalanced opening closing context)
  | tryQualifiedName (templates : Bool) : Entry Ok (Grammar.tryQualifiedName templates)
  | requireQualifiedName (templates : Bool) (context : Option String) :
      Entry Ok (Grammar.requireQualifiedName templates context)
  | tryInt : Entry Ok Grammar.tryInt
  | tryLong : Entry Ok Grammar.tryLong
  | tryFloat : Entry Ok Grammar.tryFloat
  | tryDouble : Entry Ok Grammar.tryDouble
  | tryIntExpression : Entry Ok Grammar.tryIntExpression
  | tryLongExpression : Entry Ok Grammar.tryLongExpression
  | tryFloatExpression : Entry Ok Grammar.tryFloatExpression
  | tryDoubleExpression : Entry Ok Grammar.tryDoubleExpression
  | requireInt (context : Option String) : Entry Ok (Grammar.requireInt context)
  | requireIntExpression (context : Option String) : Entry Ok (Grammar.requireIntExpression context)
  | tryDeprecation : Entry Ok Grammar.tryDeprecation
  | tryMarker : Entry Ok Grammar.tryMarker
  | tryAttributes : Entry Ok Grammar.tryAttributes
  | tryAlignment : Entry Ok Grammar.tryAlignment
  | specifiers : Entry Ok Grammar.specifiers
  | skipDeclaration (first : Token) {warn : Warning → Parser υ Unit} : (∀ w, Ok (warn w)) →
      Entry Ok (Grammar.skipDeclaration first warn)

namespace Pervasive

variable {J : ∀ {υ α : Type}, Parser υ α → Prop} (h : Pervasive J) {υ α : Type}
include h

theorem covering : Covering (fun _ => True) (fun {_ _} _ _ p => J p) where
  toLocating := h.locating
  log := h.log
  signed := h.signed
  name := h.name
  instanceName := h.instanceName

theorem skipDeclaration (first : Token) {warn : Warning → Parser υ Unit}
    (hwarn : ∀ w, J (warn w)) : J (Grammar.skipDeclaration first warn) :=
  h.covering.skipDeclaration nowhere (fun _ _ => trivial) fun w _ => hwarn w

theorem entry {p : Parser υ α} (hp : Entry J p) : J p := by
  cases hp with
  | tryText text => exact h.tryText text
  | tryMark c => exact h.tryMark c
  | tryAny texts => exact h.tryIf _
  | optional text => exact h.optional text
  | optionalWith text haction => exact h.optionalWith text haction
  | requireText text context => exact h.requireIf _ _ _
  | requireMark c context => exact h.requireMark c context
  | tryIdentifier => exact h.tryIf _
  | requireIdentifier context => exact h.requireIdentifier context
  | requireList form haction => exact h.requireList form haction
  | requireListTokens form haction => exact h.requireListTokens form haction
  | tryList form haction => exact h.tryList form haction
  | listElements form => exact h.listElements form
  | skipBalanced opening closing context => exact h.skipBalanced opening closing context
  | tryQualifiedName templates => exact h.name templates
  | requireQualifiedName templates context => exact h.requireQualifiedName (h.name templates) context
  | tryInt | tryLong | tryFloat | tryDouble | tryMarker => exact h.tryDecoded _
  | tryIntExpression | tryLongExpression | tryFloatExpression | tryDoubleExpression =>
    exact h.signed _ _
  | requireInt context => exact h.requireInt context
  | requireIntExpression context => exact h.requireIntExpression h.signed context
  | tryDeprecation => exact h.tryDeprecation
  | tryAttributes => exact h.tryAttributes
  | tryAlignment => exact h.tryAlignment h.signed
  | specifiers => exact h.specifiers h.signed
  | skipDeclaration first hwarn => exact h.skipDeclaration first hwarn

end Pervasive

end HeaderLex
