import HeaderLex.Grammar.Declaration
import HeaderLex.Grammar.QualifiedName
import HeaderLex.Grammar.Specifier

/-!
# The places that a routine speaks of

The routines of the grammar report their errors at tokens that they have seen, and hand on tokens that
they have seen.  So what holds of the places of every token that a stream shows holds of the places in
all that a routine gives, and of the places of its errors.

* `Token.places`, `nowhere`, `both`   the places in a value;
* `Locating`              a judgment of parsers with the places in the caller's state and in the result;
* `Locating.tryIf`, `Locating.requireList`, ...   the routines, each from its parts;
* `Grammar.Routine`       the routines with the places in their results, and with what their callers
                          may hand them.
-/

namespace HeaderLex

open HeaderLex.Parser HeaderLex.Operation HeaderLex.Grammar

/-! ## places in values -/

/-- The place behind the token, on the line on which it starts. -/
def Token.behind (t : Token) : Position :=
  ⟨t.start.offset + Text.byteLength t.value.toList, t.start.line⟩

def Token.places (t : Token) : List Position := [t.start, t.behind]

/-- A value without a place. -/
def nowhere {α : Type} : α → List Position := fun _ => []

/-- The places in a pair. -/
def both {α β : Type} (f : α → List Position) (g : β → List Position) : α × β → List Position :=
  fun x => f x.1 ++ g x.2

/-- The places in a result, or the one of an error. -/
def handedPlaces {α : Type} (f : α → List Position) : Except SourceError α → List Position
  | .ok a => f a
  | .error e => [e.position]

/-- The places of some tokens. -/
def placesOf (ts : List Token) : List Position := ts.flatMap Token.places

/-- The places of a token, if there is one. -/
def placesOf? (t : Option Token) : List Position := placesOf t.toList

theorem Token.start_mem_places (t : Token) : t.start ∈ t.places := List.mem_cons_self

section

variable {Good : Position → Prop}

theorem forall_both {α β : Type} {f : α → List Position} {g : β → List Position} {a : α} {b : β} :
    (∀ q ∈ both f g (a, b), Good q) ↔ (∀ q ∈ f a, Good q) ∧ ∀ q ∈ g b, Good q :=
  List.forall_mem_append

theorem forall_nowhere {α : Type} (a : α) : ∀ q ∈ nowhere a, Good q :=
  fun _ hq => absurd hq List.not_mem_nil

theorem forall_placesOf {ts : List Token} :
    (∀ q ∈ placesOf ts, Good q) ↔ ∀ t ∈ ts, ∀ q ∈ t.places, Good q := by
  unfold placesOf
  rw [List.forall_mem_flatMap]

theorem forall_placesOf_snoc {ts : List Token} {t : Token} (hts : ∀ q ∈ placesOf ts, Good q)
    (ht : ∀ q ∈ t.places, Good q) : ∀ q ∈ placesOf (ts ++ [t]), Good q := by
  rw [forall_placesOf] at hts ⊢
  rw [List.forall_mem_append]
  exact ⟨hts, List.forall_mem_singleton.2 ht⟩

end

/-! ## judgments -/

/-- A judgment of parsers with the places in the caller's state and the places in the result.  If all
places in the state are good, so are the places in the result and those of errors: the tokens of the
stream have good places, and an error is only made at a good one. -/
structure Locating (Good : Position → Prop)
    (J : ∀ {υ α : Type}, (υ → List Position) → (α → List Position) → Parser υ α → Prop) : Prop where
  pure : ∀ {υ α : Type} {held : υ → List Position} {places : α → List Position} (a : α),
    (∀ q ∈ places a, Good q) → J held places (Pure.pure a : Parser υ α)
  bind : ∀ {υ α β : Type} {held : υ → List Position} {places : α → List Position}
    {places' : β → List Position} {p : Parser υ α} {f : α → Parser υ β},
    J held places p → (∀ a, (∀ q ∈ places a, Good q) → J held places' (f a)) →
      J held places' (p >>= f)
  loop : ∀ {υ β γ : Type} {held : υ → List Position} (kept : β → List Position)
    (places : γ → List Position) {body : β → Parser υ (β ⊕ γ)},
    (∀ b, (∀ q ∈ kept b, Good q) → J held (Sum.elim kept places) (body b)) →
      ∀ b, (∀ q ∈ kept b, Good q) → J held places (Parser.loop body b)
  withState : ∀ {υ α β : Type} {held : υ → List Position} {more : β → List Position}
    {places : α → List Position} (init : β) {p : Parser (υ × β) α},
    (∀ q ∈ more init, Good q) → J (both held more) places p →
      J held (both places more) (Parser.withState init p)
  peek : ∀ {υ : Type} {held : υ → List Position},
    J held Token.places (Parser.peek : Parser υ Token)
  consume : ∀ {υ : Type} {held : υ → List Position}, J held nowhere (Parser.consume : Parser υ Unit)
  refuse : ∀ {υ α : Type} {held : υ → List Position} {places : α → List Position} (e : SourceError),
    Good e.position → J held places (Operation.refuse e : Parser υ α)
  user : ∀ {υ : Type} {held : υ → List Position}, J held held (Parser.user : Parser υ υ)
  modifyUser : ∀ {υ : Type} {held : υ → List Position} (f : υ → υ),
    (∀ u, (∀ q ∈ held u, Good q) → ∀ q ∈ held (f u), Good q) →
      J held nowhere (Parser.modifyUser f)
  push : ∀ {υ : Type} {held : υ → List Position} (list : TokenList) (t : Token),
    (∀ q ∈ t.places, Good q) → J held nowhere (Parser.onArena (·.push list t) : Parser υ TokenList)

namespace Locating

variable {Good : Position → Prop}
  {J : ∀ {υ α : Type}, (υ → List Position) → (α → List Position) → Parser υ α → Prop}
  (h : Locating Good J) {υ α : Type} (held : υ → List Position) {places : α → List Position}
include h

/-- A result without places. -/
theorem done (a : α) (hnone : places a = []) : J held places (Pure.pure a : Parser υ α) := by
  apply h.pure
  rw [hnone]
  exact List.forall_mem_nil _

theorem next : J held Token.places (Parser.next : Parser υ Token) :=
  h.bind h.peek fun t ht => h.bind h.consume fun _ _ => h.pure t ht

theorem unexpected (expected : String) {t : Token} (ht : ∀ q ∈ t.places, Good q)
    (context : Option String) : J held places (Grammar.unexpected expected t context : Parser υ α) :=
  h.refuse _ (ht _ t.start_mem_places)

/-! ## single tokens -/

theorem tryIf (p : Token → Bool) :
    J held placesOf? (Grammar.tryIf p : Parser υ (Option Token)) := by
  apply h.bind h.peek
  intro t ht
  split
  · refine h.bind h.consume fun _ _ => h.pure (some t) ?_
    exact forall_placesOf.2 (List.forall_mem_singleton.2 ht)
  · exact h.done held none rfl

theorem requireIf (p : Token → Bool) (expected : String) (context : Option String) :
    J held Token.places (Grammar.requireIf p expected context : Parser υ Token) := by
  apply h.bind h.peek
  intro t ht
  split
  · exact h.bind h.consume fun _ _ => h.pure t ht
  · exact h.unexpected held expected ht context

theorem tryText (text : String) : J held nowhere (Grammar.tryText text : Parser υ Bool) :=
  h.bind (h.tryIf held _) fun _ _ => h.done held _ rfl

theorem tryMark (c : Char) : J held nowhere (Grammar.tryMark c : Parser υ Bool) :=
  h.bind (h.tryIf held _) fun _ _ => h.done held _ rfl

theorem optional (text : String) : J held nowhere (Grammar.optional text : Parser υ Unit) :=
  h.bind (h.tryText held text) fun _ _ => h.done held () rfl

theorem optionalWith (text : String) {action : Parser υ Unit} (haction : J held nowhere action) :
    J held nowhere (Grammar.optionalWith text action) := by
  apply h.bind (h.tryText held text)
  intro found _
  split
  · exact h.bind haction fun _ _ => h.done held true rfl
  · exact h.done held false rfl

theorem requireMark (c : Char) (context : Option String) :
    J held Token.places (Grammar.requireMark c context : Parser υ Token) := h.requireIf held _ _ _

theorem requireIdentifier (context : Option String) :
    J held Token.places (Grammar.requireIdentifier context : Parser υ Token) :=
  h.requireIf held _ _ _

/-! ## lists and groups -/

theorem listTurn (form : ListForm) {action : Parser υ Unit} (haction : J held nowhere action) :
    J held nowhere (Grammar.listTurn form action) := by
  apply h.bind haction
  intro _ _
  apply h.bind (h.tryMark held form.closing)
  intro closed _
  split
  · exact h.done held true rfl
  · apply h.bind h.peek
    intro t ht
    split
    · exact h.unexpected held _ ht _
    · apply h.bind h.consume
      intro _ _
      apply h.bind h.peek
      intro t ht
      split
      · split
        · exact h.bind h.consume fun _ _ => h.done held true rfl
        · exact h.unexpected held _ ht _
      · exact h.done held false rfl

theorem requireList (form : ListForm) {action : Parser υ Unit} (haction : J held nowhere action) :
    J held nowhere (Grammar.requireList form action) := by
  apply h.bind (h.requireMark held form.opening form.context)
  intro _ _
  apply h.bind (h.tryMark held form.closing)
  intro closed _
  split
  · exact h.done held () rfl
  · refine h.loop nowhere nowhere ?_ () (forall_nowhere ())
    intro _ _
    apply h.bind (h.listTurn held form haction)
    intro last _
    split <;> exact h.done held _ rfl

theorem tryList (form : ListForm) {action : Parser υ Unit} (haction : J held nowhere action) :
    J held nowhere (Grammar.tryList form action) := by
  apply h.bind h.peek
  intro t _
  split
  · exact h.bind (h.requireList held form haction) fun _ _ => h.done held true rfl
  · exact h.done held false rfl

theorem nextClosers (form : ListForm) (closers : List Char) {t : Token}
    (ht : ∀ q ∈ t.places, Good q) :
    J held nowhere (Grammar.nextClosers form closers t : Parser υ (List Char)) := by
  unfold Grammar.nextClosers
  split
  · split
    · split
      · exact h.done held _ rfl
      · exact h.unexpected held _ ht _
    · exact h.unexpected held _ ht _
  · exact h.done held _ rfl

theorem listElement (form : ListForm) :
    J held placesOf (Grammar.listElement form : Parser υ (List Token)) := by
  refine h.bind (h.loop (placesOf ∘ Prod.fst) placesOf ?_ _ (List.forall_mem_nil _)) ?_
  · rintro ⟨tokens, closers⟩ htokens
    apply h.bind h.peek
    intro t ht
    split
    · exact h.unexpected held _ ht _
    · split
      · exact h.pure _ htokens
      · apply h.bind (h.nextClosers held form closers ht)
        intro closers _
        exact h.bind h.consume fun _ _ => h.pure _ (forall_placesOf_snoc htokens ht)
  · intro tokens htokens
    split
    · exact h.bind h.peek fun t ht => h.unexpected held _ ht _
    · exact h.pure tokens htokens

theorem requireListTokens (form : ListForm) {action : List Token → Parser υ Unit}
    (haction : ∀ element, (∀ q ∈ placesOf element, Good q) → J held nowhere (action element)) :
    J held nowhere (Grammar.requireListTokens form action) :=
  h.requireList held form (h.bind (h.listElement held form) haction)

theorem listElements (form : ListForm) : J held (List.flatMap placesOf)
    (Grammar.listElements form : Parser υ (List (List Token))) := by
  have hcollect : ∀ element, (∀ q ∈ placesOf element, Good q) →
      J (both held (List.flatMap placesOf)) nowhere
        (Parser.modifyUser fun x => (x.1, x.2 ++ [element])) := by
    intro element helement
    apply h.modifyUser
    rintro ⟨u, elements⟩ hu
    obtain ⟨hheld, helements⟩ := forall_both.1 hu
    refine forall_both.2 ⟨hheld, ?_⟩
    rw [List.flatMap_append, List.forall_mem_append]
    exact ⟨helements, by rwa [List.flatMap_singleton]⟩
  refine h.bind (h.withState [] (List.forall_mem_nil _) (h.requireListTokens _ form hcollect)) ?_
  rintro ⟨_, elements⟩ helements
  exact h.pure elements (forall_both.1 helements).2

theorem skipBalanced (opening closing : Char) (context : String) :
    J held placesOf (Grammar.skipBalanced opening closing context : Parser υ (List Token)) := by
  apply h.bind (h.requireMark held opening (some context))
  intro start hstart
  refine h.loop (placesOf ∘ Prod.fst) placesOf ?_ _ (List.forall_mem_nil _)
  rintro ⟨inner, depth⟩ hinner
  apply h.bind (h.next held)
  intro t ht
  have hmore : ∀ q ∈ placesOf (inner ++ [t]), Good q := forall_placesOf_snoc hinner ht
  split
  · exact h.refuse _ (hstart _ start.start_mem_places)
  · split
    · exact h.pure _ hmore
    · split
      · split
        · exact h.pure _ hinner
        · exact h.pure _ hmore
      · exact h.pure _ hmore

/-! ## constants -/

theorem tryDecoded (decode : Token → Option α) :
    J held nowhere (Grammar.tryDecoded decode : Parser υ (Option α)) := by
  apply h.bind h.peek
  intro t _
  split
  · exact h.bind h.consume fun _ _ => h.done held _ rfl
  · exact h.done held none rfl

theorem missingInt (context : Option String) :
    J held nowhere (Grammar.missingInt context : Parser υ α) := by
  apply h.bind h.peek
  intro t ht
  split
  · exact h.refuse _ (ht _ t.start_mem_places)
  · exact h.unexpected held _ ht context

theorem requireInt (context : Option String) :
    J held nowhere (Grammar.requireInt context : Parser υ Int32) := by
  apply h.bind (h.tryDecoded held Token.int?)
  rintro (_ | v) _
  · exact h.missingInt held context
  · exact h.done held v rfl

/-! ## qualified names -/

theorem pushToken {t : Token} (ht : ∀ q ∈ t.places, Good q) :
    J (both held nowhere) nowhere (Grammar.pushToken t : Parser (υ × TokenList) Unit) := by
  apply h.bind h.user
  rintro ⟨_, list⟩ _
  apply h.bind (h.push list t ht)
  intro list _
  apply h.modifyUser
  rintro ⟨u, _⟩ hu
  exact forall_both.2 ⟨(forall_both.1 hu).1, forall_nowhere list⟩

theorem templateArguments :
    J (both held nowhere) nowhere (Grammar.templateArguments : Parser (υ × TokenList) Unit) := by
  apply h.bind (h.next _)
  intro start hstart
  apply h.bind (h.pushToken held hstart)
  intro _ _
  refine h.loop nowhere nowhere ?_ 0 (forall_nowhere 0)
  intro depth _
  apply h.bind h.peek
  intro t ht
  split
  · exact h.refuse _ (hstart _ start.start_mem_places)
  · apply h.bind h.consume
    intro _ _
    apply h.bind (h.pushToken held ht)
    intro _ _
    split
    · exact h.done _ _ rfl
    · split
      · split <;> exact h.done _ _ rfl
      · exact h.done _ _ rfl

/-- The scope operator after a segment. -/
theorem segmentEnd :
    J (both held nowhere) nowhere (do
      let t ← Parser.peek
      if t.isOperator "::" then
        Parser.consume
        Grammar.pushToken t
        return false
      else return true : Parser (υ × TokenList) Bool) := by
  apply h.bind h.peek
  intro t ht
  split
  · apply h.bind h.consume
    intro _ _
    exact h.bind (h.pushToken held ht) fun _ _ => h.done _ false rfl
  · exact h.done _ true rfl

theorem nameSegment (templates : Bool) :
    J (both held nowhere) nowhere (Grammar.nameSegment templates : Parser (υ × TokenList) Bool) := by
  apply h.bind (h.requireIdentifier _ _)
  intro name hname
  apply h.bind (h.pushToken held hname)
  intro _ _
  split
  · apply h.bind h.peek
    intro t _
    split
    · exact h.bind (h.templateArguments held) fun _ _ => h.segmentEnd held
    · exact h.segmentEnd held
  · exact h.segmentEnd held

theorem nameTokens (templates : Bool) :
    J (both held nowhere) nowhere (Grammar.nameTokens templates : Parser (υ × TokenList) Unit) := by
  have hsegments : J (both held nowhere) nowhere (Parser.loop (fun _ => do
      if ← Grammar.nameSegment templates then return .inr () else return .inl ()) ()
        : Parser (υ × TokenList) Unit) := by
    refine h.loop nowhere nowhere ?_ () (forall_nowhere ())
    intro _ _
    apply h.bind (h.nameSegment held templates)
    intro last _
    split <;> exact h.done _ _ rfl
  apply h.bind h.peek
  intro t ht
  split
  · apply h.bind h.consume
    intro _ _
    exact h.bind (h.pushToken held ht) fun _ _ => hsegments
  · exact hsegments

theorem requireQualifiedName {templates : Bool}
    (hname : J held nowhere (Grammar.tryQualifiedName templates : Parser υ (Option TokenList)))
    (context : Option String) :
    J held nowhere (Grammar.requireQualifiedName templates context : Parser υ TokenList) := by
  apply h.bind hname
  rintro (_ | list) _
  · exact h.bind h.peek fun t ht => h.unexpected held _ ht context
  · exact h.done held list rfl

/-! ## specifiers -/

theorem tryDeprecation :
    J held nowhere (Grammar.tryDeprecation : Parser υ (Option Deprecation)) := by
  apply h.bind h.peek
  intro t _
  split
  · exact h.done held none rfl
  · apply h.bind h.consume
    intro _ _
    apply h.bind h.peek
    intro t _
    split
    · exact h.bind (h.listElements held _) fun _ _ => h.done held _ rfl
    · exact h.done held _ rfl

/-- The arguments of an attribute, if it has some. -/
theorem attributeEnd (f : Option String → Attribute) :
    J held nowhere (do
      if (← Parser.peek).isMark '(' then
        return f (some (joinValues (← Grammar.skipBalanced '(' ')' "attribute arguments")))
      else return f none : Parser υ Attribute) := by
  apply h.bind h.peek
  intro t _
  split
  · exact h.bind (h.skipBalanced held '(' ')' _) fun _ _ => h.done held _ rfl
  · exact h.done held _ rfl

theorem oneAttribute (scope : Option String) :
    J held nowhere (Grammar.oneAttribute scope : Parser υ Attribute) := by
  apply h.bind (h.requireIdentifier held _)
  intro first _
  apply h.bind h.peek
  intro t _
  split
  · apply h.bind h.consume
    intro _ _
    apply h.bind (h.requireIdentifier held _)
    intro second _
    exact h.attributeEnd held fun arguments => ⟨some first.value, second.value, arguments⟩
  · exact h.attributeEnd held fun arguments => ⟨scope, first.value, arguments⟩

theorem attributeScope : J held nowhere (Grammar.attributeScope : Parser υ (Option String)) := by
  apply h.bind h.peek
  intro t _
  split
  · apply h.bind h.consume
    intro _ _
    apply h.bind (h.requireIdentifier held _)
    intro scope _
    exact h.bind (h.requireMark held ':' _) fun _ _ => h.done held _ rfl
  · exact h.done held none rfl

/-- The two brackets that close an attribute list. -/
theorem attributesEnd (attributes : List Attribute) :
    J held nowhere (do
      let _ ← Grammar.requireMark ']' (some "attribute list")
      let _ ← Grammar.requireMark ']' (some "attribute list")
      return some attributes : Parser υ (Option (List Attribute))) :=
  h.bind (h.requireMark held ']' _) fun _ _ =>
    h.bind (h.requireMark held ']' _) fun _ _ => h.done held _ rfl

theorem tryAttributes :
    J held nowhere (Grammar.tryAttributes : Parser υ (Option (List Attribute))) := by
  apply h.bind h.peek
  intro t _
  split
  · apply h.bind h.consume
    intro _ _
    apply h.bind (h.attributeScope held)
    intro scope _
    apply h.bind h.peek
    intro t _
    split
    · exact h.attributesEnd held []
    · refine h.bind (h.loop nowhere nowhere ?_ [] (forall_nowhere [])) fun attributes _ =>
        h.attributesEnd held attributes
      intro attributes _
      apply h.bind (h.oneAttribute held scope)
      intro one _
      apply h.bind (h.tryMark held ',')
      intro more _
      split <;> exact h.done held _ rfl
  · exact h.done held none rfl

/-! ## skipped declarations -/

theorem skipOn (s : SkipState) : J held (Sum.elim (fun s => s.token.places) nowhere)
    (Grammar.skipOn s : Parser υ (SkipState ⊕ SkipOutcome)) := by
  apply h.bind (h.next held)
  intro t ht
  split
  · split
    · exact h.refuse _ (ht _ t.start_mem_places)
    · exact h.done held _ rfl
  · exact h.pure _ ht

theorem skipClosed (s : SkipState) : J held (Sum.elim (fun s => s.token.places) nowhere)
    (Grammar.skipClosed s : Parser υ (SkipState ⊕ SkipOutcome)) := by
  unfold Grammar.skipClosed
  split
  · apply h.bind h.peek
    intro t _
    split
    · exact h.bind (h.next held) fun t ht => h.pure _ ht
    · exact h.done held _ rfl
  · exact h.done held _ rfl

/-- A warning comes before the token is looked at. -/
theorem warned {warn : Warning → Parser υ Unit} {t : Token} (ht : ∀ q ∈ t.places, Good q)
    (hwarn : ∀ w : Warning, Good w.position → J held nowhere (warn w)) {p : Parser υ α}
    (hp : J held places p) :
    J held places
      (match skipWarning? t with
        | some w => warn w >>= fun _ => p
        | _ => p) := by
  cases hw : skipWarning? t with
  | some w =>
    refine h.bind (hwarn w ?_) fun _ _ => hp
    unfold skipWarning? at hw
    split at hw
    · obtain rfl := Option.some.inj hw
      exact ht _ t.start_mem_places
    · cases hw
  | none => exact hp

theorem skipTurn {warn : Warning → Parser υ Unit}
    (hwarn : ∀ w : Warning, Good w.position → J held nowhere (warn w)) {s : SkipState}
    (hs : ∀ q ∈ s.token.places, Good q) :
    J held (Sum.elim (fun s => s.token.places) nowhere) (Grammar.skipTurn warn s) := by
  apply h.warned held hs hwarn
  split
  · exact h.skipOn held _
  · split
    · split
      · exact h.refuse _ (hs _ s.token.start_mem_places)
      · split
        · exact h.skipClosed held _
        · exact h.skipOn held _
    · split
      · exact h.done held _ rfl
      · exact h.skipOn held _

theorem skipSemicolons (count : Nat) :
    J held nowhere (Grammar.skipSemicolons count : Parser υ Nat) := by
  refine h.loop nowhere nowhere ?_ count (forall_nowhere count)
  intro count _
  apply h.bind (h.tryMark held ';')
  intro found _
  split <;> exact h.done held _ rfl

/-! ## routines with a signed constant in them -/

section

variable (hsigned : ∀ {α : Type} (decode : Token → Option α) (negate : α → α),
  J held nowhere (Grammar.trySigned decode negate : Parser υ (Option α)))
include hsigned

theorem requireIntExpression (context : Option String) :
    J held nowhere (Grammar.requireIntExpression context : Parser υ Int32) := by
  apply h.bind (hsigned Token.int? _)
  rintro (_ | v) _
  · exact h.missingInt held context
  · exact h.done held v rfl

theorem tryAlignment : J held nowhere (Grammar.tryAlignment : Parser υ (Option Int32)) := by
  apply h.bind h.peek
  intro t _
  split
  · apply h.bind h.consume
    intro _ _
    apply h.bind (h.requireMark held '(' _)
    intro _ _
    apply h.bind (h.requireIntExpression held hsigned _)
    intro alignment _
    exact h.bind (h.requireMark held ')' _) fun _ _ => h.done held _ rfl
  · exact h.done held none rfl

theorem trySpecifier (s : Specifiers) :
    J held nowhere (Grammar.trySpecifier s : Parser υ (Option Specifiers)) := by
  apply h.bind (h.tryDeprecation held)
  rintro (_ | d) _
  · apply h.bind (h.tryDecoded held markerOf?)
    rintro (_ | m) _
    · apply h.bind (h.tryAttributes held)
      rintro (_ | as) _
      · apply h.bind (h.tryAlignment held hsigned)
        rintro (_ | n) _ <;> exact h.done held _ rfl
      · exact h.done held _ rfl
    · exact h.done held _ rfl
  · exact h.done held _ rfl

theorem specifiers : J held nowhere (Grammar.specifiers : Parser υ Specifiers) := by
  refine h.loop nowhere nowhere ?_ Specifiers.none (forall_nowhere _)
  intro s _
  apply h.bind (h.trySpecifier held hsigned s)
  rintro (_ | s) _ <;> exact h.done held _ rfl

end

end Locating

/-! ## all routines -/

/-- The judgment also speaks of the parsers that the grammar builds from checkpoints and caught errors,
and of what it logs. -/
structure Covering (Good : Position → Prop)
    (J : ∀ {υ α : Type}, (υ → List Position) → (α → List Position) → Parser υ α → Prop) : Prop
    extends Locating Good J where
  log : ∀ {υ : Type} {held : υ → List Position} (event : Event), event.isError = false →
    J held nowhere (Operation.log event : Parser υ Unit)
  signed : ∀ {υ α : Type} {held : υ → List Position} (decode : Token → Option α) (negate : α → α),
    J held nowhere (Grammar.trySigned decode negate : Parser υ (Option α))
  name : ∀ {υ : Type} {held : υ → List Position} (templates : Bool),
    J held nowhere (Grammar.tryQualifiedName templates : Parser υ (Option TokenList))
  instanceName : ∀ {υ : Type} {held : υ → List Position},
    J held nowhere (Grammar.skipInstance : Parser υ Nat)

/-- The routines of the grammar with the places in their results.  What they run for their caller is
`Ok`; a token that their caller hands them has good places. -/
inductive Grammar.Routine (Good : Position → Prop) {υ : Type} (Ok : Parser υ Unit → Prop) :
    {α : Type} → (α → List Position) → Parser υ α → Prop
  | tryText (text : String) : Routine Good Ok nowhere (Grammar.tryText text)
  | tryMark (c : Char) : Routine Good Ok nowhere (Grammar.tryMark c)
  | tryAny (texts : List String) : Routine Good Ok placesOf? (Grammar.tryAny texts)
  | optional (text : String) : Routine Good Ok nowhere (Grammar.optional text)
  | optionalWith (text : String) {action : Parser υ Unit} : Ok action →
      Routine Good Ok nowhere (Grammar.optionalWith text action)
  | requireText (text : String) (context : Option String) :
      Routine Good Ok Token.places (Grammar.requireText text context)
  | requireMark (c : Char) (context : Option String) :
      Routine Good Ok Token.places (Grammar.requireMark c context)
  | tryIdentifier : Routine Good Ok placesOf? Grammar.tryIdentifier
  | requireIdentifier (context : Option String) :
      Routine Good Ok Token.places (Grammar.requireIdentifier context)
  | requireList (form : ListForm) {action : Parser υ Unit} : Ok action →
      Routine Good Ok nowhere (Grammar.requireList form action)
  | requireListTokens (form : ListForm) {action : List Token → Parser υ Unit} :
      (∀ element, (∀ q ∈ placesOf element, Good q) → Ok (action element)) →
      Routine Good Ok nowhere (Grammar.requireListTokens form action)
  | tryList (form : ListForm) {action : Parser υ Unit} : Ok action →
      Routine Good Ok nowhere (Grammar.tryList form action)
  | listElements (form : ListForm) :
      Routine Good Ok (List.flatMap placesOf) (Grammar.listElements form)
  | skipBalanced (opening closing : Char) (context : String) :
      Routine Good Ok placesOf (Grammar.skipBalanced opening closing context)
  | tryQualifiedName (templates : Bool) :
      Routine Good Ok nowhere (Grammar.tryQualifiedName templates)
  | requireQualifiedName (templates : Bool) (context : Option String) :
      Routine Good Ok nowhere (Grammar.requireQualifiedName templates context)
  | tryInt : Routine Good Ok nowhere Grammar.tryInt
  | tryLong : Routine Good Ok nowhere Grammar.tryLong
  | tryFloat : Routine Good Ok nowhere Grammar.tryFloat
  | tryDouble : Routine Good Ok nowhere Grammar.tryDouble
  | tryIntExpression : Routine Good Ok nowhere Grammar.tryIntExpression
  | tryLongExpression : Routine Good Ok nowhere Grammar.tryLongExpression
  | tryFloatExpression : Routine Good Ok nowhere Grammar.tryFloatExpression
  | tryDoubleExpression : Routine Good Ok nowhere Grammar.tryDoubleExpression
  | requireInt (context : Option String) : Routine Good Ok nowhere (Grammar.requireInt context)
  | requireIntExpression (context : Option String) :
      Routine Good Ok nowhere (Grammar.requireIntExpression context)
  | tryDeprecation : Routine Good Ok nowhere Grammar.tryDeprecation
  | tryMarker : Routine Good Ok nowhere Grammar.tryMarker
  | tryAttributes : Routine Good Ok nowhere Grammar.tryAttributes
  | tryAlignment : Routine Good Ok nowhere Grammar.tryAlignment
  | specifiers : Routine Good Ok nowhere Grammar.specifiers
  | skipDeclaration {first : Token} {warn : Warning → Parser υ Unit} :
      (∀ q ∈ first.places, Good q) → (∀ w : Warning, Good w.position → Ok (warn w)) →
      Routine Good Ok nowhere (Grammar.skipDeclaration first warn)

namespace Covering

variable {Good : Position → Prop}
  {J : ∀ {υ α : Type}, (υ → List Position) → (α → List Position) → Parser υ α → Prop}
  (h : Covering Good J) {υ α : Type} (held : υ → List Position) {places : α → List Position}
include h

theorem skipDeclaration {first : Token} (hfirst : ∀ q ∈ first.places, Good q)
    {warn : Warning → Parser υ Unit}
    (hwarn : ∀ w : Warning, Good w.position → J held nowhere (warn w)) :
    J held nowhere (Grammar.skipDeclaration first warn) := by
  apply h.bind (h.loop (fun s : SkipState => s.token.places) nowhere
    (fun _ hs => h.skipTurn held hwarn hs) _ hfirst)
  intro o _
  have hend : ∀ taken, J held nowhere (do
      let count ← Grammar.skipSemicolons (o.tokensSkipped + taken)
      Operation.log (skipEvent first { o with tokensSkipped := count })
      return { o with tokensSkipped := count } : Parser υ SkipOutcome) := by
    intro taken
    apply h.bind (h.skipSemicolons held _)
    intro count _
    exact h.bind (h.log _ rfl) fun _ _ => h.done held _ rfl
  have hzero : J held nowhere (Pure.pure 0 : Parser υ Nat) := h.done held 0 rfl
  split
  · exact h.bind h.instanceName fun taken _ => hend taken
  · exact h.bind hzero fun taken _ => hend taken

theorem routine {held : υ → List Position} {p : Parser υ α} (hp : Grammar.Routine Good (J held nowhere) places p) :
    J held places p := by
  cases hp with
  | tryText text => exact h.tryText held text
  | tryMark c => exact h.tryMark held c
  | tryAny texts => exact h.tryIf held _
  | optional text => exact h.optional held text
  | optionalWith text haction => exact h.optionalWith held text haction
  | requireText text context => exact h.requireIf held _ _ _
  | requireMark c context => exact h.requireMark held c context
  | tryIdentifier => exact h.tryIf held _
  | requireIdentifier context => exact h.requireIdentifier held context
  | requireList form haction => exact h.requireList held form haction
  | requireListTokens form haction => exact h.requireListTokens held form haction
  | tryList form haction => exact h.tryList held form haction
  | listElements form => exact h.listElements held form
  | skipBalanced opening closing context => exact h.skipBalanced held opening closing context
  | tryQualifiedName templates => exact h.name templates
  | requireQualifiedName templates context =>
    exact h.requireQualifiedName held (h.name templates) context
  | tryInt | tryLong | tryFloat | tryDouble | tryMarker => exact h.tryDecoded held _
  | tryIntExpression | tryLongExpression | tryFloatExpression | tryDoubleExpression =>
    exact h.signed _ _
  | requireInt context => exact h.requireInt held context
  | requireIntExpression context => exact h.requireIntExpression held h.signed context
  | tryDeprecation => exact h.tryDeprecation held
  | tryAttributes => exact h.tryAttributes held
  | tryAlignment => exact h.tryAlignment held h.signed
  | specifiers => exact h.specifiers held h.signed
  | skipDeclaration hfirst hwarn => exact h.skipDeclaration held hfirst hwarn

end Covering

end HeaderLex
