import HeaderLex.Grammar.Specifier
import HeaderLex.Proofs.AcceptedLists
import HeaderLex.Proofs.BalancedGroups
import HeaderLex.Proofs.IntegerValues

/-!
# Specifiers as they are written

Specifiers are read back from the tokens that they are written as, in any order and any number, up to
a token that begins none.

* `SpecifierForm`, `AttributeForm`   specifiers by their parts;
* `SpecifierForm.Written`            the tokens that one is written as;
* `Specifiers.ofForms`               what is to be read from a row of them;
* `accepts_tryDeprecation`, `accepts_tryAttributes`, ...   one lemma for each kind of specifier;
* `specifiers_of_written`            the whole row.
-/

namespace HeaderLex

open HeaderLex.Operation HeaderLex.Parser HeaderLex.Grammar

/-! ## words and symbols -/

namespace Token

variable {t : Token} {text : String}

theorem isIdentifier_of_isWord (h : t.isWord text = true) : t.isIdentifier = true :=
  (Bool.and_eq_true_iff.mp h).1

theorem isSymbol_of_isIdentifier (h : t.isIdentifier = true) : t.isSymbol = false := by
  rw [isSymbol, eq_of_beq h]
  rfl

theorem isMark_of_isIdentifier (h : t.isIdentifier = true) (c : Char) : t.isMark c = false := by
  rw [isMark, isSymbol_of_isIdentifier h, Bool.false_and]

theorem isOperator_of_isIdentifier (h : t.isIdentifier = true) (other : String) :
    t.isOperator other = false := by
  rw [isOperator, isSymbol_of_isIdentifier h, Bool.false_and]

/-- A mark is an operator of one character. -/
theorem isMark_eq_of_isOperator (h : t.isOperator text = true) (c : Char) :
    t.isMark c = (text == c.toString) := by
  obtain ⟨hkind, hvalue⟩ := Bool.and_eq_true_iff.mp h
  rw [isMark, hkind, eq_of_beq hvalue, Bool.true_and]

theorem isOperator_eq (h : t.isOperator text = true) (other : String) :
    t.isOperator other = (text == other) := by
  obtain ⟨hkind, hvalue⟩ := Bool.and_eq_true_iff.mp h
  rw [isOperator, hkind, eq_of_beq hvalue, Bool.true_and]

theorem isIdentifier_of_isOperator (h : t.isOperator text = true) : t.isIdentifier = false := by
  rw [isIdentifier, eq_of_beq (Bool.and_eq_true_iff.mp h).1]
  rfl

theorem isWord_of_isOperator (h : t.isOperator text = true) (other : String) :
    t.isWord other = false := by
  rw [isWord, isIdentifier_of_isOperator h, Bool.false_and]

end Token

/-! ## forms -/

/-- An attribute by its parts. -/
structure AttributeForm where
  scope : Option String
  name : String
  /-- The tokens between the parentheses. -/
  arguments : Option (List Token)

/-- A specifier by its parts: the arguments of a deprecation are a version and perhaps a message. -/
inductive SpecifierForm where
  | marker (m : Marker)
  | deprecation (kind : DeprecationMacro) (arguments : Option (Token × Option Token))
  | alignment (n : Int32)
  | attributes (scope : Option String) (attributes : List AttributeForm)

namespace AttributeForm

/-- The attribute that is to be read in a list with this scope. -/
def read (scope : Option String) (a : AttributeForm) : Attribute :=
  ⟨a.scope.or scope, a.name, a.arguments.map joinValues⟩

/-- How the name of an attribute is written. -/
inductive NameWritten : Option String → String → List Token → Prop
  | plain {t : Token} : t.isIdentifier = true → NameWritten none t.value [t]
  | qualified {s o t : Token} : s.isIdentifier = true → o.isOperator "::" = true →
      t.isIdentifier = true → NameWritten (some s.value) t.value [s, o, t]

/-- How the arguments of an attribute are written: balanced tokens in parentheses, or nothing. -/
inductive ArgumentsWritten : Option (List Token) → List Token → Prop
  | none : ArgumentsWritten none []
  | some {o c : Token} {inner : List Token} : o.isMark '(' = true → (∀ t ∈ inner, t.isEnd = false) →
      Balanced ('(', ')') inner → c.isMark ')' = true → ArgumentsWritten (some inner) (o :: (inner ++ [c]))

inductive Written : AttributeForm → List Token → Prop
  | intro {a : AttributeForm} {ts us : List Token} : NameWritten a.scope a.name ts →
      ArgumentsWritten a.arguments us → Written a (ts ++ us)

/-- Attributes with commas between them. -/
inductive RowWritten : List AttributeForm → List Token → Prop
  | last {a : AttributeForm} {ts : List Token} : a.Written ts → RowWritten [a] ts
  | more {a : AttributeForm} {as : List AttributeForm} {c : Token} {ts us : List Token} : a.Written ts →
      c.isMark ',' = true → RowWritten as us → RowWritten (a :: as) (ts ++ c :: us)

/-- How the scope of a whole list is written, if it has one. -/
inductive ScopeWritten : Option String → List Token → Prop
  | none : ScopeWritten none []
  | some {u s c : Token} : u.isWord "using" = true → s.isIdentifier = true → c.isMark ':' = true →
      ScopeWritten (some s.value) [u, s, c]

end AttributeForm

namespace SpecifierForm

/-- A specifier is written as these tokens, wherever they stand. -/
inductive Written : SpecifierForm → List Token → Prop
  | marker {m : Marker} {t : Token} : t.isWord m.spelling = true → Written (.marker m) [t]
  | bare {kind : DeprecationMacro} {t : Token} : t.isWord kind.spelling = true →
      Written (.deprecation kind none) [t]
  | version {kind : DeprecationMacro} {t o v c : Token} : t.isWord kind.spelling = true →
      o.isMark '(' = true → (v.isNumeric || v.isIdentifier) = true → c.isMark ')' = true →
      Written (.deprecation kind (some (v, none))) [t, o, v, c]
  | message {kind : DeprecationMacro} {t o v s m c : Token} : t.isWord kind.spelling = true →
      o.isMark '(' = true → (v.isNumeric || v.isIdentifier) = true → s.isMark ',' = true →
      m.isString = true → c.isMark ')' = true →
      Written (.deprecation kind (some (v, some m))) [t, o, v, s, m, c]
  | alignment {n : Int32} {t o k c : Token} {sign digits : List Char} : t.isWord "alignas" = true →
      o.isMark '(' = true → k.IsDecimal sign digits →
      Number.signed (Numeral.isNegative sign) (Numeral.denoted 10 digits) = n.toInt →
      c.isMark ')' = true → Written (.alignment n) [t, o, k, c]
  | attributes {scope : Option String} {as : List AttributeForm} {o c d : Token} {ts us : List Token} :
      o.isOperator "[[" = true → AttributeForm.ScopeWritten scope ts →
      (as = [] ∧ us = [] ∨ AttributeForm.RowWritten as us) →
      (scope = none → us.head?.any (·.isWord "using") = false) →
      c.isMark ']' = true → d.isMark ']' = true →
      Written (.attributes scope as) (o :: (ts ++ (us ++ [c, d])))

/-- Specifiers one after the other. -/
inductive AllWritten : List SpecifierForm → List Token → Prop
  | nil : AllWritten [] []
  | cons {f : SpecifierForm} {fs : List SpecifierForm} {ts us : List Token} : f.Written ts →
      AllWritten fs us → AllWritten (f :: fs) (ts ++ us)

def deprecation? : SpecifierForm → Option Deprecation
  | deprecation kind arguments =>
    some ⟨kind, arguments.map (·.1.value), arguments.bind (·.2.map Token.text)⟩
  | _ => none

def marker? : SpecifierForm → Option Marker
  | marker m => some m
  | _ => none

def alignment? : SpecifierForm → Option Int32
  | alignment n => some n
  | _ => none

def attributeList : SpecifierForm → List Attribute
  | attributes scope as => as.map (AttributeForm.read scope)
  | _ => []

/-- What a specifier adds to those before it. -/
def addTo (f : SpecifierForm) (s : Specifiers) : Specifiers where
  deprecation := f.deprecation?.or s.deprecation
  markers := s.markers ++ f.marker?.toList
  attributes := s.attributes ++ f.attributeList
  alignment := f.alignment?.or s.alignment

theorem addTo_marker (m : Marker) (s : Specifiers) :
    (marker m).addTo s = { s with markers := s.markers ++ [m] } := by
  simp [addTo, deprecation?, marker?, alignment?, attributeList]

theorem addTo_deprecation (kind : DeprecationMacro) (arguments : Option (Token × Option Token))
    (s : Specifiers) :
    let d : Deprecation := ⟨kind, arguments.map (·.1.value), arguments.bind (·.2.map Token.text)⟩
    (deprecation kind arguments).addTo s = { s with deprecation := some d } := by
  simp [addTo, deprecation?, marker?, alignment?, attributeList]

theorem addTo_alignment (n : Int32) (s : Specifiers) :
    (alignment n).addTo s = { s with alignment := some n } := by
  simp [addTo, deprecation?, marker?, alignment?, attributeList]

theorem addTo_attributes (scope : Option String) (as : List AttributeForm) (s : Specifiers) :
    (attributes scope as).addTo s
      = { s with attributes := s.attributes ++ as.map (AttributeForm.read scope) } := by
  simp [addTo, deprecation?, marker?, alignment?, attributeList]

/-- An argument list that follows would be taken for one of the specifier. -/
def IsBare (f : SpecifierForm) : Prop := ∃ kind, f = .deprecation kind none

end SpecifierForm

/-- What is to be read from a row of specifiers: all markers and attributes in order, the last
deprecation and the last alignment. -/
def Grammar.Specifiers.ofForms (fs : List SpecifierForm) : Specifiers where
  deprecation := (fs.filterMap SpecifierForm.deprecation?).getLast?
  markers := fs.filterMap SpecifierForm.marker?
  attributes := fs.flatMap SpecifierForm.attributeList
  alignment := (fs.filterMap SpecifierForm.alignment?).getLast?

namespace Grammar

theorem ofForms_snoc (fs : List SpecifierForm) (f : SpecifierForm) :
    Specifiers.ofForms (fs ++ [f]) = f.addTo (Specifiers.ofForms fs) := by
  unfold Specifiers.ofForms SpecifierForm.addTo
  cases f <;> simp [SpecifierForm.deprecation?, SpecifierForm.marker?, SpecifierForm.alignment?,
    SpecifierForm.attributeList]

theorem foldl_addTo (fs : List SpecifierForm) :
    fs.foldl (fun s f => f.addTo s) Specifiers.none = Specifiers.ofForms fs := by
  induction fs using List.reverseRecOn with
  | nil => rfl
  | append_singleton fs f ih => rw [List.foldl_append, ih, ofForms_snoc]; rfl

end Grammar

/-- A specifier may begin with the token. -/
def Token.StartsSpecifier (t : Token) : Prop :=
  (∃ kind : DeprecationMacro, t.isWord kind.spelling = true) ∨
    (∃ m : Marker, t.isWord m.spelling = true) ∨ t.isOperator "[[" = true ∨ t.isWord "alignas" = true

namespace Grammar

variable {υ : Type} {t o c : Token} {ts us : List Token}

/-! ## the tables of macros -/

theorem deprecationOf?_word {text : String} (h : t.isWord text = true) :
    deprecationOf? t = DeprecationMacro.ofSpelling? text := by
  obtain ⟨hkind, hvalue⟩ := Bool.and_eq_true_iff.mp h
  rw [deprecationOf?, if_pos hkind, eq_of_beq hvalue]

theorem markerOf?_word {text : String} (h : t.isWord text = true) :
    markerOf? t = Marker.ofSpelling? text := by
  obtain ⟨hkind, hvalue⟩ := Bool.and_eq_true_iff.mp h
  rw [markerOf?, if_pos hkind, eq_of_beq hvalue]

theorem deprecationOf?_of_not_identifier (h : t.isIdentifier = false) : deprecationOf? t = none :=
  if_neg (by rw [h]; decide)

theorem markerOf?_of_not_identifier (h : t.isIdentifier = false) : markerOf? t = none :=
  if_neg (by rw [h]; decide)

theorem ofSpelling?_deprecation (kind : DeprecationMacro) :
    DeprecationMacro.ofSpelling? kind.spelling = some kind := by cases kind <;> rfl

theorem ofSpelling?_marker (m : Marker) : Marker.ofSpelling? m.spelling = some m := by
  cases m <;> rfl

/-- No marker is spelled as a deprecation. -/
theorem ofSpelling?_deprecation_marker (m : Marker) :
    DeprecationMacro.ofSpelling? m.spelling = none := by cases m <;> rfl

theorem deprecationOf?_of_not_starts (h : ¬ t.StartsSpecifier) : deprecationOf? t = none := by
  cases hfound : deprecationOf? t with
  | none => rfl
  | some kind =>
    unfold deprecationOf? at hfound
    split at hfound
    · next hkind =>
      have hvalue := List.find?_some hfound
      refine absurd (.inl ⟨kind, ?_⟩) h
      rw [Token.isWord, hkind, Bool.true_and, beq_iff_eq]
      exact (eq_of_beq hvalue).symm
    · cases hfound

theorem markerOf?_of_not_starts (h : ¬ t.StartsSpecifier) : markerOf? t = none := by
  cases hfound : markerOf? t with
  | none => rfl
  | some m =>
    unfold markerOf? at hfound
    split at hfound
    · next hkind =>
      have hvalue := List.find?_some hfound
      refine absurd (.inr (.inl ⟨m, ?_⟩)) h
      rw [Token.isWord, hkind, Bool.true_and, beq_iff_eq]
      exact (eq_of_beq hvalue).symm
    · cases hfound

/-! ## markers and deprecations -/

section

variable {α : Type} {decode : Token → Option α}

theorem accepts_tryDecoded {v : α} (h : decode t = some v) :
    Accepts (tryDecoded decode : Parser υ (Option α)) [t] (some v) id fun _ => True := by
  refine .take (pure (some v)) ?_ (.pure (some v))
  rw [h]

theorem accepts_tryDecoded_none :
    Accepts (tryDecoded decode : Parser υ (Option α)) [] none id fun t => decode t = none := by
  refine .lookBehind fun t ht => ?_
  rw [ht]
  exact .pure none

end

theorem accepts_tryDeprecation_none :
    Accepts (tryDeprecation : Parser υ _) [] none id fun t => deprecationOf? t = none := by
  refine .lookBehind fun t ht => ?_
  rw [ht]
  exact .pure none

section

variable {kind : DeprecationMacro} (ht : t.isWord kind.spelling = true)
include ht

/-- The macro is taken; what it means is told by the token behind. -/
theorem accepts_deprecation {d : Deprecation} {fits : Token → Prop}
    (h : Accepts (peek >>= fun u =>
      if u.isMark '(' then
        listElements ⟨'(', ')', ',', false, kind.spelling⟩ >>= fun elements =>
          pure (some (.ofElements kind elements))
      else pure (some ⟨kind, none, none⟩) : Parser υ _) ts (some d) id fits) :
    Accepts (tryDeprecation : Parser υ _) (t :: ts) (some d) id fits := by
  refine .take _ ?_ h
  rw [deprecationOf?_word ht, ofSpelling?_deprecation]

theorem accepts_tryDeprecation_bare :
    Accepts (tryDeprecation : Parser υ _) [t] (some ⟨kind, none, none⟩) id
      fun u => u.isMark '(' = false :=
  accepts_deprecation ht (.passBy _)

theorem accepts_tryDeprecation_list {es : List (List Token)}
    (h : (ListForm.mk '(' ')' ',' false kind.spelling).Listing es ts) :
    Accepts (tryDeprecation : Parser υ _) (t :: ts) (some (.ofElements kind es)) id fun _ => True := by
  obtain ⟨o, us, rfl, ho⟩ : ∃ o us, ts = o :: us ∧ o.isMark '(' = true := by
    cases h with
    | empty ho _ => exact ⟨_, _, rfl, ho⟩
    | full ho _ => exact ⟨_, _, rfl, ho⟩
  refine accepts_deprecation ht (.lookFirst ?_)
  rw [if_pos ho]
  have hform : (')' : Char) ≠ ',' := by decide
  exact (ListForm.accepts_listElements hform h).map fun es => some (Deprecation.ofElements kind es)

end

/-- A token that is no symbol is an element of its own. -/
theorem element_of_not_symbol (form : ListForm) (hend : t.isEnd = false) (h : t.isSymbol = false) :
    form.Element [t] := by
  have hmark : ∀ c, t.isMark c = false := fun c => by rw [Token.isMark, h, Bool.false_and]
  have hedges : t.edges = [] := by simp [Token.edges, Token.isOperator, hmark, h]
  refine ListForm.element_iff.mpr ⟨by simp, .cons hend (fun _ => ?_) ?_ .nil⟩
  · rw [ListForm.delimits, hmark, hmark]
    rfl
  · rw [hedges]
    rfl

/-! ## alignments -/

theorem accepts_trySigned {α : Type} {decode : Token → Option α} {negate : α → α} {v : α}
    (hsymbol : t.isSymbol = false) (h : decode t = some v) :
    Accepts (trySigned decode negate : Parser υ (Option α)) [t] (some v) id fun _ => True := by
  refine .lookFirst ?_
  rw [if_neg (by simp [Token.isMark, hsymbol])]
  exact accepts_tryDecoded h

theorem accepts_requireIntExpression {n : Int32} (hsymbol : t.isSymbol = false)
    (h : t.int? = some n) (context : Option String) :
    Accepts (requireIntExpression context : Parser υ Int32) [t] n id fun _ => True :=
  (accepts_trySigned hsymbol h).andPure (.pure n)

/-- A decimal token stands for the number that it spells. -/
theorem int?_of_spelled {n : Int32} {sign digits : List Char} (h : t.IsDecimal sign digits)
    (hvalue : Number.signed (Numeral.isNegative sign) (Numeral.denoted 10 digits) = n.toInt) :
    t.int? = some n := by
  have hmin := n.le_toInt
  have hmax := n.toInt_lt
  rw [Token.int?_of_decimal h, hvalue, Number.toInt32?_eq, if_pos (by omega), Int32.ofInt_toInt]

theorem accepts_tryAlignment {k : Token} {n : Int32} (ht : t.isWord "alignas" = true)
    (ho : o.isMark '(' = true) (hsymbol : k.isSymbol = false) (hk : k.int? = some n)
    (hc : c.isMark ')' = true) :
    Accepts (tryAlignment : Parser υ _) [t, o, k, c] (some n) id fun _ => True := by
  refine .take _ (if_pos ht) ?_
  refine (accepts_requireMark ho _).andThen ?_
  refine (accepts_requireIntExpression hsymbol hk _).andThen ?_
  exact (accepts_requireMark hc _).map fun _ => some n

theorem accepts_tryAlignment_none :
    Accepts (tryAlignment : Parser υ _) [] none id fun t => t.isWord "alignas" = false :=
  .passBy none

/-! ## attributes -/

/-- The end of an attribute: a comma or the end of the list stands behind. -/
def EndsAttribute (t : Token) : Prop := t.isMark ',' = true ∨ t.isMark ']' = true

theorem EndsAttribute.isMark (h : EndsAttribute t) : t.isMark '(' = false := by
  rcases h with h | h <;> exact (Token.isMark_eq_of_isOperator h '(').trans (by decide)

theorem EndsAttribute.isOperator (h : EndsAttribute t) : t.isOperator "::" = false := by
  rcases h with h | h <;> exact (Token.isOperator_eq h "::").trans (by decide)

/-- An attribute behind its name. -/
def attributeBehind (name : Option String × String) : Parser υ Attribute := do
  let arguments ←
    if (← peek).isMark '(' then do
      pure (some (joinValues (← skipBalanced '(' ')' "attribute arguments")))
    else pure none
  return ⟨name.1, name.2, arguments⟩

theorem oneAttribute_eq (scope : Option String) : (oneAttribute scope : Parser υ Attribute) =
    requireIdentifier (some "attribute") >>= fun first => peek >>= fun t =>
      if t.isOperator "::" then
        consume >>= fun _ => requireIdentifier (some "attribute") >>= fun second =>
          attributeBehind (some first.value, second.value)
      else attributeBehind (scope, first.value) := rfl

theorem accepts_attributeBehind (name : Option String × String) {arguments : Option (List Token)}
    (h : AttributeForm.ArgumentsWritten arguments ts) :
    Accepts (attributeBehind name : Parser υ Attribute) ts
      ⟨name.1, name.2, arguments.map joinValues⟩ id EndsAttribute := by
  cases h with
  | none =>
    refine .lookBehind fun t ht => ?_
    rw [if_neg (by rw [ht.isMark]; decide)]
    exact (Accepts.pure none).map fun arguments => Attribute.mk name.1 name.2 arguments
  | @some o c inner ho hcontent hinner hc =>
    refine .lookFirst ?_
    rw [if_pos ho]
    have hgroup := @accepts_skipBalanced υ ('(', ')') inner c (by decide) o ho hcontent hinner hc
      "attribute arguments"
    refine (hgroup.andPure ?_).weaken fun _ _ => trivial
    exact (Accepts.pure (some (joinValues inner))).map fun arguments =>
      Attribute.mk name.1 name.2 arguments

theorem head_of_arguments {arguments : Option (List Token)}
    (h : AttributeForm.ArgumentsWritten arguments ts) (ht : EndsAttribute t) :
    (ts.headD t).isOperator "::" = false := by
  cases h with
  | none => exact ht.isOperator
  | some ho _ _ _ => exact (Token.isOperator_eq ho "::").trans (by decide)

theorem accepts_oneAttribute (scope : Option String) {a : AttributeForm} (h : a.Written ts) :
    Accepts (oneAttribute scope : Parser υ Attribute) ts (a.read scope) id EndsAttribute := by
  obtain ⟨hname, harguments⟩ := h
  obtain ⟨own, name, arguments⟩ := a
  rw [oneAttribute_eq]
  cases hname with
  | plain hfirst =>
    refine (accepts_requireIdentifier hfirst _).andThen ?_
    refine .look fun t ht => ?_
    rw [if_neg (by rw [head_of_arguments harguments ht]; decide)]
    exact (accepts_attributeBehind (scope, _) harguments).weaken fun u hu => hu ▸ ht
  | qualified hs ho hsecond =>
    refine (accepts_requireIdentifier hs _).andThen ?_
    refine .take _ (if_pos ho) ?_
    refine (accepts_requireIdentifier hsecond _).andThen ?_
    exact accepts_attributeBehind (some _, _) harguments

/-- One attribute and what follows it. -/
def attributeTurn (scope : Option String) (attributes : List Attribute) :
    Parser υ (List Attribute ⊕ List Attribute) := do
  let attributes := attributes ++ [← oneAttribute scope]
  if ← tryMark ',' then return .inl attributes else return .inr attributes

theorem accepts_attributeTurn (scope : Option String) (acc : List Attribute) {a : AttributeForm}
    (h : a.Written ts) (hc : c.isMark ',' = true) :
    Accepts (attributeTurn scope acc : Parser υ _) (ts ++ [c]) (.inl (acc ++ [a.read scope])) id
      fun _ => True := by
  refine (accepts_oneAttribute scope h).bind ?_ fun _ _ => .inl hc
  exact (accepts_tryMark hc).andPure (.pure _)

theorem accepts_attributeTurn_last (scope : Option String) (acc : List Attribute) {a : AttributeForm}
    (h : a.Written ts) :
    Accepts (attributeTurn scope acc : Parser υ _) ts (.inr (acc ++ [a.read scope])) id
      fun t => t.isMark ']' = true := by
  refine ((accepts_oneAttribute scope h).weaken fun _ => .inr).andPure ?_
  refine ((accepts_tryMark_none ',').weaken fun t ht => ?_).andPure ?_
  · exact (Token.isMark_eq_of_isOperator ht ',').trans (by decide)
  · exact .pure _

theorem rounds_attributes (scope : Option String) {as : List AttributeForm}
    (h : AttributeForm.RowWritten as ts) (acc : List Attribute) :
    Rounds (attributeTurn scope : _ → Parser υ _) (fun t => t.isMark ']' = true) acc ts
      (acc ++ as.map (AttributeForm.read scope)) id := by
  induction h generalizing acc with
  | last ha => exact .last (accepts_attributeTurn_last scope acc ha)
  | @more a as c ts us ha hc _ ih =>
    have hlater := ih (acc ++ [a.read scope])
    rw [List.append_assoc] at hlater
    have hmore := Rounds.more (by simp) (accepts_attributeTurn scope acc ha hc) hlater
      fun _ _ => trivial
    rwa [List.append_assoc] at hmore

/-- The brackets behind the attributes. -/
def closeAttributes (attributes : List Attribute) : Parser υ (Option (List Attribute)) := do
  let _ ← requireMark ']' (some "attribute list")
  let _ ← requireMark ']' (some "attribute list")
  return some attributes

theorem tryAttributes_eq : (tryAttributes : Parser υ (Option (List Attribute))) =
    peek >>= fun t =>
      if t.isOperator "[[" then
        consume >>= fun _ => attributeScope >>= fun scope => peek >>= fun t =>
          if t.isMark ']' then closeAttributes []
          else loop (attributeTurn scope) [] >>= closeAttributes
      else pure none := rfl

theorem accepts_closeAttributes {d : Token} (hc : c.isMark ']' = true) (hd : d.isMark ']' = true)
    (attributes : List Attribute) :
    Accepts (closeAttributes attributes : Parser υ _) [c, d] (some attributes) id fun _ => True := by
  refine (accepts_requireMark hc _).andThen ?_
  exact (accepts_requireMark hd _).map fun _ => some attributes

theorem accepts_attributeScope {scope : Option String} (h : AttributeForm.ScopeWritten scope ts) :
    Accepts (attributeScope : Parser υ _) ts scope id
      fun t => scope = none → t.isWord "using" = false := by
  cases h with
  | none => exact (Accepts.passBy none).weaken fun t ht => ht rfl
  | @some u s c hu hs hc =>
    refine Accepts.weaken (.take _ (if_pos hu) ?_) fun _ _ => trivial
    refine (accepts_requireIdentifier hs _).andThen ?_
    exact (accepts_requireMark hc _).map fun _ => some s.value

/-! ### the tokens of attributes -/

/-- An attribute begins with an identifier. -/
theorem head_of_written {a : AttributeForm} (h : a.Written ts) :
    ∃ t us, ts = t :: us ∧ t.isIdentifier = true := by
  obtain ⟨hname, -⟩ := h
  obtain ⟨scope, name, arguments⟩ := a
  cases hname with
  | plain ht => exact ⟨_, _, rfl, ht⟩
  | qualified hs _ _ => exact ⟨_, _, rfl, hs⟩

theorem head_of_row {as : List AttributeForm} (h : AttributeForm.RowWritten as ts) :
    ∃ t us, ts = t :: us ∧ t.isIdentifier = true := by
  cases h with
  | last ha => exact head_of_written ha
  | more ha _ _ =>
    obtain ⟨t, us, rfl, ht⟩ := head_of_written ha
    exact ⟨t, _, rfl, ht⟩

theorem content_of_written {a : AttributeForm} (h : a.Written ts) : ∀ t ∈ ts, t.isEnd = false := by
  obtain ⟨hname, harguments⟩ := h
  obtain ⟨scope, name, arguments⟩ := a
  rw [List.forall_mem_append]
  constructor
  · cases hname with
    | plain ht => simpa using Token.isEnd_of_isIdentifier ht
    | qualified hs ho ht =>
      simpa using ⟨Token.isEnd_of_isIdentifier hs, Token.isEnd_of_isOperator ho,
        Token.isEnd_of_isIdentifier ht⟩
  · cases harguments with
    | none => simp
    | some ho hcontent _ hc =>
      simpa [or_imp, forall_and, Token.isEnd_of_isMark ho, Token.isEnd_of_isMark hc] using hcontent

theorem content_of_row {as : List AttributeForm} (h : AttributeForm.RowWritten as ts) :
    ∀ t ∈ ts, t.isEnd = false := by
  induction h with
  | last ha => exact content_of_written ha
  | more ha hc _ ih =>
    rw [List.forall_mem_append, List.forall_mem_cons]
    exact ⟨content_of_written ha, Token.isEnd_of_isMark hc, ih⟩

/-! ### a list of attributes -/

theorem accepts_tryAttributes {scope : Option String} {as : List AttributeForm} {d : Token}
    (ho : o.isOperator "[[" = true) (hscope : AttributeForm.ScopeWritten scope ts)
    (hrow : as = [] ∧ us = [] ∨ AttributeForm.RowWritten as us)
    (hfirst : scope = none → us.head?.any (·.isWord "using") = false)
    (hc : c.isMark ']' = true) (hd : d.isMark ']' = true) :
    Accepts (tryAttributes : Parser υ _) (o :: (ts ++ (us ++ [c, d])))
      (some (as.map (AttributeForm.read scope))) id fun _ => True := by
  rw [tryAttributes_eq]
  refine .take _ (if_pos ho) ?_
  refine (accepts_attributeScope hscope).bind ?_ ?_
  · rcases hrow with ⟨rfl, rfl⟩ | hrow
    · refine .lookFirst ?_
      rw [if_pos hc]
      exact accepts_closeAttributes hc hd []
    · obtain ⟨t, us, rfl, ht⟩ := head_of_row hrow
      refine .lookFirst ?_
      rw [if_neg (by rw [Token.isMark_of_isIdentifier ht]; decide)]
      refine ((rounds_attributes scope hrow []).loop (content_of_row hrow)).bind ?_ fun _ _ => hc
      exact accepts_closeAttributes hc hd _
  · intro t _ hnone
    have hbracket := Token.isWord_of_isOperator hc "using"
    cases us with
    | nil => exact hbracket
    | cons u us => simpa using hfirst hnone

theorem accepts_tryAttributes_none :
    Accepts (tryAttributes : Parser υ _) [] none id fun t => t.isOperator "[[" = false :=
  .passBy none

/-! ## one specifier -/

theorem accepts_trySpecifier_marker {m : Marker} (ht : t.isWord m.spelling = true) (s : Specifiers) :
    Accepts (trySpecifier s : Parser υ _) [t] (some { s with markers := s.markers ++ [m] }) id
      fun _ => True := by
  have hdeprecation : deprecationOf? t = none :=
    (deprecationOf?_word ht).trans (ofSpelling?_deprecation_marker m)
  have hmarker : markerOf? t = some m := (markerOf?_word ht).trans (ofSpelling?_marker m)
  refine accepts_tryDeprecation_none.bind ?_ fun _ _ => hdeprecation
  exact (accepts_tryDecoded hmarker).andPure (.pure _)

theorem accepts_trySpecifier_deprecation {d : Deprecation} {fits : Token → Prop}
    (h : Accepts (tryDeprecation : Parser υ _) ts (some d) id fits) (s : Specifiers) :
    Accepts (trySpecifier s : Parser υ _) ts (some { s with deprecation := some d }) id fits :=
  h.andPure (.pure _)

theorem accepts_trySpecifier_attributes {as : List Attribute}
    (ho : o.isOperator "[[" = true)
    (h : Accepts (tryAttributes : Parser υ _) (o :: ts) (some as) id fun _ => True) (s : Specifiers) :
    Accepts (trySpecifier s : Parser υ _) (o :: ts) (some { s with attributes := s.attributes ++ as }) id
      fun _ => True := by
  have hsymbol := Token.isIdentifier_of_isOperator ho
  refine accepts_tryDeprecation_none.bind ?_ fun _ _ => deprecationOf?_of_not_identifier hsymbol
  refine accepts_tryDecoded_none.bind ?_ fun _ _ => markerOf?_of_not_identifier hsymbol
  exact h.andPure (.pure _)

theorem accepts_trySpecifier_alignment {n : Int32} (ht : t.isWord "alignas" = true)
    (h : Accepts (tryAlignment : Parser υ _) (t :: ts) (some n) id fun _ => True) (s : Specifiers) :
    Accepts (trySpecifier s : Parser υ _) (t :: ts) (some { s with alignment := some n }) id
      fun _ => True := by
  refine accepts_tryDeprecation_none.bind ?_ fun _ _ => deprecationOf?_word ht
  refine accepts_tryDecoded_none.bind ?_ fun _ _ => markerOf?_word ht
  refine accepts_tryAttributes_none.bind ?_ fun _ _ =>
    Token.isOperator_of_isIdentifier (Token.isIdentifier_of_isWord ht) _
  exact h.andPure (.pure _)

theorem accepts_trySpecifier_none (s : Specifiers) :
    Accepts (trySpecifier s : Parser υ _) [] none id fun t => ¬ t.StartsSpecifier := by
  refine accepts_tryDeprecation_none.bind ?_ fun _ ht => deprecationOf?_of_not_starts ht
  refine accepts_tryDecoded_none.bind ?_ fun _ ht => markerOf?_of_not_starts ht
  refine accepts_tryAttributes_none.bind ?_ fun t ht => ?_
  · refine (accepts_tryAlignment_none.weaken fun t ht => ?_).andPure ?_
    · exact eq_false_of_ne_true fun hword => ht (.inr (.inr (.inr hword)))
    · exact .pure none
  · exact eq_false_of_ne_true fun hbracket => ht (.inr (.inr (.inl hbracket)))

/-- A version is an element of its own, and no message. -/
theorem plain_of_version (h : (t.isNumeric || t.isIdentifier) = true) :
    t.isString = false ∧ t.isEnd = false ∧ t.isSymbol = false := by
  obtain ⟨kind, value, start, unget⟩ := t
  cases kind <;> first | exact ⟨rfl, rfl, rfl⟩ | cases h

theorem plain_of_isString (h : t.isString = true) : t.isEnd = false ∧ t.isSymbol = false := by
  obtain ⟨kind, value, start, unget⟩ := t
  cases kind <;> first | exact ⟨rfl, rfl⟩ | cases h

theorem ofElements_version (kind : DeprecationMacro) (h : t.isString = false) :
    Deprecation.ofElements kind [[t]] = ⟨kind, some t.value, none⟩ := by
  simp [Deprecation.ofElements, Deprecation.note, h, joinValues]

theorem ofElements_message (kind : DeprecationMacro) {m : Token} (h : t.isString = false)
    (hm : m.isString = true) :
    Deprecation.ofElements kind [[t], [m]] = ⟨kind, some t.value, some m.text⟩ := by
  simp [Deprecation.ofElements, Deprecation.note, h, hm, joinValues]

/-- A specifier is read from the tokens that it is written as. -/
theorem accepts_trySpecifier {f : SpecifierForm} (h : f.Written ts) (s : Specifiers) :
    Accepts (trySpecifier s : Parser υ _) ts (some (f.addTo s)) id
      fun u => f.IsBare → u.isMark '(' = false := by
  cases h with
  | marker ht =>
    rw [SpecifierForm.addTo_marker]
    exact (accepts_trySpecifier_marker ht s).weaken fun _ _ => trivial
  | @bare kind t ht =>
    rw [SpecifierForm.addTo_deprecation]
    exact (accepts_trySpecifier_deprecation (accepts_tryDeprecation_bare ht) s).weaken
      fun u hu => hu ⟨kind, rfl⟩
  | @version kind t o v c ht ho hv hc =>
    obtain ⟨hstring, hend, hsymbol⟩ := plain_of_version hv
    have hlist : (ListForm.mk '(' ')' ',' false kind.spelling).Listing [[v]] [o, v, c] :=
      .full ho (.last (element_of_not_symbol _ hend hsymbol) hc)
    have hread := accepts_trySpecifier_deprecation (accepts_tryDeprecation_list (υ := υ) ht hlist) s
    rw [ofElements_version kind hstring] at hread
    rw [SpecifierForm.addTo_deprecation]
    exact hread.weaken fun _ _ => trivial
  | @message kind t o v comma m c ht ho hv hcomma hm hc =>
    obtain ⟨hstring, hend, hsymbol⟩ := plain_of_version hv
    obtain ⟨hend', hsymbol'⟩ := plain_of_isString hm
    have hlist : (ListForm.mk '(' ')' ',' false kind.spelling).Listing [[v], [m]]
        [o, v, comma, m, c] :=
      .full ho (.more (element_of_not_symbol _ hend hsymbol) hcomma
        (.last (element_of_not_symbol _ hend' hsymbol') hc))
    have hread := accepts_trySpecifier_deprecation (accepts_tryDeprecation_list (υ := υ) ht hlist) s
    rw [ofElements_message kind hstring hm] at hread
    rw [SpecifierForm.addTo_deprecation]
    exact hread.weaken fun _ _ => trivial
  | @alignment n t o k c sign digits ht ho hk hvalue hc =>
    have hsymbol : k.isSymbol = false := by rw [Token.isSymbol, hk.kind]; rfl
    have hread := accepts_tryAlignment (υ := υ) ht ho hsymbol (int?_of_spelled hk hvalue) hc
    rw [SpecifierForm.addTo_alignment]
    exact (accepts_trySpecifier_alignment ht hread s).weaken fun _ _ => trivial
  | attributes ho hscope hrow hfirst hc hd =>
    have hread := accepts_tryAttributes (υ := υ) ho hscope hrow hfirst hc hd
    rw [SpecifierForm.addTo_attributes]
    exact (accepts_trySpecifier_attributes ho hread s).weaken fun _ _ => trivial

/-! ## a row of specifiers -/

theorem starts_of_written {f : SpecifierForm} (h : f.Written ts) :
    ∃ t us, ts = t :: us ∧ t.StartsSpecifier := by
  cases h with
  | marker ht => exact ⟨_, _, rfl, .inr (.inl ⟨_, ht⟩)⟩
  | bare ht => exact ⟨_, _, rfl, .inl ⟨_, ht⟩⟩
  | version ht _ _ _ => exact ⟨_, _, rfl, .inl ⟨_, ht⟩⟩
  | message ht _ _ _ _ _ => exact ⟨_, _, rfl, .inl ⟨_, ht⟩⟩
  | alignment ht _ _ _ _ => exact ⟨_, _, rfl, .inr (.inr (.inr ht))⟩
  | attributes ho _ _ _ _ _ => exact ⟨_, _, rfl, .inr (.inr (.inl ho))⟩

theorem isMark_of_starts (h : t.StartsSpecifier) : t.isMark '(' = false := by
  have hword : ∀ {text : String}, t.isWord text = true → t.isMark '(' = false := fun h =>
    Token.isMark_of_isIdentifier (Token.isIdentifier_of_isWord h) _
  rcases h with ⟨kind, h⟩ | ⟨m, h⟩ | h | h
  · exact hword h
  · exact hword h
  · exact (Token.isMark_eq_of_isOperator h _).trans (by decide)
  · exact hword h

theorem content_of_scope {scope : Option String} (h : AttributeForm.ScopeWritten scope ts) :
    ∀ t ∈ ts, t.isEnd = false := by
  cases h with
  | none => simp
  | some hu hs hc =>
    simpa using ⟨Token.isEnd_of_isIdentifier (Token.isIdentifier_of_isWord hu),
      Token.isEnd_of_isIdentifier hs, Token.isEnd_of_isMark hc⟩

theorem content_of_specifier {f : SpecifierForm} (h : f.Written ts) : ∀ t ∈ ts, t.isEnd = false := by
  have hword : ∀ {u : Token} {text : String}, u.isWord text = true → u.isEnd = false := fun h =>
    Token.isEnd_of_isIdentifier (Token.isIdentifier_of_isWord h)
  cases h with
  | marker ht => simpa using hword ht
  | bare ht => simpa using hword ht
  | version ht ho hv hc =>
    simpa using ⟨hword ht, Token.isEnd_of_isMark ho, (plain_of_version hv).2.1, Token.isEnd_of_isMark hc⟩
  | message ht ho hv hcomma hm hc =>
    simpa using ⟨hword ht, Token.isEnd_of_isMark ho, (plain_of_version hv).2.1,
      Token.isEnd_of_isMark hcomma, (plain_of_isString hm).1, Token.isEnd_of_isMark hc⟩
  | @alignment n t o k c sign digits ht ho hk _ hc =>
    have hk' : k.isEnd = false := by rw [Token.isEnd, hk.kind]; rfl
    simpa using ⟨hword ht, Token.isEnd_of_isMark ho, hk', Token.isEnd_of_isMark hc⟩
  | @attributes scope as o c d ts us ho hscope hrow _ hc hd =>
    have hcontent : ∀ t ∈ us, t.isEnd = false := by
      rcases hrow with ⟨-, rfl⟩ | hrow
      · simp
      · exact content_of_row hrow
    simp only [List.forall_mem_cons, List.forall_mem_append]
    exact ⟨Token.isEnd_of_isOperator ho, content_of_scope hscope, hcontent, Token.isEnd_of_isMark hc,
      Token.isEnd_of_isMark hd, by simp⟩

theorem content_of_all {fs : List SpecifierForm} (h : SpecifierForm.AllWritten fs ts) :
    ∀ t ∈ ts, t.isEnd = false := by
  induction h with
  | nil => simp
  | cons hf _ ih => exact List.forall_mem_append.mpr ⟨content_of_specifier hf, ih⟩

def specifierTurn (s : Specifiers) : Parser υ (Specifiers ⊕ Specifiers) := do
  match ← trySpecifier s with
  | some s => return .inl s
  | none => return .inr s

theorem rounds_specifiers {fs : List SpecifierForm} (h : SpecifierForm.AllWritten fs ts)
    (hstarts : ¬ t.StartsSpecifier) (hbare : ∀ f ∈ fs.getLast?, f.IsBare → t.isMark '(' = false)
    (s : Specifiers) :
    Rounds (specifierTurn : _ → Parser υ _) (· = t) s ts (fs.foldl (fun s f => f.addTo s) s) id := by
  induction h generalizing s with
  | nil =>
    refine .last ?_
    refine ((accepts_trySpecifier_none s).weaken ?_).andPure ?_
    · rintro u rfl
      exact hstarts
    · exact .pure _
  | @cons f fs ts us hf hfs ih =>
    obtain ⟨u, rest, rfl, -⟩ := starts_of_written hf
    refine .more (by simp) ((accepts_trySpecifier hf s).andPure ?_) (ih ?_ (f.addTo s)) ?_
    · exact .pure _
    · intro g hg
      exact hbare g (List.mem_getLast?_cons hg)
    · -- the token behind is the one behind all of them, or the first of the next specifier
      rintro v rfl hbareness
      cases hfs with
      | nil => exact hbare f rfl hbareness
      | cons hg _ =>
        obtain ⟨w, rest', rfl, hw⟩ := starts_of_written hg
        exact isMark_of_starts hw

/-- Specifiers are read back from the tokens that they are written as, in any order: all markers and
attributes, and the last deprecation and alignment.  The stream is left where the next token stands,
which begins no specifier and is no argument list of a macro that has none. -/
theorem specifiers_of_written {fs : List SpecifierForm} (h : SpecifierForm.AllWritten fs ts)
    (x : Session υ) (hsound : x.stream.Sound) {s' : Stream} (htakes : x.stream.Takes ts s')
    (ht : s'.peek.result = .ok t) (hstarts : ¬ t.StartsSpecifier)
    (hbare : ∀ f ∈ fs.getLast?, f.IsBare → t.isMark '(' = false) :
    ∃ z, specifiers.Ends x (Specifiers.ofForms fs) { x with stream := z } ∧ z.StandsAt s' := by
  have hloop := (rounds_specifiers (υ := υ) h hstarts hbare Specifiers.none).loop (content_of_all h)
  rw [foldl_addTo] at hloop
  exact hloop x x.stream s' t (.refl _) hsound htakes ht rfl

/-- Specifiers of every kind, two of them deprecations, in front of a class. -/
theorem specifiers_sample :
    let word (text : String) : Token := ⟨.identifier, text, ⟨0, 1⟩, ⟨0, 1⟩⟩
    let mark (text : String) : Token := ⟨.symbol, text, ⟨0, 1⟩, ⟨0, 1⟩⟩
    let version : Token := ⟨.floatConst, "5.1", ⟨0, 1⟩, ⟨0, 1⟩⟩
    let message : Token := ⟨.stringConst, "\"old\"", ⟨0, 1⟩, ⟨0, 1⟩⟩
    let sixteen : Token := ⟨.decimalConst, "16", ⟨0, 1⟩, ⟨0, 1⟩⟩
    let inner := [word "a", mark "(", word "b", mark ")"]
    let forms : List SpecifierForm := [.deprecation .bare none, .marker .noDiscard,
      .attributes (some "gnu") [⟨none, "hot", none⟩, ⟨some "clang", "weak", some inner⟩],
      .alignment 16, .deprecation .deprecated (some (version, some message))]
    let tokens := [[word "DEPRECATED"], [word "UE_NODISCARD"],
      [mark "[[", word "using", word "gnu", mark ":", word "hot", mark ",", word "clang", mark "::",
        word "weak", mark "(", word "a", mark "(", word "b", mark ")", mark ")", mark "]", mark "]"],
      [word "alignas", mark "(", sixteen, mark ")"],
      [word "UE_DEPRECATED", mark "(", version, mark ",", message, mark ")"]].flatten
    let replay (rest : List Token) : Stream := .replay ⟨rest, [], ⟨.endOfFile, "", ⟨0, 1⟩, ⟨0, 1⟩⟩⟩
    let x : Session Unit := ⟨replay (tokens ++ [word "class"]), .empty, ()⟩
    SpecifierForm.AllWritten forms tokens ∧ x.stream.Sound ∧
      x.stream.Takes tokens (replay [word "class"]) ∧ ¬ (word "class").StartsSpecifier ∧
      specifiers.Ends x ⟨some ⟨.deprecated, some "5.1", some "old"⟩, [.noDiscard],
        [⟨some "gnu", "hot", none⟩, ⟨some "clang", "weak", some "a ( b )"⟩], some 16⟩
        { x with stream := replay [word "class"] } := by
  intro word mark version message sixteen inner forms tokens replay x
  have hsixteen : sixteen.IsDecimal [] ['1', '6'] :=
    ⟨rfl, .inl rfl, by decide, List.all_eq_true.mp rfl, [], by decide, nofun⟩
  have hinner : Balanced ('(', ')') inner := (balanced_iff_depthOf (by decide)).mpr (by decide)
  have hhot : AttributeForm.Written ⟨none, "hot", none⟩ ([word "hot"] ++ []) :=
    .intro (@AttributeForm.NameWritten.plain (word "hot") rfl) .none
  have hweak : AttributeForm.Written ⟨some "clang", "weak", some inner⟩
      ([word "clang", mark "::", word "weak"] ++ mark "(" :: (inner ++ [mark ")"])) :=
    .intro (@AttributeForm.NameWritten.qualified (word "clang") (mark "::") (word "weak") rfl
      (by decide) rfl) (.some (by decide) (by decide) hinner (by decide))
  have hscope : AttributeForm.ScopeWritten (some "gnu") [word "using", word "gnu", mark ":"] :=
    @AttributeForm.ScopeWritten.some (word "using") (word "gnu") (mark ":") (by decide) rfl (by decide)
  have hwritten : SpecifierForm.AllWritten forms tokens :=
    .cons (.bare (by decide)) <| .cons (.marker (by decide)) <|
    .cons (.attributes (by decide) hscope
      (.inr (.more hhot (by decide) (.last hweak))) (by decide) (by decide) (by decide)) <|
    .cons (.alignment (by decide) (by decide) hsixteen (by decide) (by decide)) <|
    .cons (.message (by decide) (by decide) (by decide) (by decide) (by decide) (by decide)) .nil
  have hread : Specifiers.ofForms forms = ⟨some ⟨.deprecated, some "5.1", some "old"⟩, [.noDiscard],
      [⟨some "gnu", "hot", none⟩, ⟨some "clang", "weak", some "a ( b )"⟩], some 16⟩ := by
    decide +kernel
  have hstarts : ¬ (word "class").StartsSpecifier := by
    rintro (⟨kind, h⟩ | ⟨m, h⟩ | h | h)
    · cases kind <;> exact absurd h (by decide)
    · cases m <;> exact absurd h (by decide)
    · exact absurd h (by decide)
    · exact absurd h (by decide)
  have htakes : x.stream.Takes tokens (replay [word "class"]) :=
    Stream.takes_replay tokens [word "class"] [] _
  obtain ⟨z, hends, hz⟩ := specifiers_of_written hwritten x rfl htakes rfl hstarts fun _ _ _ => by decide
  obtain rfl := Stream.standsAt_replay.mp hz
  rw [hread] at hends
  exact ⟨hwritten, rfl, htakes, hstarts, hends⟩

end Grammar

end HeaderLex
