import HeaderLex.Grammar.Declaration
import HeaderLex.Grammar.QualifiedName
import HeaderLex.Grammar.Specifier
import HeaderLex.Proofs.Routines

/-!
# Names, specifiers and declarations on live and replayed streams

The routines of the grammar that keep tokens in the arena, read specifiers or skip a declaration.

* `still_pushToken`                   keeping a token leaves the stream alone;
* `interchangeable_tryQualifiedName`  qualified names, with their tokens given back after a failure;
* `interchangeable_skipDeclaration`   skipped declarations, also one that begins with an end mark;
* `interchangeable_specifiers`        specifiers, each of which consumes a token.
-/

namespace HeaderLex.Grammar

open HeaderLex.Parser HeaderLex.Operation

variable {υ α : Type}

/-! ## qualified names -/

theorem still_pushToken (t : Token) : Still (pushToken t : Parser (υ × TokenList) Unit) := by
  apply Still.user.bind
  rintro ⟨u, list⟩
  apply (Still.onArena _).bind
  exact fun list => .modifyUser _

/-- Keeps the next token if it is a wanted one. -/
theorem runs_pushIf {ends : Ends} {σ : Standing} {n : Nat} {taken : α → Prop} {test : Token → Bool}
    (htest : SkipsEnd test) {p q p' q' : Parser (υ × TokenList) α}
    (hyes : Runs ends σ.behind n p q taken) (hno : Runs ends σ.looking n p' q' taken) :
    Runs ends σ n
      (peek >>= fun t => if test t = true then consume >>= fun _ => pushToken t >>= fun _ => p else p')
      (peek >>= fun t => if test t = true then consume >>= fun _ => pushToken t >>= fun _ => q else q')
      taken := by
  apply Runs.ifLook htest
  · intro t ts _ _
    apply Runs.take rfl
    exact (still_pushToken t).runs fun _ => hyes
  · exact fun _ _ _ => hno

/-- The bracket that opens the arguments is no end mark. -/
theorem runs_templateArguments {ends : Ends} {σ : Standing} {t : Token} {ts : List Token}
    (hroom : σ.saved.length < maxReplayCheckpoints) (hrest : σ.rest = t :: ts) :
    Runs ends σ σ.rest.length (templateArguments : Parser (υ × TokenList) Unit) templateArguments
      Uncounted := by
  unfold templateArguments
  apply Runs.next
  intro start _ hseen
  obtain ⟨hnil, -⟩ | ⟨-, rfl, -⟩ := hseen.cases
  · rw [hrest] at hnil
    cases hnil
  apply (still_pushToken _).runs
  intro _
  refine (Interchangeable.loop ?_ 0 ends σ.behind hroom).weaken fun _ => False.elim
  intro depth ends σ _
  apply Runs.look
  intro t u hseen
  obtain ⟨-, ht, hu⟩ | ⟨hkind, rfl, ts, hrest⟩ := hseen.cases
  · have hends : ∀ {t : Token}, t.isEnd = true → endsTemplate t = true := by
      intro t h
      unfold endsTemplate
      rw [h]
      rfl
    rw [hends ht.isEnd, hends hu.isEnd]
    exact .refuse (.inl rfl)
  · have hless := Standing.behind_lt hrest
    split
    · exact .refuse (.inl rfl)
    · apply Runs.take rfl
      apply (still_pushToken _).runs
      intro _
      split
      · exact .pure fun _ => hless
      · split
        · split
          · exact .pure fun _ => hless
          · exact .pure fun _ => hless
        · exact .pure fun _ => hless

theorem interchangeable_nameSegment (templates : Bool) :
    Interchangeable (nameSegment templates : Parser (υ × TokenList) Bool) (nameSegment templates)
      (fun b => b = false) := by
  unfold nameSegment
  apply (interchangeable_requireIdentifier _).bind
  intro t ends σ hroom
  apply (still_pushToken _).runs
  intro _
  split
  · apply Runs.ifLook (Token.skipsEnd_isMark '<')
    · intro t ts hrest _
      apply (@runs_templateArguments υ ends σ.looking t ts hroom hrest).bind
      intro σ' _ _ _
      exact runs_pushIf (Token.skipsEnd_isOperator "::") (.pure fun h => absurd trivial h.2)
        (.pure fun h => absurd trivial h.2)
    · intro _ _ _
      exact runs_pushIf (Token.skipsEnd_isOperator "::") (.pure fun h => absurd trivial h.2)
        (.pure fun h => absurd trivial h.2)
  · exact runs_pushIf (Token.skipsEnd_isOperator "::") (.pure fun h => absurd trivial h.2)
      (.pure fun h => absurd trivial h.2)

theorem interchangeable_nameTokens (templates : Bool) :
    Interchangeable (nameTokens templates : Parser (υ × TokenList) Unit) (nameTokens templates)
      Uncounted := by
  have hsegments := (@interchangeable_nameSegment υ templates).untilDone
  intro ends σ hroom
  apply runs_pushIf (Token.skipsEnd_isOperator "::")
  · exact (hsegments ends σ.behind hroom).weaken fun _ => False.elim
  · exact (hsegments ends σ.looking hroom).weaken fun _ => False.elim

/-- After a failure the tokens of a name are given back on both sides. -/
theorem interchangeable_tryQualifiedName (templates : Bool) :
    Interchangeable (tryQualifiedName templates : Parser υ (Option TokenList))
      (tryQualifiedName templates) Uncounted := by
  have htest : SkipsEnd fun t => t.isIdentifier || t.isOperator "::" := by
    intro t h
    show (t.isIdentifier || t.isOperator "::") = false
    rw [Token.isIdentifier_of_end h, Token.isOperator_of_end h]
    rfl
  intro ends σ hroom
  apply Runs.ifLook htest
  · intro t ts _ _
    have hname := @interchangeable_nameTokens υ templates ends σ.looking hroom
    have hcollecting := (hname.attempt fun _ _ _ h => h.2).withState TokenList.empty
    apply Runs.after hcollecting
    · rintro σ' ⟨_, list⟩ ⟨_, _⟩ ⟨⟨_, _, rfl, rfl, hkeeps, rfl, -⟩ | ⟨e, e', rfl, rfl, hkeeps, halike⟩, rfl⟩
      · exact ⟨hkeeps, .pure False.elim⟩
      · refine ⟨hkeeps, (Still.onArena _).runs fun _ => ?_⟩
        exact Agree.fail ⟨.refl _, halike⟩
    · exact fun _ _ _ h => h
  · exact fun _ _ _ => .pure False.elim

theorem interchangeable_requireQualifiedName (templates : Bool) (context : Option String) :
    Interchangeable (requireQualifiedName templates context : Parser υ TokenList)
      (requireQualifiedName templates context) Uncounted := by
  apply (interchangeable_tryQualifiedName templates).bind
  intro o
  cases o with
  | some list => exact .pure And.left
  | none =>
    intro ends σ _
    apply Runs.look
    exact fun _ _ hseen => .unexpected hseen _ _

/-! ## skipped declarations -/

theorem interchangeable_skipOn (s : SkipState) :
    Interchangeable (skipOn s : Parser υ (SkipState ⊕ SkipOutcome)) (skipOn s)
      (fun r => r.isLeft = true) := by
  intro ends σ _
  apply Runs.next
  intro t u hseen
  obtain ⟨-, ht, hu⟩ | ⟨hkind, rfl, ts, hrest⟩ := hseen.cases
  · rw [ht.isEnd, hu.isEnd, ht.start, hu.start, if_pos rfl, if_pos rfl]
    split
    · exact .refuse (.inr ⟨_, rfl, rfl⟩)
    · exact .pure fun h => by cases h
  · rw [hkind, if_neg (by decide)]
    exact .pure fun _ => Standing.behind_lt hrest

theorem interchangeable_skipClosed (s : SkipState) :
    Interchangeable (skipClosed s : Parser υ (SkipState ⊕ SkipOutcome)) (skipClosed s)
      (fun r => r.isLeft = true) := by
  unfold skipClosed
  split
  · intro ends σ _
    apply Runs.ifLook (Token.skipsEnd_isMark '{')
    · intro _ ts hrest _
      apply Runs.next
      intro t u hseen
      obtain ⟨hnil, -⟩ | ⟨hkind, rfl, -⟩ := hseen.cases
      · exact absurd (hrest.symm.trans hnil) (by simp)
      · exact .pure fun _ => @Standing.behind_lt σ.looking _ ts hrest
    · exact fun _ _ _ => .pure fun h => by cases h
  · exact .pure fun h => by cases h

/-- A warning comes before the token is looked at. -/
theorem interchangeable_warned {warn warn' : Warning → Parser υ Unit}
    (hwarn : ∀ w, Interchangeable (warn w) (warn' w) Uncounted) (warning? : Option Warning)
    {p q : Parser υ α} {taken : α → Prop} (h : Interchangeable p q taken) :
    Interchangeable
      (match warning? with
        | some w => warn w >>= fun _ => p
        | _ => p)
      (match warning? with
        | some w => warn' w >>= fun _ => q
        | _ => q) taken := by
  cases warning? with
  | some w => exact (hwarn w).bind fun _ => h.weaken fun _ => And.left
  | none => exact h

theorem interchangeable_skipTurn {warn warn' : Warning → Parser υ Unit}
    (hwarn : ∀ w, Interchangeable (warn w) (warn' w) Uncounted) (s : SkipState) :
    Interchangeable (skipTurn warn s) (skipTurn warn' s) (fun r => r.isLeft = true) := by
  apply interchangeable_warned hwarn
  split
  · exact interchangeable_skipOn _
  · split
    · split
      · exact fun _ _ _ => .refuse (.inl rfl)
      · split
        · exact interchangeable_skipClosed _
        · exact interchangeable_skipOn _
    · split
      · exact .pure fun h => by cases h
      · exact interchangeable_skipOn _

/-- The name of an instance is consumed with its semicolon, or else it is back. -/
theorem interchangeable_skipInstance :
    Interchangeable (skipInstance : Parser υ Nat) skipInstance Uncounted := by
  intro ends σ hroom
  have hnext : σ.marked.Keeps σ.marked.behind := Standing.keeps_behind _
  apply Agree.andThen (Agree.save hroom)
  rintro _ _ _ rfl
  apply Agree.andThen Agree.next
  rintro _ name _ ⟨rfl, hseen⟩
  obtain ⟨-, ht, hu⟩ | ⟨-, rfl, -⟩ := hseen.cases
  · rw [Token.isIdentifier_of_end ht.isEnd, Token.isIdentifier_of_end hu.isEnd]
    exact Runs.goBack rfl False.elim
  · dsimp only
    split
    · apply Agree.andThen Agree.peek
      rintro _ t u ⟨rfl, hseen'⟩
      obtain ⟨-, ht, hu⟩ | ⟨-, rfl, -⟩ := hseen'.cases
      · rw [Token.isMark_of_end ht.isEnd, Token.isMark_of_end hu.isEnd]
        exact Runs.goBack rfl False.elim
      · split
        · apply Agree.andThen (Agree.consume rfl)
          rintro _ _ _ rfl
          refine Runs.goOn rfl ?_ False.elim
          exact (hnext.trans (Standing.keeps_behind _)).shorter
        · exact Runs.goBack rfl False.elim
    · exact Runs.goBack rfl False.elim

theorem interchangeable_skipSemicolons (count : Nat) :
    Interchangeable (skipSemicolons count : Parser υ Nat) (skipSemicolons count) Uncounted := by
  apply Interchangeable.loop
  intro count
  apply (interchangeable_tryMark ';').bind
  intro found
  split
  · next h => exact .pure fun hcount => hcount.2 h
  · exact .pure fun h => by cases h.1

theorem interchangeable_log (event event' : Event) :
    Interchangeable (log event : Parser υ Unit) (log event') Uncounted := by
  intro ends σ _
  apply (Agree.log event event').mono
  · rintro _ _ _ rfl
    exact ⟨.refl _, rfl, False.elim⟩
  · exact fun _ _ _ h => h

/-- What was skipped goes to the log, with the place of its first token. -/
theorem interchangeable_skipLog (first first' : Token) (o : SkipOutcome) (count : Nat) :
    Interchangeable
      (do
        let count ← skipSemicolons count
        log (skipEvent first { o with tokensSkipped := count })
        return { o with tokensSkipped := count } : Parser υ SkipOutcome)
      (do
        let count ← skipSemicolons count
        log (skipEvent first' { o with tokensSkipped := count })
        return { o with tokensSkipped := count }) Uncounted := by
  apply (interchangeable_skipSemicolons count).bind
  intro count
  apply (interchangeable_log _ _).bind
  exact fun _ => .pure fun h => h.1.1

/-- An end mark is skipped whatever its place. -/
theorem skipTurn_of_end {warn : Warning → Parser υ Unit} {t u : Token} (ht : t.isEnd = true)
    (hu : u.isEnd = true) (brackets : Char × Char) (depth : Nat) (o : SkipOutcome) :
    skipTurn warn ⟨t, brackets, depth, o⟩ = skipTurn warn ⟨u, brackets, depth, o⟩ := by
  unfold skipTurn skipWarning?
  simp only [Token.isIdentifier_of_end ht, Token.isIdentifier_of_end hu, Token.isMark_of_end ht,
    Token.isMark_of_end hu]
  rfl

theorem loop_congr {β γ : Type} {body : β → Parser υ (β ⊕ γ)} {b b' : β} (h : body b = body b') :
    loop body b = loop body b' := by
  funext s
  show repeatFor body s.stream.budget b s = repeatFor body s.stream.budget b' s
  cases s.stream.budget with
  | zero => rfl
  | succ turns =>
    show (body b >>= _) s = (body b' >>= _) s
    rw [h]

/-- The declaration may begin with an end mark, which only the log tells from another one. -/
theorem interchangeable_skipDeclaration {first first' : Token}
    (hfirst : first' = first ∨ first'.isEnd = true ∧ first.isEnd = true)
    {warn warn' : Warning → Parser υ Unit}
    (hwarn : ∀ w, Interchangeable (warn w) (warn' w) Uncounted) :
    Interchangeable (skipDeclaration first warn) (skipDeclaration first' warn') Uncounted := by
  obtain ⟨hstyle, hbrackets, hclass, hloop⟩ : isMacroStyle first' = isMacroStyle first ∧
      bodyBrackets first' = bodyBrackets first ∧ isClassWord first' = isClassWord first ∧
      ∀ brackets depth o, loop (skipTurn warn') ⟨first', brackets, depth, o⟩
        = loop (skipTurn warn') ⟨first, brackets, depth, o⟩ := by
    obtain rfl | ⟨h', h⟩ := hfirst
    · exact ⟨rfl, rfl, rfl, fun _ _ _ => rfl⟩
    · refine ⟨?_, ?_, ?_, fun brackets depth o => loop_congr (skipTurn_of_end h' h _ _ _)⟩
      · unfold isMacroStyle
        rw [Token.isIdentifier_of_end h, Token.isIdentifier_of_end h']
        rfl
      · unfold bodyBrackets isMacroStyle
        rw [Token.isIdentifier_of_end h, Token.isIdentifier_of_end h']
        rfl
      · unfold isClassWord Token.isWord
        rw [Token.isIdentifier_of_end h, Token.isIdentifier_of_end h']
        rfl
  unfold skipDeclaration
  rw [hstyle, hbrackets, hclass, hloop]
  apply (Interchangeable.loop (interchangeable_skipTurn hwarn) _).bind
  intro o
  split
  · apply interchangeable_skipInstance.bind
    exact fun taken => (interchangeable_skipLog first first' o _).weaken fun _ h => h.1.1
  · apply (@Interchangeable.pure υ Nat Uncounted 0 not_false).bind
    exact fun taken => (interchangeable_skipLog first first' o _).weaken fun _ h => h.1.1

/-! ## specifiers -/

theorem deprecationOf?_of_end {t : Token} (h : t.isEnd = true) : deprecationOf? t = none := by
  unfold deprecationOf?
  rw [Token.isIdentifier_of_end h]
  rfl

theorem markerOf?_of_end {t : Token} (h : t.isEnd = true) : markerOf? t = none := by
  unfold markerOf?
  rw [Token.isIdentifier_of_end h]
  rfl

theorem interchangeable_tryDeprecation :
    Interchangeable (tryDeprecation : Parser υ (Option Deprecation)) tryDeprecation
      (fun o => o.isSome = true) := by
  intro ends σ hroom
  unfold tryDeprecation
  apply Runs.look
  intro t u hseen
  obtain ⟨-, ht, hu⟩ | ⟨-, rfl, ts, hrest⟩ := hseen.cases
  · rw [deprecationOf?_of_end ht.isEnd, deprecationOf?_of_end hu.isEnd]
    exact .pure fun h => by cases h
  · split
    · exact .pure fun h => by cases h
    · apply Runs.take rfl
      apply Runs.ifLook (Token.skipsEnd_isMark '(')
      · intro _ _ _ _
        apply (interchangeable_listElements _ ends σ.behind.looking hroom).bind
        intro σ' elements hkeeps _
        exact .pure fun _ => Nat.lt_of_le_of_lt hkeeps.shorter (Standing.behind_lt hrest)
      · exact fun _ _ _ => .pure fun _ => Standing.behind_lt hrest

theorem interchangeable_tryMarker :
    Interchangeable (tryMarker : Parser υ (Option Marker)) tryMarker (fun o => o.isSome = true) :=
  interchangeable_tryDecoded fun _ h => markerOf?_of_end h

/-- The arguments of an attribute, if it has some. -/
theorem interchangeable_attributeEnd (f : Option String → Attribute) :
    Interchangeable
      (do
        if (← peek).isMark '(' then
          return f (some (joinValues (← skipBalanced '(' ')' "attribute arguments")))
        else return f none : Parser υ Attribute)
      (do
        if (← peek).isMark '(' then
          return f (some (joinValues (← skipBalanced '(' ')' "attribute arguments")))
        else return f none) Uncounted := by
  apply Interchangeable.ifPeek (Token.skipsEnd_isMark '(')
  · exact (interchangeable_skipBalanced '(' ')' "attribute arguments").map _ fun _ => False.elim
  · exact .pure False.elim

theorem interchangeable_oneAttribute (scope : Option String) :
    Interchangeable (oneAttribute scope : Parser υ Attribute) (oneAttribute scope) Uncounted := by
  apply (interchangeable_requireIdentifier _).bind
  intro first
  apply Interchangeable.ifTake (Token.skipsEnd_isOperator "::")
  · apply (interchangeable_requireIdentifier _).bind
    intro second
    exact (interchangeable_attributeEnd fun arguments =>
      ⟨some first.value, second.value, arguments⟩).weaken fun _ => And.left
  · exact (interchangeable_attributeEnd fun arguments =>
      ⟨scope, first.value, arguments⟩).weaken fun _ => And.left

theorem interchangeable_attributeScope :
    Interchangeable (attributeScope : Parser υ (Option String)) attributeScope Uncounted := by
  apply Interchangeable.ifTake (Token.skipsEnd_isWord "using")
  · apply (interchangeable_requireIdentifier _).bind
    intro scope
    apply (interchangeable_requireMark ':' _).bind
    exact fun _ => .pure fun h => h.1.1
  · exact .pure False.elim

/-- The two brackets that close an attribute list. -/
theorem interchangeable_attributesEnd (attributes : List Attribute) :
    Interchangeable
      (do
        let _ ← requireMark ']' (some "attribute list")
        let _ ← requireMark ']' (some "attribute list")
        return some attributes : Parser υ (Option (List Attribute)))
      (do
        let _ ← requireMark ']' (some "attribute list")
        let _ ← requireMark ']' (some "attribute list")
        return some attributes) Uncounted := by
  apply (interchangeable_requireMark ']' _).bind
  intro _
  apply (interchangeable_requireMark ']' _).bind
  exact fun _ => .pure fun h => h.1.1

theorem interchangeable_tryAttributes :
    Interchangeable (tryAttributes : Parser υ (Option (List Attribute))) tryAttributes
      (fun o => o.isSome = true) := by
  apply Interchangeable.ifTake (Token.skipsEnd_isOperator "[[")
  · apply interchangeable_attributeScope.bind
    intro scope
    apply Interchangeable.ifPeek (Token.skipsEnd_isMark ']')
    · exact (interchangeable_attributesEnd []).weaken fun _ => And.left
    · refine (Interchangeable.loop ?_ []).bind fun attributes =>
        (interchangeable_attributesEnd attributes).weaken fun _ h => h.1.1
      intro attributes
      apply (interchangeable_oneAttribute scope).bind
      intro one
      apply (interchangeable_tryMark ',').bind
      intro more
      split
      · next h => exact .pure fun hleft => hleft.2 h
      · exact .pure fun h => by cases h.1.1
  · exact .pure fun h => by cases h

theorem interchangeable_tryAlignment :
    Interchangeable (tryAlignment : Parser υ (Option Int32)) tryAlignment
      (fun o => o.isSome = true) := by
  apply Interchangeable.ifTake (Token.skipsEnd_isWord "alignas")
  · apply (interchangeable_requireMark '(' _).bind
    intro _
    apply (interchangeable_requireIntExpression _).bind
    intro alignment
    apply (interchangeable_requireMark ')' _).bind
    exact fun _ => .pure fun h => h.1.1.1
  · exact .pure fun h => by cases h

theorem interchangeable_trySpecifier (s : Specifiers) :
    Interchangeable (trySpecifier s : Parser υ (Option Specifiers)) (trySpecifier s)
      (fun o => o.isSome = true) := by
  apply interchangeable_tryDeprecation.bind
  rintro (_ | d)
  · apply interchangeable_tryMarker.bind
    rintro (_ | m)
    · apply interchangeable_tryAttributes.bind
      rintro (_ | as)
      · apply interchangeable_tryAlignment.bind
        rintro (_ | n)
        · exact .pure fun h => by cases h.1.1.1.1
        · exact .pure fun h => h.2 rfl
      · exact .pure fun h => h.2 rfl
    · exact .pure fun h => h.2 rfl
  · exact .pure fun h => h.2 rfl

theorem interchangeable_specifiers :
    Interchangeable (specifiers : Parser υ Specifiers) specifiers Uncounted := by
  apply Interchangeable.loop
  intro s
  apply (interchangeable_trySpecifier s).bind
  rintro (_ | s)
  · exact .pure fun h => by cases h.1
  · exact .pure fun h => h.2 rfl

end HeaderLex.Grammar
