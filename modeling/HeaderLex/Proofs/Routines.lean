import HeaderLex.Grammar.Declaration
import HeaderLex.Grammar.QualifiedName
import HeaderLex.Grammar.Specifier
import HeaderLex.Proofs.Interchange

/-!
# The grammar on live and replayed streams

No routine of the grammar can tell a lexer from a replay of its tokens: it gives the same result on
both, or fails on both with the same cause.  Each routine gets one lemma, from the lemmas of the
routines that it is made of.

* `SkipsEnd`          a test that no end mark passes;
* `Interchangeable`   parsers that run alike wherever one more checkpoint has room;
* `Interchangeable.bind`, `Interchangeable.loop`, ...   how such parsers are put together.
-/

namespace HeaderLex

open HeaderLex.Parser HeaderLex.Operation HeaderLex.Grammar

/-! ## tests of tokens -/

/-- No end mark passes the test. -/
def SkipsEnd (test : Token → Bool) : Prop := ∀ t : Token, t.isEnd = true → test t = false

namespace Token

variable {t : Token}

theorem isSymbol_of_end (h : t.isEnd = true) : t.isSymbol = false := by
  unfold isEnd at h
  unfold isSymbol
  cases hk : t.kind <;> rw [hk] at h <;> first | rfl | cases h

theorem isIdentifier_of_end (h : t.isEnd = true) : t.isIdentifier = false := by
  unfold isEnd at h
  unfold isIdentifier
  cases hk : t.kind <;> rw [hk] at h <;> first | rfl | cases h

theorem isOperator_of_end (h : t.isEnd = true) (text : String) : t.isOperator text = false := by
  unfold isOperator
  rw [isSymbol_of_end h, Bool.false_and]

theorem isMark_of_end (h : t.isEnd = true) (c : Char) : t.isMark c = false :=
  isOperator_of_end h c.toString

theorem isNumeric_of_end (h : t.isEnd = true) : t.isNumeric = false := by
  unfold isEnd at h
  unfold isNumeric isInteger isFloat
  cases hk : t.kind <;> rw [hk] at h <;> first | rfl | cases h

theorem int?_of_end (h : t.isEnd = true) : t.int? = none := by
  unfold isEnd at h
  unfold int?
  cases hk : t.kind <;> rw [hk] at h <;> first | rfl | cases h

theorem long?_of_end (h : t.isEnd = true) : t.long? = none := by
  unfold isEnd at h
  unfold long?
  cases hk : t.kind <;> rw [hk] at h <;> first | rfl | cases h

theorem double?_of_end (h : t.isEnd = true) : t.double? = none := by
  unfold isEnd at h
  unfold double?
  cases hk : t.kind <;> rw [hk] at h <;> first | rfl | cases h

theorem float?_of_end (h : t.isEnd = true) : t.float? = none := by
  unfold float?
  rw [double?_of_end h]
  rfl

theorem skipsEnd_isMark (c : Char) : SkipsEnd (·.isMark c) := fun _ h => isMark_of_end h c

theorem skipsEnd_isOperator (text : String) : SkipsEnd (·.isOperator text) :=
  fun _ h => isOperator_of_end h text

theorem skipsEnd_isWord (text : String) : SkipsEnd (·.isWord text) := by
  intro t h
  show (t.isIdentifier && _) = false
  rw [isIdentifier_of_end h, Bool.false_and]

theorem skipsEnd_isIdentifier : SkipsEnd isIdentifier := fun _ h => isIdentifier_of_end h

theorem skipsEnd_spells (text : String) : SkipsEnd (·.spells text) := by
  intro t h
  show ((t.isIdentifier || t.isSymbol) && _) = false
  rw [isIdentifier_of_end h, isSymbol_of_end h, Bool.or_false, Bool.false_and]

end Token

/-! ## parsers that cannot tell the streams apart -/

/-- On streams that stand alike, with room for one more checkpoint, the parsers run alike; a result
that says so consumed a token. -/
def Interchangeable {υ α : Type} (p q : Parser υ α) (taken : α → Prop) : Prop :=
  ∀ (ends : Ends) (σ : Standing), σ.saved.length < maxReplayCheckpoints →
    Runs ends σ σ.rest.length p q taken

theorem Standing.Keeps.room {σ σ' : Standing} (h : σ.Keeps σ') {n : Nat} (hroom : σ.saved.length < n) :
    σ'.saved.length < n := by
  rw [h.saved]
  exact hroom

theorem Standing.behind_lt {σ : Standing} {t : Token} {ts : List Token} (h : σ.rest = t :: ts) :
    σ.behind.rest.length < σ.rest.length := by
  show σ.rest.tail.length < _
  rw [h]
  exact Nat.lt_succ_self _

namespace Runs

variable {υ α : Type} {ends : Ends} {σ : Standing} {n : Nat} {taken : α → Prop}

/-- A token that passes a test no end mark passes is the same on both streams. -/
theorem ifLook {test : Token → Bool} (htest : SkipsEnd test) {f g f' g' : Token → Parser υ α}
    (hyes : ∀ t ts, σ.rest = t :: ts → test t = true → Runs ends σ.looking n (f t) (g t) taken)
    (hno : ∀ t u, Seen ends σ t u → Runs ends σ.looking n (f' t) (g' u) taken) :
    Runs ends σ n (Parser.peek >>= fun t => if test t = true then f t else f' t)
      (Parser.peek >>= fun t => if test t = true then g t else g' t) taken := by
  apply look
  intro t u hseen
  obtain ⟨-, ht, hu⟩ | ⟨-, rfl, ts, hrest⟩ := hseen.cases
  · rw [if_neg (by rw [htest t ht.isEnd]; decide), if_neg (by rw [htest u hu.isEnd]; decide)]
    exact hno t u hseen
  · split
    · next h => exact hyes _ ts hrest h
    · exact hno _ _ hseen

theorem unexpected {t u : Token} {σ' : Standing} (h : Seen ends σ' t u) (expected : String)
    (context : Option String) :
    Runs ends σ n (Grammar.unexpected expected t context : Parser υ α)
      (Grammar.unexpected expected u context) taken := by
  apply refuse
  obtain ⟨-, ht, hu⟩ | ⟨-, rfl, -⟩ := h.cases
  · have hrender : t.render = u.render := by
      unfold Token.render
      rw [ht.isEnd, hu.isEnd, ht.kind, hu.kind]
      rfl
    rw [hrender, ht.start, hu.start]
    exact .inr ⟨_, rfl, rfl⟩
  · exact .inl rfl

end Runs

namespace Interchangeable

variable {υ α β γ : Type} {taken : α → Prop}

theorem pure {a : α} (h : ¬ taken a) : Interchangeable (Pure.pure a : Parser υ α) (Pure.pure a) taken :=
  fun _ _ _ => .pure fun ha => absurd ha h

theorem weaken {before : α → Prop} {p q : Parser υ α} (h : Interchangeable p q before)
    (hle : ∀ a, taken a → before a) : Interchangeable p q taken :=
  fun ends σ hroom => (h ends σ hroom).weaken fun a ha => .inl ⟨hle a ha, Nat.le_refl _⟩

/-- What the first parser took need not be taken again. -/
theorem bind {p q : Parser υ β} {before : β → Prop} {f g : β → Parser υ α}
    (h : Interchangeable p q before)
    (hf : ∀ b, Interchangeable (f b) (g b) (fun a => taken a ∧ ¬ before b)) :
    Interchangeable (p >>= f) (q >>= g) taken := by
  intro ends σ hroom
  apply (h ends σ hroom).bind
  intro σ' b hkeeps hbefore
  apply (hf b ends σ' (hkeeps.room hroom)).weaken
  intro a ha
  by_cases hb : before b
  · exact .inr (hbefore hb)
  · exact .inl ⟨⟨ha, hb⟩, hkeeps.shorter⟩

theorem map {p q : Parser υ β} {before : β → Prop} (h : Interchangeable p q before) (f : β → α)
    (htaken : ∀ b, taken (f b) → before b) :
    Interchangeable (p >>= fun b => Pure.pure (f b)) (q >>= fun b => Pure.pure (f b)) taken :=
  h.bind fun b => .pure fun ha => ha.2 (htaken b ha.1)

/-- A choice by the next token. -/
theorem ifPeek {test : Token → Bool} (htest : SkipsEnd test) {p q p' q' : Parser υ α}
    (hyes : Interchangeable p q taken) (hno : Interchangeable p' q' taken) :
    Interchangeable (Parser.peek >>= fun t => if test t = true then p else p')
      (Parser.peek >>= fun t => if test t = true then q else q') taken := by
  intro ends σ hroom
  apply Runs.ifLook htest
  · exact fun _ _ _ _ => hyes ends σ.looking hroom
  · exact fun _ _ _ => hno ends σ.looking hroom

/-- A choice by the next token, which is consumed if it is the wanted one. -/
theorem ifTake {test : Token → Bool} (htest : SkipsEnd test) {f g : Unit → Parser υ α}
    {p q : Parser υ α} (hyes : Interchangeable (f ()) (g ()) (fun _ => False))
    (hno : Interchangeable p q taken) :
    Interchangeable (Parser.peek >>= fun t => if test t = true then Parser.consume >>= f else p)
      (Parser.peek >>= fun t => if test t = true then Parser.consume >>= g else q) taken := by
  intro ends σ hroom
  apply Runs.ifLook htest
  · intro _ ts hrest _
    apply Runs.take rfl
    exact (hyes ends σ.behind hroom).weaken fun _ _ => .inr (Standing.behind_lt hrest)
  · exact fun _ _ _ => hno ends σ.looking hroom

theorem loop {body body' : β → Parser υ (β ⊕ γ)}
    (hbody : ∀ b, Interchangeable (body b) (body' b) (fun r => r.isLeft = true)) (b : β) :
    Interchangeable (Parser.loop body b) (Parser.loop body' b) (fun _ => False) :=
  fun ends _ hroom => Runs.loop (fun σ' b hkeeps => hbody b ends σ' (hkeeps.room hroom)) b

/-- Turns that consume a token, until one says that it was the last. -/
theorem untilDone {p q : Parser υ Bool} (h : Interchangeable p q (fun done => done = false)) :
    Interchangeable
      (Parser.loop (fun _ => do if ← p then return .inr () else return .inl ()) ())
      (Parser.loop (fun _ => do if ← q then return .inr () else return .inl ()) ())
      (fun _ : Unit => False) := by
  apply loop
  intro _
  apply h.bind
  intro done
  split
  · exact .pure fun h => by cases h.1
  · next hdone => exact .pure fun h => h.2 (Bool.eq_false_iff.2 hdone)

theorem withState {δ : Type} {p q : Parser (υ × δ) α} (init : δ)
    (h : Interchangeable p q (fun _ => False)) :
    Interchangeable (Parser.withState init p) (Parser.withState init q) (fun _ => False) := by
  intro ends σ hroom
  apply (Agree.withState init (h ends σ hroom)).mono
  · rintro σ' ⟨a, d⟩ ⟨_, _⟩ ⟨⟨hkeeps, rfl, -⟩, rfl⟩
    exact ⟨hkeeps, rfl, False.elim⟩
  · exact fun _ _ _ h => h

theorem still {p : Parser υ α} (h : Still p) : Interchangeable p p (fun _ => False) := by
  intro ends σ _
  apply (h ends σ).mono
  · rintro _ a _ ⟨rfl, rfl⟩
    exact ⟨.refl _, rfl, False.elim⟩
  · rintro _ f _ ⟨rfl, rfl⟩
    exact ⟨.refl _, .inl rfl⟩

end Interchangeable

/-! ## single tokens -/

namespace Grammar

variable {υ α : Type}

/-- Nothing is known about what was consumed. -/
abbrev Uncounted {α : Type} : α → Prop := fun _ => False

theorem interchangeable_tryIf {test : Token → Bool} (htest : SkipsEnd test) :
    Interchangeable (tryIf test : Parser υ (Option Token)) (tryIf test) (fun o => o.isSome = true) := by
  intro ends σ hroom
  unfold tryIf
  apply Runs.ifLook htest
  · intro t ts hrest _
    apply Runs.take rfl
    exact .pure fun _ => Standing.behind_lt hrest
  · intro t u _
    exact .pure fun h => by cases h

theorem interchangeable_requireIf {test : Token → Bool} (htest : SkipsEnd test) (expected : String)
    (context : Option String) :
    Interchangeable (requireIf test expected context : Parser υ Token)
      (requireIf test expected context) (fun _ => True) := by
  intro ends σ hroom
  unfold requireIf
  apply Runs.ifLook htest
  · intro t ts hrest _
    apply Runs.take rfl
    exact .pure fun _ => Standing.behind_lt hrest
  · intro t u hseen
    exact .unexpected hseen expected context

theorem interchangeable_tryText (text : String) :
    Interchangeable (tryText text : Parser υ Bool) (tryText text) (fun b => b = true) :=
  (interchangeable_tryIf (Token.skipsEnd_spells text)).map Option.isSome fun _ h => h

theorem interchangeable_tryMark (c : Char) :
    Interchangeable (tryMark c : Parser υ Bool) (tryMark c) (fun b => b = true) :=
  (interchangeable_tryIf (Token.skipsEnd_isMark c)).map Option.isSome fun _ h => h

theorem interchangeable_tryAny (texts : List String) :
    Interchangeable (tryAny texts : Parser υ (Option Token)) (tryAny texts) Uncounted := by
  have htest : SkipsEnd fun t => texts.any t.spells := by
    intro t h
    rw [List.any_eq_false]
    intro text _ hspells
    cases hspells.symm.trans (Token.skipsEnd_spells text t h)
  exact (interchangeable_tryIf htest).weaken fun _ => False.elim

theorem interchangeable_optional (text : String) :
    Interchangeable (optional text : Parser υ Unit) (optional text) Uncounted :=
  (interchangeable_tryText text).map (fun _ => ()) fun _ => False.elim

theorem interchangeable_optionalWith (text : String) {action action' : Parser υ Unit}
    (haction : Interchangeable action action' Uncounted) :
    Interchangeable (optionalWith text action) (optionalWith text action') Uncounted := by
  unfold optionalWith
  apply (interchangeable_tryText text).bind
  intro b
  split
  · exact haction.map (fun _ => true) fun _ h => h.1
  · exact .pure And.left

theorem interchangeable_requireText (text : String) (context : Option String) :
    Interchangeable (requireText text context : Parser υ Token) (requireText text context)
      (fun _ => True) :=
  interchangeable_requireIf (Token.skipsEnd_spells text) text context

theorem interchangeable_requireMark (c : Char) (context : Option String) :
    Interchangeable (requireMark c context : Parser υ Token) (requireMark c context)
      (fun _ => True) :=
  interchangeable_requireIf (Token.skipsEnd_isMark c) c.toString context

theorem interchangeable_tryIdentifier :
    Interchangeable (tryIdentifier : Parser υ (Option Token)) tryIdentifier
      (fun o => o.isSome = true) :=
  interchangeable_tryIf Token.skipsEnd_isIdentifier

theorem interchangeable_requireIdentifier (context : Option String) :
    Interchangeable (requireIdentifier context : Parser υ Token) (requireIdentifier context)
      (fun _ => True) :=
  interchangeable_requireIf Token.skipsEnd_isIdentifier "identifier" context

/-! ## lists and groups -/

/-- After an element the list ends, or a separator is consumed. -/
theorem interchangeable_listTurn (form : ListForm) {action action' : Parser υ Unit}
    (haction : Interchangeable action action' Uncounted) :
    Interchangeable (listTurn form action) (listTurn form action') (fun b => b = false) := by
  unfold listTurn
  apply haction.bind
  intro _
  apply (interchangeable_tryMark form.closing).bind
  intro closed
  split
  · exact .pure fun h => by cases h.1.1
  · intro ends σ hroom
    apply Runs.look
    intro t u hseen
    obtain ⟨-, ht, hu⟩ | ⟨-, rfl, ts, hrest⟩ := hseen.cases
    · rw [Token.isMark_of_end ht.isEnd, Token.isMark_of_end hu.isEnd]
      exact .unexpected hseen _ _
    · split
      · exact .unexpected hseen _ _
      · apply Runs.take rfl
        apply Runs.ifLook (Token.skipsEnd_isMark form.closing)
        · intro v vs _ _
          split
          · apply Runs.take rfl
            exact .pure fun h => by cases h.1.1
          · exact .refuse (.inl rfl)
        · intro v w _
          exact .pure fun _ => Standing.behind_lt hrest

theorem interchangeable_requireList (form : ListForm) {action action' : Parser υ Unit}
    (haction : Interchangeable action action' Uncounted) :
    Interchangeable (requireList form action) (requireList form action') Uncounted := by
  unfold requireList
  apply (interchangeable_requireMark form.opening form.context).bind
  intro _
  apply (interchangeable_tryMark form.closing).bind
  intro closed
  split
  · exact .pure fun h => h.1.1
  · exact (interchangeable_listTurn form haction).untilDone.weaken fun _ h => h.1.1

theorem interchangeable_tryList (form : ListForm) {action action' : Parser υ Unit}
    (haction : Interchangeable action action' Uncounted) :
    Interchangeable (tryList form action) (tryList form action') Uncounted := by
  apply Interchangeable.ifPeek (Token.skipsEnd_isMark form.opening)
  · exact (interchangeable_requireList form haction).map (fun _ => true) fun _ => False.elim
  · exact .pure False.elim

theorem still_nextClosers (form : ListForm) (closers : List Char) (t : Token) :
    Still (nextClosers form closers t : Parser υ (List Char)) := by
  unfold nextClosers
  split
  · split
    · split
      · exact .pure _
      · exact .refuse _
    · exact .refuse _
  · exact .pure _

theorem interchangeable_listElement (form : ListForm) :
    Interchangeable (listElement form : Parser υ (List Token)) (listElement form) Uncounted := by
  unfold listElement
  refine (Interchangeable.loop ?_ _).bind ?_
  · rintro ⟨tokens, closers⟩ ends σ hroom
    apply Runs.look
    intro t u hseen
    obtain ⟨-, ht, hu⟩ | ⟨hkind, rfl, ts, hrest⟩ := hseen.cases
    · rw [ht.isEnd, hu.isEnd]
      exact .unexpected hseen _ _
    · rw [hkind]
      rw [if_neg (by decide)]
      split
      · exact .pure fun h => by cases h
      · apply (still_nextClosers form closers _).runs
        intro closers'
        apply Runs.take rfl
        exact .pure fun _ => Standing.behind_lt hrest
  · intro tokens ends σ hroom
    split
    · apply Runs.look
      intro t u hseen
      exact .unexpected hseen _ _
    · exact .pure fun h => h.1.elim

theorem interchangeable_requireListTokens (form : ListForm) {action action' : List Token → Parser υ Unit}
    (haction : ∀ element, Interchangeable (action element) (action' element) Uncounted) :
    Interchangeable (requireListTokens form action) (requireListTokens form action') Uncounted :=
  interchangeable_requireList form
    ((interchangeable_listElement form).bind fun element =>
      (haction element).weaken fun _ h => h.1)

theorem interchangeable_listElements (form : ListForm) :
    Interchangeable (listElements form : Parser υ (List (List Token))) (listElements form)
      Uncounted := by
  refine (Interchangeable.withState [] (interchangeable_requireListTokens form ?_)).map Prod.snd
    fun _ => False.elim
  exact fun element => .still (.modifyUser _)

theorem interchangeable_skipBalanced (opening closing : Char) (context : String) :
    Interchangeable (skipBalanced opening closing context : Parser υ (List Token))
      (skipBalanced opening closing context) Uncounted := by
  unfold skipBalanced
  apply (interchangeable_requireMark opening context).bind
  intro start
  refine (Interchangeable.loop ?_ _).weaken fun _ h => h.1
  rintro ⟨inner, depth⟩ ends σ hroom
  apply Runs.next
  intro t u hseen
  obtain ⟨-, ht, hu⟩ | ⟨hkind, rfl, ts, hrest⟩ := hseen.cases
  · rw [ht.isEnd, hu.isEnd]
    exact .refuse (.inl rfl)
  · have hless := Standing.behind_lt hrest
    rw [hkind, if_neg (by decide)]
    split
    · exact .pure fun _ => hless
    · split
      · split
        · exact .pure fun _ => hless
        · exact .pure fun _ => hless
      · exact .pure fun _ => hless

/-! ## numeric constants -/

/-- A token without a value is no failure. -/
theorem agree_tryDecoded {decode : Token → Option α}
    (hdecode : ∀ t : Token, t.isEnd = true → decode t = none) (ends : Ends) (σ : Standing)
    {E : Standing → Failure → Failure → Prop} :
    Agree ends σ (tryDecoded decode : Parser υ (Option α)) (tryDecoded decode)
      (fun σ' a b => σ.Keeps σ' ∧ a = b ∧ (a.isSome = true → σ'.rest.length < σ.rest.length)) E := by
  unfold tryDecoded
  apply Agree.peek.andThen
  rintro _ t u ⟨rfl, hseen⟩
  obtain ⟨-, ht, hu⟩ | ⟨-, rfl, ts, hrest⟩ := hseen.cases
  · rw [hdecode t ht.isEnd, hdecode u hu.isEnd]
    exact .pure ⟨σ.keeps_looking, rfl, fun h => by cases h⟩
  · split
    · apply (Agree.consume rfl).andThen
      rintro _ _ _ rfl
      exact .pure ⟨σ.keeps_behind, rfl, fun _ => Standing.behind_lt hrest⟩
    · exact .pure ⟨σ.keeps_looking, rfl, fun h => by cases h⟩

theorem interchangeable_tryDecoded {decode : Token → Option α}
    (hdecode : ∀ t : Token, t.isEnd = true → decode t = none) :
    Interchangeable (tryDecoded decode : Parser υ (Option α)) (tryDecoded decode)
      (fun o => o.isSome = true) :=
  fun ends σ _ => agree_tryDecoded hdecode ends σ

/-- The checkpoint before a sign is gone afterwards, and without a number the sign is back. -/
theorem interchangeable_trySigned {decode : Token → Option α}
    (hdecode : ∀ t : Token, t.isEnd = true → decode t = none) (negate : α → α) :
    Interchangeable (trySigned decode negate : Parser υ (Option α)) (trySigned decode negate)
      Uncounted := by
  have hsign : SkipsEnd fun t => t.isMark '-' || t.isMark '+' := by
    intro t h
    show (t.isMark '-' || t.isMark '+') = false
    rw [Token.isMark_of_end h, Token.isMark_of_end h]
    rfl
  intro ends σ hroom
  unfold trySigned
  apply Runs.ifLook hsign
  · intro sign ts _ _
    have hroom : σ.looking.saved.length < maxReplayCheckpoints := hroom
    have hmarked : σ.looking.marked.Keeps σ.looking.marked.behind := Standing.keeps_behind _
    apply Agree.andThen (Agree.save hroom)
    rintro _ _ _ rfl
    apply Agree.andThen (Agree.consume rfl)
    rintro _ _ _ rfl
    apply Agree.andThen ((agree_tryDecoded hdecode ends _).attempt fun _ _ _ => False.elim)
    rintro σ' _ _ (⟨o, _, rfl, rfl, hkeeps, rfl, -⟩ | ⟨_, _, -, -, hfalse⟩)
    · have hsaved : σ'.saved = σ.looking.toSpot :: σ.saved := hkeeps.saved
      cases o with
      | some v => exact Runs.goOn hsaved (hmarked.trans hkeeps).shorter False.elim
      | none => exact Runs.goBack hsaved False.elim
    · exact hfalse.elim
  · intro t u _
    exact Runs.weaken (agree_tryDecoded hdecode ends σ.looking) fun _ => False.elim

theorem interchangeable_missingInt (context : Option String) {taken : α → Prop} :
    Interchangeable (missingInt context : Parser υ α) (missingInt context) taken := by
  intro ends σ _
  apply Runs.ifLook fun _ h => Token.isNumeric_of_end h
  · exact fun _ _ _ _ => .refuse (.inl rfl)
  · exact fun _ _ hseen => .unexpected hseen _ _

theorem interchangeable_requireInt (context : Option String) :
    Interchangeable (requireInt context : Parser υ Int32) (requireInt context) Uncounted := by
  apply (interchangeable_tryDecoded fun _ h => Token.int?_of_end h).bind
  intro o
  cases o with
  | some v => exact .pure And.left
  | none => exact interchangeable_missingInt context

theorem interchangeable_requireIntExpression (context : Option String) :
    Interchangeable (requireIntExpression context : Parser υ Int32) (requireIntExpression context)
      Uncounted := by
  apply (interchangeable_trySigned (fun _ h => Token.int?_of_end h) (- ·)).bind
  intro o
  cases o with
  | some v => exact .pure And.left
  | none => exact interchangeable_missingInt context

end Grammar

end HeaderLex
