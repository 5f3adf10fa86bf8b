import HeaderLex.Proofs.Tidy

/-!
# Which routines leave a checkpoint behind

A routine of the grammar that comes back, with a result or with an error, has ended all checkpoints
that it set, with one exception.  Behind the body of a class, skipping a declaration looks for the
name of an instance above a checkpoint, and an error of this look ahead is passed on with the
checkpoint still set.

* `Loses`, `Strands`       parsers that leave a checkpoint behind in some sessions, and how they are
                           put together;
* `instanceFails`          the look ahead for the name of an instance meets an error;
* `strandsCheckpoint`      skipping a declaration comes to such a look ahead;
* `Routine`                the routines of the grammar, each with the sessions in which it leaves a
                           checkpoint behind;
* `routine_checkpoints_iff`   how many checkpoints there are after a call.
-/

namespace HeaderLex

open HeaderLex.Parser HeaderLex.Operation HeaderLex.Grammar

section

variable {υ α β : Type}

/-! ## checkpoints left behind -/

/-- Above a checkpoint, the parser ends it before it comes back, but for the sessions that `lost`
holds of: there it fails with the checkpoint still set. -/
def Loses (lost : Session υ → Bool) (p : Parser υ α) : Prop :=
  ∀ s : Session υ, s.stream.checkpoints ≤ s.stream.capacity → returned (p s).result = true →
    match lost s with
    | true => (p s).result.isOk = false ∧ s.stream.Rises 0 (p s).state.stream
    | false => (p s).state.stream.Rises 1 s.stream

/-- With room for a checkpoint, the parser leaves as many checkpoints as it found, but for the
sessions that `lost` holds of: there it fails and leaves one more. -/
def Strands (lost : Session υ → Bool) (p : Parser υ α) : Prop :=
  ∀ s : Session υ, s.stream.checkpoints < s.stream.capacity → returned (p s).result = true →
    s.stream.Rises (lost s).toNat (p s).state.stream ∧ (lost s = true → (p s).result.isOk = false)

/-- No session. -/
def never (_ : Session υ) : Bool := false

/-- What `q` says of the result and of the session that the parser leads to, or `failed`. -/
def behind (p : Parser υ α) (failed : Bool) (q : α → Session υ → Bool) (s : Session υ) : Bool :=
  match (p s).result with
  | .error _ => failed
  | .ok a => q a (p s).state

section

variable {p : Parser υ α} {failed : Bool} {q : α → Session υ → Bool} {s : Session υ}

theorem behind_ok {a : α} (h : (p s).result = .ok a) : behind p failed q s = q a (p s).state := by
  unfold behind
  rw [h]

theorem behind_error {e : Failure} (h : (p s).result = .error e) :
    behind p failed q s = failed := by
  unfold behind
  rw [h]

theorem behind_never : behind p false (fun _ => never) s = false := by
  unfold behind
  cases (p s).result <;> rfl

end

theorem Settles.loses {p : Parser υ α} (h : Settles 0 p) : Loses never p := h

/-- An error before the checkpoint is ended. -/
theorem Loses.after {p : Parser υ α} {f : α → Parser υ β} {lost : α → Session υ → Bool}
    (hp : Tidy 0 p) (hf : ∀ a, Loses (lost a) (f a)) :
    Loses (behind p true lost) (p >>= f) := by
  intro s hroom hreturned
  cases hr : (p s).result with
  | error e =>
    rw [bind_of_error hr] at hreturned ⊢
    rw [behind_error hr]
    obtain ⟨cause, rfl⟩ := returned_error hreturned
    exact ⟨rfl, hp s hroom (by rw [hr]; rfl)⟩
  | ok a =>
    rw [bind_of_ok hr] at hreturned ⊢
    rw [behind_ok hr]
    have hbefore := hp s hroom (by rw [hr]; rfl)
    have hlater := hf a (p s).state (hbefore.room (k := 0) hroom) hreturned
    cases hlost : lost a (p s).state with
    | true =>
      rw [hlost] at hlater
      exact ⟨hlater.1, hbefore.trans hlater.2⟩
    | false =>
      rw [hlost] at hlater
      exact ⟨hbefore.checkpoints.symm.trans hlater.checkpoints,
        hbefore.capacity.symm.trans hlater.capacity⟩

namespace Strands

variable {p : Parser υ α} {lost lost' : Session υ → Bool}

theorem of_tidy (h : Tidy 1 p) : Strands never p :=
  fun s hroom hreturned => ⟨h s hroom hreturned, fun h => by cases h⟩

/-- A checkpoint that is left behind goes with an error, so there is at most one. -/
theorem bind {f : α → Parser υ β} {lost' : α → Session υ → Bool} (hp : Strands lost p)
    (hf : ∀ a, Strands (lost' a) (f a)) :
    Strands (fun s => lost s || behind p false lost' s) (p >>= f) := by
  intro s hroom hreturned
  dsimp only
  cases hr : (p s).result with
  | error e =>
    rw [bind_of_error hr] at hreturned ⊢
    rw [behind_error hr, Bool.or_false]
    obtain ⟨cause, rfl⟩ := returned_error hreturned
    exact ⟨(hp s hroom (by rw [hr]; rfl)).1, fun _ => rfl⟩
  | ok a =>
    rw [bind_of_ok hr] at hreturned ⊢
    rw [behind_ok hr]
    obtain ⟨hrises, hfails⟩ := hp s hroom (by rw [hr]; rfl)
    have hkept : lost s = false := by
      rw [hr] at hfails
      exact eq_false_of_ne_true fun hlost => by cases hfails hlost
    rw [hkept] at hrises ⊢
    obtain ⟨hlater, hfails'⟩ := hf a (p s).state (hrises.room (k := 1) hroom) hreturned
    refine ⟨?_, hfails'⟩
    rw [Bool.false_or, ← Nat.zero_add (Bool.toNat _)]
    exact hrises.trans hlater

theorem congr (h : Strands lost p) (hlost : ∀ s, lost' s = lost s) : Strands lost' p := by
  rw [funext hlost]
  exact h

/-- What comes behind the error is not run. -/
theorem before {f : α → Parser υ β} (hp : Strands lost p) (hf : ∀ a, Tidy 1 (f a)) :
    Strands lost (p >>= f) := by
  apply (hp.bind fun a => of_tidy (hf a)).congr
  intro s
  rw [behind_never, Bool.or_false]

/-- A checkpoint around a parser that loses it in some sessions. -/
theorem bracket (h : Loses lost p) :
    Strands (fun s => lost (Parser.save s).state) (Parser.save >>= fun _ => p) := by
  intro s hroom hreturned
  dsimp only
  obtain ⟨hsave, hrises⟩ := save_ok hroom
  rw [bind_of_ok hsave] at hreturned ⊢
  have hlater := h (Parser.save s).state (hrises.room (k := 0) (by omega)) hreturned
  cases hlost : lost (Parser.save s).state with
  | true =>
    rw [hlost] at hlater
    exact ⟨hrises.trans hlater.2, fun _ => hlater.1⟩
  | false =>
    rw [hlost] at hlater
    exact ⟨hrises.back hlater, fun h => by cases h⟩

end Strands

end

namespace Grammar

variable {υ α : Type}

/-! ## the look ahead behind a class -/

/-- The look ahead for the name of an instance fails, at the name or at the token behind it. -/
def instanceFails : Session υ → Bool :=
  behind Parser.next true fun name s => name.isIdentifier && !(Parser.peek s).result.isOk

/-- The name of an instance stays where it is. -/
theorem settles_noInstance : Settles 0 (do
    Parser.restore
    return 0 : Parser υ Nat) := Settles.restore.bind fun _ => .pure 0

/-- Above the checkpoint, only the two looks ahead can fail. -/
theorem loses_findInstance : Loses instanceFails (do
    let name ← Parser.next
    if name.isIdentifier then
      if (← Parser.peek).isMark ';' then
        Parser.consume
        Parser.abandon
        return 2
    Parser.restore
    return 0 : Parser υ Nat) := by
  apply Loses.after .next
  intro name
  split
  · next hname =>
    have hpeek : ∀ s : Session υ, (name.isIdentifier && !(Parser.peek s).result.isOk)
        = behind Parser.peek true (fun _ => never) s := by
      intro s
      rw [hname, Bool.true_and]
      unfold behind
      cases (Parser.peek s).result <;> rfl
    rw [funext hpeek]
    apply Loses.after .peek
    intro t
    apply Settles.loses
    split
    · exact Settles.after .consume sure_consume fun _ => Settles.abandon.bind fun _ => .pure 2
    · exact settles_noInstance
  · next hname =>
    have hnever : ∀ s : Session υ,
        (name.isIdentifier && !(Parser.peek s).result.isOk) = never s := by
      intro s
      rw [eq_false_of_ne_true hname]
      rfl
    rw [funext hnever]
    exact settles_noInstance.loses

theorem strands_skipInstance :
    Strands (fun s => instanceFails (Parser.save s).state) (skipInstance : Parser υ Nat) :=
  Strands.bracket loses_findInstance

/-- No replay fails. -/
theorem instanceFails_replay {s : Session υ} {r : Replay} (h : s.stream = .replay r) :
    instanceFails s = false := by
  obtain ⟨stream, arena, user⟩ := s
  cases h
  show (r.peek.isIdentifier && false) = false
  exact Bool.and_false _

/-! ## skipping a declaration -/

/-- To the end of the declaration or of its body. -/
def skipBody (first : Token) (warn : Warning → Parser υ Unit) : Parser υ SkipOutcome :=
  Parser.loop (skipTurn warn) ⟨first, bodyBrackets first, 0, ⟨false, isMacroStyle first, 1⟩⟩

/-- Skipping the declaration comes to the body of a class, and the look ahead behind it fails. -/
def strandsCheckpoint (first : Token) (warn : Warning → Parser υ Unit) : Session υ → Bool :=
  behind (skipBody first warn) false fun o s =>
    isClassWord first && o.foundBody && instanceFails (Parser.save s).state

section

variable {first : Token} {warn : Warning → Parser υ Unit} (hwarn : ∀ w, Tidy 1 (warn w))
include hwarn

theorem tidy_skipBody (first : Token) : Tidy 1 (skipBody first warn) :=
  Tidy.loop ((compositional_tidy 1).skipTurn hwarn) _

omit hwarn in
/-- What comes behind the look ahead. -/
theorem tidy_skipLog (first : Token) (o : SkipOutcome) (count : Nat) :
    Tidy 1 (do
      let count ← skipSemicolons count
      log (skipEvent first { o with tokensSkipped := count })
      return { o with tokensSkipped := count } : Parser υ SkipOutcome) :=
  Tidy.bind ((compositional_tidy 1).skipSemicolons count) fun _ => (Tidy.log _).bind fun _ => .pure _

theorem strands_skipDeclaration (first : Token) :
    Strands (strandsCheckpoint first warn) (skipDeclaration first warn) := by
  apply (Strands.of_tidy (tidy_skipBody hwarn first)).bind
  intro o
  split
  · next hclass =>
    rw [hclass]
    exact strands_skipInstance.before fun taken => tidy_skipLog first o _
  · next hclass =>
    rw [eq_false_of_ne_true hclass]
    exact .of_tidy ((Tidy.pure 0).bind fun taken => tidy_skipLog first o _)

/-- Only a lexer fails there. -/
theorem live_of_strandsCheckpoint {s : Session υ} (hroom : s.stream.checkpoints < s.stream.capacity)
    (h : strandsCheckpoint first warn s = true) : ∃ lx, s.stream = .live lx := by
  cases hstream : s.stream with
  | live lx => exact ⟨lx, rfl⟩
  | replay r =>
    unfold strandsCheckpoint at h
    cases hbody : (skipBody first warn s).result with
    | error e =>
      rw [behind_error hbody] at h
      cases h
    | ok o =>
      rw [behind_ok hbody] at h
      -- the body was skipped on a replay, since lexers have more room
      have hcapacity := (tidy_skipBody hwarn first s hroom (by rw [hbody]; rfl)).capacity
      rw [hstream] at hcapacity
      cases hlater : (skipBody first warn s).state.stream with
      | live lx =>
        rw [hlater] at hcapacity
        cases hcapacity
      | replay r' =>
        have hsaved : (Parser.save (skipBody first warn s).state).state.stream
            = .replay r'.save.state := by
          show (skipBody first warn s).state.stream.save.state = _
          rw [hlater]
          rfl
        rw [instanceFails_replay hsaved, Bool.and_false] at h
        cases h

end

end Grammar

/-! ## all routines -/

/-- The routines of the grammar, each with the sessions in which it leaves a checkpoint behind.
What they run for their caller ends its own checkpoints. -/
inductive Routine {υ : Type} : {α : Type} → Parser υ α → (Session υ → Bool) → Prop
  | tryText (text : String) : Routine (Grammar.tryText text) never
  | tryMark (c : Char) : Routine (Grammar.tryMark c) never
  | tryAny (texts : List String) : Routine (Grammar.tryAny texts) never
  | optional (text : String) : Routine (Grammar.optional text) never
  | optionalWith (text : String) {action : Parser υ Unit} : Tidy 1 action →
      Routine (Grammar.optionalWith text action) never
  | requireText (text : String) (context : Option String) :
      Routine (Grammar.requireText text context) never
  | requireMark (c : Char) (context : Option String) :
      Routine (Grammar.requireMark c context) never
  | tryIdentifier : Routine Grammar.tryIdentifier never
  | requireIdentifier (context : Option String) : Routine (Grammar.requireIdentifier context) never
  | requireList (form : ListForm) {action : Parser υ Unit} : Tidy 1 action →
      Routine (Grammar.requireList form action) never
  | requireListTokens (form : ListForm) {action : List Token → Parser υ Unit} :
      (∀ element, Tidy 1 (action element)) → Routine (Grammar.requireListTokens form action) never
  | tryList (form : ListForm) {action : Parser υ Unit} : Tidy 1 action →
      Routine (Grammar.tryList form action) never
  | listElements (form : ListForm) : Routine (Grammar.listElements form) never
  | skipBalanced (opening closing : Char) (context : String) :
      Routine (Grammar.skipBalanced opening closing context) never
  | tryQualifiedName (templates : Bool) : Routine (Grammar.tryQualifiedName templates) never
  | requireQualifiedName (templates : Bool) (context : Option String) :
      Routine (Grammar.requireQualifiedName templates context) never
  | tryInt : Routine Grammar.tryInt never
  | tryLong : Routine Grammar.tryLong never
  | tryFloat : Routine Grammar.tryFloat never
  | tryDouble : Routine Grammar.tryDouble never
  | tryIntExpression : Routine Grammar.tryIntExpression never
  | tryLongExpression : Routine Grammar.tryLongExpression never
  | tryFloatExpression : Routine Grammar.tryFloatExpression never
  | tryDoubleExpression : Routine Grammar.tryDoubleExpression never
  | requireInt (context : Option String) : Routine (Grammar.requireInt context) never
  | requireIntExpression (context : Option String) :
      Routine (Grammar.requireIntExpression context) never
  | tryDeprecation : Routine Grammar.tryDeprecation never
  | tryMarker : Routine Grammar.tryMarker never
  | tryAttributes : Routine Grammar.tryAttributes never
  | tryAlignment : Routine Grammar.tryAlignment never
  | specifiers : Routine Grammar.specifiers never
  | skipDeclaration (first : Token) {warn : Warning → Parser υ Unit} : (∀ w, Tidy 1 (warn w)) →
      Routine (Grammar.skipDeclaration first warn) (strandsCheckpoint first warn)

theorem Routine.strands {υ α : Type} {p : Parser υ α} {lost : Session υ → Bool}
    (h : Routine p lost) : Strands lost p := by
  have level := compositional_tidy 1
  cases h with
  | tryText text => exact .of_tidy (level.tryText text)
  | tryMark c => exact .of_tidy (level.tryMark c)
  | tryAny texts => exact .of_tidy (level.tryIf _)
  | optional text => exact .of_tidy (level.optional text)
  | optionalWith text haction => exact .of_tidy (level.optionalWith text haction)
  | requireText text context => exact .of_tidy (level.requireIf _ _ _)
  | requireMark c context => exact .of_tidy (level.requireMark c context)
  | tryIdentifier => exact .of_tidy (level.tryIf _)
  | requireIdentifier context => exact .of_tidy (level.requireIdentifier context)
  | requireList form haction => exact .of_tidy (level.requireList form haction)
  | requireListTokens form haction => exact .of_tidy (level.requireListTokens form haction)
  | tryList form haction => exact .of_tidy (level.tryList form haction)
  | listElements form => exact .of_tidy (level.listElements form)
  | skipBalanced opening closing context =>
    exact .of_tidy (level.skipBalanced opening closing context)
  | tryQualifiedName templates => exact .of_tidy (tidy_tryQualifiedName templates)
  | requireQualifiedName templates context =>
    exact .of_tidy (level.requireQualifiedName (tidy_tryQualifiedName templates) context)
  | tryInt => exact .of_tidy (level.tryDecoded _)
  | tryLong => exact .of_tidy (level.tryDecoded _)
  | tryFloat => exact .of_tidy (level.tryDecoded _)
  | tryDouble => exact .of_tidy (level.tryDecoded _)
  | tryIntExpression => exact .of_tidy (tidy_trySigned _ _)
  | tryLongExpression => exact .of_tidy (tidy_trySigned _ _)
  | tryFloatExpression => exact .of_tidy (tidy_trySigned _ _)
  | tryDoubleExpression => exact .of_tidy (tidy_trySigned _ _)
  | requireInt context => exact .of_tidy (level.requireInt context)
  | requireIntExpression context => exact .of_tidy (level.requireIntExpression tidy_trySigned context)
  | tryDeprecation => exact .of_tidy level.tryDeprecation
  | tryMarker => exact .of_tidy (level.tryDecoded _)
  | tryAttributes => exact .of_tidy level.tryAttributes
  | tryAlignment => exact .of_tidy (level.tryAlignment tidy_trySigned)
  | specifiers => exact .of_tidy (level.specifiers tidy_trySigned)
  | skipDeclaration first hwarn => exact strands_skipDeclaration hwarn first

theorem Routine.live {υ α : Type} {p : Parser υ α} {lost : Session υ → Bool} (h : Routine p lost)
    {s : Session υ} (hroom : s.stream.checkpoints < s.stream.capacity) (hlost : lost s = true) :
    ∃ lx, s.stream = .live lx := by
  cases h with
  | skipDeclaration first hwarn => exact live_of_strandsCheckpoint hwarn hroom hlost
  | _ => cases hlost

/-- With room for a checkpoint, a routine that comes back has left as many checkpoints as it found,
unless it skipped the body of a class and met an error in the look ahead behind it.  Then it fails,
the stream is a lexer, and there is exactly one checkpoint more. -/
theorem routine_checkpoints_iff {υ α : Type} {p : Parser υ α} {lost : Session υ → Bool}
    (h : Routine p lost) (s : Session υ) (hroom : s.stream.checkpoints < s.stream.capacity)
    (hreturned : returned (p s).result = true) :
    ((p s).state.stream.checkpoints = s.stream.checkpoints ↔ lost s = false) ∧
      (lost s = true → (p s).state.stream.checkpoints = s.stream.checkpoints + 1 ∧
        (p s).result.isOk = false ∧ ∃ lx, s.stream = .live lx) := by
  obtain ⟨hrises, hfails⟩ := h.strands s hroom hreturned
  have hcount := hrises.checkpoints
  cases hlost : lost s with
  | false =>
    rw [hlost] at hcount
    exact ⟨⟨fun _ => rfl, fun _ => hcount⟩, fun h => by cases h⟩
  | true =>
    rw [hlost] at hcount
    constructor
    · rw [hcount]
      exact ⟨fun hsame => absurd hsame (Nat.succ_ne_self _), fun h => by cases h⟩
    · exact fun _ => ⟨hcount, hfails hlost, h.live hroom hlost⟩

/-- A broken character behind the body of a class. -/
theorem routine_checkpoints_sample :
    let lx := Lexer.ofSource "class X {} 'a" ⟨true, false, false, true⟩
    let s : Session Unit := ⟨.live lx, .empty, ()⟩
    let first : Token := ⟨.identifier, "class", ⟨0, 1⟩, ⟨0, 1⟩⟩
    let begun := (Parser.next s).state
    let o := Grammar.skipDeclaration first Grammar.logWarning begun
    (Parser.next s).result = .ok first ∧ returned o.result = true ∧
      o.state.stream.checkpoints = begun.stream.checkpoints + 1 := by
  intro lx s first begun o
  have hfirst : (Parser.next s).result = .ok first := ok_of_toOption (by decide +kernel)
  have hreturned : returned o.result = true := by decide +kernel
  have hcounts := routine_checkpoints_iff (.skipDeclaration first fun _ => .log _) begun
    (by decide +kernel) hreturned
  exact ⟨hfirst, hreturned, (hcounts.2 (by decide +kernel)).1⟩

end HeaderLex
