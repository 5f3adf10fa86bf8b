import HeaderLex.Proofs.Declarations
import HeaderLex.Proofs.Run

/-!
# Replayed tokens stand for their source

A client that asks a stream for tokens, goes back and forth between checkpoints and decides by the
answers what to ask next, cannot tell a lexer from a replay of the tokens of its source.  Nor can a
composition of grammar routines.

* `Token.blurred`           a token without the place of an end mark;
* `Client`, `converse`      what a client asks, and what it is told;
* `License`                 the requests that are in order: consume after a look, and no more than two
                            checkpoints;
* `SameRoutine`             one composition of grammar routines on two streams;
* `replay_like_source`      the answers are the same at every step, and so are the results.
-/

namespace HeaderLex

open HeaderLex.Parser HeaderLex.Operation HeaderLex.Grammar

/-! ## clients -/

/-- The token without the place of an end mark. -/
def Token.blurred (t : Token) : Token :=
  if t.isEnd then { t with start := Position.start, unget := Position.start } else t

def Answer.blurred : Answer → Answer
  | .token t => .token t.blurred
  | a => a

/-- What a client asks a stream for. -/
inductive Request where
  | peek
  | consume
  | next
  | atEnd
  | save
  | restore
  | abandon
deriving DecidableEq, Repr

def ask {υ : Type} : Request → Parser υ Answer
  | .peek => do return .token (← Parser.peek)
  | .consume => do
    Parser.consume
    return .done
  | .next => do return .token (← Parser.next)
  | .atEnd => do return .flag (← Parser.atEnd)
  | .save => do
    Parser.save
    return .done
  | .restore => do
    Parser.restore
    return .done
  | .abandon => do
    Parser.abandon
    return .done

/-- By the answers so far, newest first, a client decides what to ask next, or to stop.  It does not
look at the places of end marks. -/
abbrev Client : Type := List Answer → Option Request

/-- A request and its answer. -/
structure Exchange where
  request : Request
  answer : Except Failure Answer

def Exchange.blurred (x : Exchange) : Request × Except Failure Answer :=
  (x.request, x.answer.map Answer.blurred)

/-- The first steps of a client, with the session they lead to.  A failure ends them. -/
def converse {υ : Type} (client : Client) : Nat → List Answer → Session υ → List Exchange × Session υ
  | 0, _, s => ([], s)
  | steps + 1, seen, s =>
    match client seen with
    | none => ([], s)
    | some request =>
      let o := ask request s
      match o.result with
      | .error f => ([⟨request, .error f⟩], o.state)
      | .ok answer =>
        let later := converse client steps (answer.blurred :: seen) o.state
        (⟨request, .ok answer⟩ :: later.1, later.2)

/-! ## requests in order -/

/-- What a client may do: whether it has looked at the next token, for now and at its checkpoints,
newest first. -/
structure License where
  looked : Bool
  saved : List Bool
deriving DecidableEq, Repr

namespace License

def start : License := ⟨false, []⟩

/-- The license after a request, if the request is in order. -/
def after (l : License) : Request → Option License
  | .peek | .atEnd => some ⟨true, l.saved⟩
  | .next => some ⟨false, l.saved⟩
  | .consume => if l.looked then some ⟨false, l.saved⟩ else none
  | .save => if l.saved.length < 2 then some ⟨l.looked, l.looked :: l.saved⟩ else none
  | .restore =>
    match l.saved with
    | [] => none
    | looked :: saved => some ⟨looked, saved⟩
  | .abandon =>
    match l.saved with
    | [] => none
    | _ :: saved => some ⟨l.looked, saved⟩

/-- The license after some exchanges, if their requests are in order. -/
def afterAll (l : License) (exchanges : List Exchange) : Option License :=
  (exchanges.map Exchange.request).foldlM after l

end License

def Standing.license (σ : Standing) : License := ⟨σ.looked, σ.saved.map Spot.looked⟩

/-! ## one request -/

theorem Seen.blurred {ends : Ends} {σ : Standing} {t u : Token} (h : Seen ends σ t u) :
    t.blurred = u.blurred := by
  obtain ⟨-, ht, hu⟩ | ⟨-, rfl, -⟩ := h.cases
  · unfold Token.blurred
    rw [ht.isEnd, hu.isEnd, ht.kind, hu.kind, ht.value, hu.value]
    rfl
  · rfl

theorem Seen.isEnd {ends : Ends} {σ : Standing} {t u : Token} (h : Seen ends σ t u) :
    t.isEnd = u.isEnd := by
  obtain ⟨-, ht, hu⟩ | ⟨-, rfl, -⟩ := h.cases
  · rw [ht.isEnd, hu.isEnd]
  · rfl

/-- A request that is in order is answered on both streams, and alike. -/
theorem agree_ask {υ : Type} {ends : Ends} {σ : Standing} {request : Request} {l : License}
    (h : σ.license.after request = some l) :
    Agree ends σ (ask request : Parser υ Answer) (ask request)
      (fun σ' a b => σ'.license = l ∧ a.blurred = b.blurred) (fun _ _ _ => False) := by
  cases request with
  | peek =>
    cases h
    apply Agree.andThen Agree.peek
    rintro _ t u ⟨rfl, hseen⟩
    exact .pure ⟨rfl, congrArg Answer.token hseen.blurred⟩
  | next =>
    cases h
    apply Agree.andThen Agree.next
    rintro _ t u ⟨rfl, hseen⟩
    exact .pure ⟨rfl, congrArg Answer.token hseen.blurred⟩
  | atEnd =>
    cases h
    apply Agree.andThen (Q := fun σ' a b => σ' = σ.looking ∧ a = b)
    · apply Agree.andThen Agree.peek
      rintro _ t u ⟨rfl, hseen⟩
      exact .pure ⟨rfl, hseen.isEnd⟩
    · rintro _ a _ ⟨rfl, rfl⟩
      exact .pure ⟨rfl, rfl⟩
  | consume =>
    obtain ⟨hlooked, rfl⟩ : σ.looked = true ∧ ⟨false, σ.license.saved⟩ = l := by
      cases hlooked : σ.looked <;> simp [License.after, Standing.license, hlooked] at h ⊢
      exact h
    apply Agree.andThen (Agree.consume hlooked)
    rintro _ _ _ rfl
    exact .pure ⟨rfl, rfl⟩
  | save =>
    obtain ⟨hroom, rfl⟩ : σ.saved.length < 2 ∧
        ⟨σ.looked, σ.looked :: σ.license.saved⟩ = l := by
      simpa [License.after, Standing.license] using h
    apply Agree.andThen (Agree.save hroom)
    rintro _ _ _ rfl
    exact .pure ⟨rfl, rfl⟩
  | restore =>
    cases hsaved : σ.saved with
    | nil => simp [License.after, Standing.license, hsaved] at h
    | cons spot saved =>
      obtain rfl : ⟨spot.looked, saved.map Spot.looked⟩ = l := by
        simpa [License.after, Standing.license, hsaved] using h
      apply Agree.andThen (Agree.restore hsaved)
      rintro _ _ _ rfl
      exact .pure ⟨rfl, rfl⟩
  | abandon =>
    cases hsaved : σ.saved with
    | nil => simp [License.after, Standing.license, hsaved] at h
    | cons spot saved =>
      obtain rfl : ⟨σ.looked, saved.map Spot.looked⟩ = l := by
        simpa [License.after, Standing.license, hsaved] using h
      apply Agree.andThen (Agree.abandon hsaved)
      rintro _ _ _ rfl
      exact .pure ⟨rfl, rfl⟩

/-! ## whole conversations -/

section
variable {υ : Type} {client : Client} {seen : List Answer} {s : Session υ}

theorem converse_stopped (h : client seen = none) (steps : Nat) :
    converse client steps seen s = ([], s) := by
  cases steps with
  | zero => rfl
  | succ steps =>
    unfold converse
    rw [h]

theorem converse_answered {request : Request} {a : Answer} (h : client seen = some request)
    (ha : (ask request s).result = .ok a) (steps : Nat) :
    converse client (steps + 1) seen s
      = (⟨request, .ok a⟩ :: (converse client steps (a.blurred :: seen) (ask request s).state).1,
        (converse client steps (a.blurred :: seen) (ask request s).state).2) := by
  rw [converse]
  simp only [h, ha]

theorem converse_failed {request : Request} {f : Failure} (h : client seen = some request)
    (hf : (ask request s).result = .error f) (steps : Nat) :
    converse client (steps + 1) seen s = ([⟨request, .error f⟩], (ask request s).state) := by
  rw [converse]
  simp only [h, hf]

end

theorem License.afterAll_cons {l l' : License} {x : Exchange} {xs : List Exchange}
    (h : l.afterAll (x :: xs) = some l') :
    ∃ next, l.after x.request = some next ∧ next.afterAll xs = some l' := by
  unfold afterAll at h
  rw [List.map_cons, List.foldlM_cons] at h
  exact Option.bind_eq_some_iff.1 h

/-- All requests are answered, the answers are the same but for the places of end marks, and the
streams stand alike at the end, with a license. -/
structure WentAlike {υ : Type} (ends : Ends) (l : License) (p p' : List Exchange × Session υ) :
    Prop where
  answered : ∀ x ∈ p.1, ∃ a, x.answer = .ok a
  same : p.1.map Exchange.blurred = p'.1.map Exchange.blurred
  standing : ∃ σ, σ.license = l ∧ Met ends σ p.2 p'.2

theorem wentAlike_nil {υ : Type} {ends : Ends} {σ : Standing} {s s' : Session υ}
    (hmet : Met ends σ s s') {l : License} (h : σ.license.afterAll [] = some l) :
    WentAlike ends l ([], s) ([], s') :=
  ⟨fun _ hx => absurd hx List.not_mem_nil, rfl, σ, Option.some.inj h, hmet⟩

/-- As long as the requests are in order, a conversation goes alike on both streams. -/
theorem converse_alike {υ : Type} {ends : Ends} (client : Client) (steps : Nat) (seen : List Answer)
    {σ : Standing} {s s' : Session υ} (hmet : Met ends σ s s') {l : License}
    (h : σ.license.afterAll (converse client steps seen s).1 = some l) :
    WentAlike ends l (converse client steps seen s) (converse client steps seen s') := by
  induction steps generalizing seen σ s s' with
  | zero => exact wentAlike_nil hmet h
  | succ steps ih =>
    cases hrequest : client seen with
    | none =>
      rw [converse_stopped hrequest] at h ⊢
      rw [converse_stopped hrequest]
      exact wentAlike_nil hmet h
    | some request =>
      -- whatever the answer is, its request is the first of the conversation
      obtain ⟨next, hnext⟩ : ∃ next, σ.license.after request = some next := by
        cases hresult : (ask request s).result with
        | error f =>
          rw [converse_failed hrequest hresult] at h
          obtain ⟨next, hnext, -⟩ := License.afterAll_cons h
          exact ⟨next, hnext⟩
        | ok a =>
          rw [converse_answered hrequest hresult] at h
          obtain ⟨next, hnext, -⟩ := License.afterAll_cons h
          exact ⟨next, hnext⟩
      obtain ⟨σ', hmet', ⟨a, b, ha, hb, rfl, hblurred⟩ | ⟨_, _, _, _, hfalse⟩⟩ :=
        agree_ask hnext hmet
      · rw [converse_answered hrequest ha] at h ⊢
        rw [converse_answered hrequest hb, ← hblurred]
        obtain ⟨_, hnext', hlater⟩ := License.afterAll_cons h
        cases hnext.symm.trans hnext'
        obtain ⟨hanswered, hsame, hstanding⟩ := ih (a.blurred :: seen) hmet' hlater
        refine ⟨?_, ?_, hstanding⟩
        · intro x hx
          rcases List.mem_cons.1 hx with rfl | hx
          · exact ⟨a, rfl⟩
          · exact hanswered x hx
        · rw [List.map_cons, List.map_cons, hsame]
          congr 1
          unfold Exchange.blurred
          dsimp only [Except.map]
          rw [hblurred]
      · exact hfalse.elim

/-! ## compositions of grammar routines -/

/-- Both are the same composition of routines of the grammar.  It may depend on the tokens that were
seen, but not on the place of an end mark. -/
inductive SameRoutine {υ : Type} : {α : Type} → Parser υ α → Parser υ α → Prop
  | pure {α : Type} (a : α) : SameRoutine (Pure.pure a) (Pure.pure a)
  | bind {α β : Type} {p q : Parser υ α} {f g : α → Parser υ β} : SameRoutine p q →
      (∀ a, SameRoutine (f a) (g a)) → SameRoutine (p >>= f) (q >>= g)
  | peek {α : Type} {f g : Token → Parser υ α} :
      (∀ t u, t.blurred = u.blurred → SameRoutine (f t) (g u)) →
      SameRoutine (Parser.peek >>= f) (Parser.peek >>= g)
  | next {α : Type} {f g : Token → Parser υ α} :
      (∀ t u, t.blurred = u.blurred → SameRoutine (f t) (g u)) →
      SameRoutine (Parser.next >>= f) (Parser.next >>= g)
  | refuse {α : Type} (e : SourceError) :
      SameRoutine (Operation.refuse e : Parser υ α) (Operation.refuse e)
  | log (event event' : Event) : SameRoutine (Operation.log event) (Operation.log event')
  | user : SameRoutine Parser.user Parser.user
  | modifyUser (f : υ → υ) : SameRoutine (Parser.modifyUser f) (Parser.modifyUser f)
  | onArena {α : Type} (f : Arena → Outcome Arena α) :
      SameRoutine (Parser.onArena f) (Parser.onArena f)
  | tryText (text : String) : SameRoutine (Grammar.tryText text) (Grammar.tryText text)
  | tryMark (c : Char) : SameRoutine (Grammar.tryMark c) (Grammar.tryMark c)
  | tryAny (texts : List String) : SameRoutine (Grammar.tryAny texts) (Grammar.tryAny texts)
  | optional (text : String) : SameRoutine (Grammar.optional text) (Grammar.optional text)
  | optionalWith (text : String) {action action' : Parser υ Unit} : SameRoutine action action' →
      SameRoutine (Grammar.optionalWith text action) (Grammar.optionalWith text action')
  | requireText (text : String) (context : Option String) :
      SameRoutine (Grammar.requireText text context) (Grammar.requireText text context)
  | requireMark (c : Char) (context : Option String) :
      SameRoutine (Grammar.requireMark c context) (Grammar.requireMark c context)
  | tryIdentifier : SameRoutine Grammar.tryIdentifier Grammar.tryIdentifier
  | requireIdentifier (context : Option String) :
      SameRoutine (Grammar.requireIdentifier context) (Grammar.requireIdentifier context)
  | requireList (form : ListForm) {action action' : Parser υ Unit} : SameRoutine action action' →
      SameRoutine (Grammar.requireList form action) (Grammar.requireList form action')
  | requireListTokens (form : ListForm) {action action' : List Token → Parser υ Unit} :
      (∀ element, SameRoutine (action element) (action' element)) →
      SameRoutine (Grammar.requireListTokens form action) (Grammar.requireListTokens form action')
  | tryList (form : ListForm) {action action' : Parser υ Unit} : SameRoutine action action' →
      SameRoutine (Grammar.tryList form action) (Grammar.tryList form action')
  | listElements (form : ListForm) :
      SameRoutine (Grammar.listElements form) (Grammar.listElements form)
  | skipBalanced (opening closing : Char) (context : String) :
      SameRoutine (Grammar.skipBalanced opening closing context)
        (Grammar.skipBalanced opening closing context)
  | tryInt : SameRoutine Grammar.tryInt Grammar.tryInt
  | tryLong : SameRoutine Grammar.tryLong Grammar.tryLong
  | tryFloat : SameRoutine Grammar.tryFloat Grammar.tryFloat
  | tryDouble : SameRoutine Grammar.tryDouble Grammar.tryDouble
  | tryIntExpression : SameRoutine Grammar.tryIntExpression Grammar.tryIntExpression
  | tryLongExpression : SameRoutine Grammar.tryLongExpression Grammar.tryLongExpression
  | tryFloatExpression : SameRoutine Grammar.tryFloatExpression Grammar.tryFloatExpression
  | tryDoubleExpression : SameRoutine Grammar.tryDoubleExpression Grammar.tryDoubleExpression
  | requireInt (context : Option String) :
      SameRoutine (Grammar.requireInt context) (Grammar.requireInt context)
  | requireIntExpression (context : Option String) :
      SameRoutine (Grammar.requireIntExpression context) (Grammar.requireIntExpression context)
  | tryQualifiedName (templates : Bool) :
      SameRoutine (Grammar.tryQualifiedName templates) (Grammar.tryQualifiedName templates)
  | requireQualifiedName (templates : Bool) (context : Option String) :
      SameRoutine (Grammar.requireQualifiedName templates context)
        (Grammar.requireQualifiedName templates context)
  | tryDeprecation : SameRoutine Grammar.tryDeprecation Grammar.tryDeprecation
  | tryMarker : SameRoutine Grammar.tryMarker Grammar.tryMarker
  | tryAttributes : SameRoutine Grammar.tryAttributes Grammar.tryAttributes
  | tryAlignment : SameRoutine Grammar.tryAlignment Grammar.tryAlignment
  | specifiers : SameRoutine Grammar.specifiers Grammar.specifiers
  | skipDeclaration {first first' : Token} {warn warn' : Warning → Parser υ Unit} :
      first.blurred = first'.blurred → (∀ w, SameRoutine (warn w) (warn' w)) →
      SameRoutine (Grammar.skipDeclaration first warn) (Grammar.skipDeclaration first' warn')

theorem Token.blurred_cases {t u : Token} (h : t.blurred = u.blurred) :
    u = t ∨ u.isEnd = true ∧ t.isEnd = true := by
  unfold blurred at h
  split at h
  · next ht =>
    split at h
    · next hu => exact .inr ⟨hu, ht⟩
    · next hu =>
      rw [← h] at hu
      exact absurd ht hu
  · next ht =>
    split at h
    · next hu =>
      rw [h] at ht
      exact absurd hu ht
    · exact .inl h.symm

theorem SameRoutine.interchangeable {υ α : Type} {p q : Parser υ α} (h : SameRoutine p q) :
    Interchangeable p q Uncounted := by
  induction h with
  | pure a => exact .pure False.elim
  | bind _ _ ih ihf => exact ih.bind fun a => (ihf a).weaken fun _ => And.left
  | peek _ ih =>
    intro ends σ hroom
    apply Runs.look
    intro t u hseen
    exact (ih t u hseen.blurred ends σ.looking hroom).weaken fun _ => False.elim
  | next _ ih =>
    intro ends σ hroom
    apply Runs.next
    intro t u hseen
    exact (ih t u hseen.blurred ends σ.behind hroom).weaken fun _ => False.elim
  | refuse e => exact .still (.refuse e)
  | log event event' => exact interchangeable_log event event'
  | user => exact .still .user
  | modifyUser f => exact .still (.modifyUser f)
  | onArena f => exact .still (.onArena f)
  | tryText text => exact (interchangeable_tryText text).weaken fun _ => False.elim
  | tryMark c => exact (interchangeable_tryMark c).weaken fun _ => False.elim
  | tryAny texts => exact interchangeable_tryAny texts
  | optional text => exact interchangeable_optional text
  | optionalWith text _ ih => exact interchangeable_optionalWith text ih
  | requireText text context =>
    exact (interchangeable_requireText text context).weaken fun _ => False.elim
  | requireMark c context => exact (interchangeable_requireMark c context).weaken fun _ => False.elim
  | tryIdentifier => exact interchangeable_tryIdentifier.weaken fun _ => False.elim
  | requireIdentifier context =>
    exact (interchangeable_requireIdentifier context).weaken fun _ => False.elim
  | requireList form _ ih => exact interchangeable_requireList form ih
  | requireListTokens form _ ih => exact interchangeable_requireListTokens form ih
  | tryList form _ ih => exact interchangeable_tryList form ih
  | listElements form => exact interchangeable_listElements form
  | skipBalanced opening closing context => exact interchangeable_skipBalanced opening closing context
  | tryInt => exact (interchangeable_tryDecoded fun _ => Token.int?_of_end).weaken fun _ => False.elim
  | tryLong => exact (interchangeable_tryDecoded fun _ => Token.long?_of_end).weaken fun _ => False.elim
  | tryFloat => exact (interchangeable_tryDecoded fun _ => Token.float?_of_end).weaken fun _ => False.elim
  | tryDouble =>
    exact (interchangeable_tryDecoded fun _ => Token.double?_of_end).weaken fun _ => False.elim
  | tryIntExpression => exact interchangeable_trySigned (fun _ => Token.int?_of_end) _
  | tryLongExpression => exact interchangeable_trySigned (fun _ => Token.long?_of_end) _
  | tryFloatExpression => exact interchangeable_trySigned (fun _ => Token.float?_of_end) _
  | tryDoubleExpression => exact interchangeable_trySigned (fun _ => Token.double?_of_end) _
  | requireInt context => exact interchangeable_requireInt context
  | requireIntExpression context => exact interchangeable_requireIntExpression context
  | tryQualifiedName templates => exact interchangeable_tryQualifiedName templates
  | requireQualifiedName templates context =>
    exact interchangeable_requireQualifiedName templates context
  | tryDeprecation => exact interchangeable_tryDeprecation.weaken fun _ => False.elim
  | tryMarker => exact interchangeable_tryMarker.weaken fun _ => False.elim
  | tryAttributes => exact interchangeable_tryAttributes.weaken fun _ => False.elim
  | tryAlignment => exact interchangeable_tryAlignment.weaken fun _ => False.elim
  | specifiers => exact interchangeable_specifiers
  | skipDeclaration hfirst _ ih =>
    exact interchangeable_skipDeclaration (Token.blurred_cases hfirst) ih

/-! ## a source and its tokens -/

/-- A fresh lexer and a replay of all its tokens stand alike. -/
theorem matched_tokenize {source : String} {preferences : LexicalPreferences} {tokens : List Token}
    (h : (tokenize source preferences).result = .ok tokens) :
    ∃ r, Replay.ofTokens tokens .endOfFile = .ok r ∧
      Matched ⟨(tokenize source preferences).state.cursor.position, r.endMark.start⟩
        ⟨⟨false, tokens⟩, []⟩ (Lexer.ofSource source preferences) r := by
  have hserves : (Cursor.ofText source.toList).Serves
      (tokenize source preferences).state.cursor.position tokens :=
    @Lexer.serves_drain (Lexer.ofSource source preferences) tokens rfl rfl h
  refine ⟨_, rfl, rfl, ⟨.fresh hserves, fun h => by cases h⟩, .nil, rfl, rfl, ⟨rfl, rfl, rfl⟩, ?_, ?_⟩
  · exact hserves.length_le
  · exact fun _ hmem => absurd hmem List.not_mem_nil

/-- The same result, but for the place of an end mark that an error names. -/
def SameResult {α : Type} (ends : Ends) (x y : Except Failure α) : Prop :=
  x = y ∨ ∃ cause, x = .error (.source ⟨cause, ends.live⟩) ∧ y = .error (.source ⟨cause, ends.replay⟩)

/-- A source that can be read to its end and a replay of its tokens are interchangeable.  A client whose
requests are in order is answered at every step, and alike.  Wherever such a client has come to, a
composition of grammar routines, which may set one more checkpoint, gives the same result and leaves
the same arena and the same state of the caller behind. -/
theorem replay_like_source {source : String} {preferences : LexicalPreferences}
    {tokens : List Token} (h : (tokenize source preferences).result = .ok tokens) :
    ∃ r, Replay.ofTokens tokens .endOfFile = .ok r ∧
      ∀ (client : Client) (steps : Nat) (l : License),
        let live := converse client steps []
          (⟨.live (Lexer.ofSource source preferences), .empty, ()⟩ : Session Unit)
        let replayed := converse client steps [] (⟨.replay r, .empty, ()⟩ : Session Unit)
        License.start.afterAll live.1 = some l →
          (∀ x ∈ live.1, ∃ a, x.answer = .ok a) ∧
          live.1.map Exchange.blurred = replayed.1.map Exchange.blurred ∧
          ∀ (υ α : Type) (p q : Parser υ α) (arena : Arena) (user : υ), SameRoutine p q →
            l.saved.length < 2 →
            let o := p ⟨live.2.stream, arena, user⟩
            let o' := q ⟨replayed.2.stream, arena, user⟩
            SameResult ⟨(tokenize source preferences).state.cursor.position, r.endMark.start⟩
                o.result o'.result ∧
              o'.state.arena = o.state.arena ∧ o'.state.user = o.state.user := by
  obtain ⟨r, hr, hmatched⟩ := matched_tokenize h
  refine ⟨r, hr, ?_⟩
  intro client steps l live replayed hlicense
  have hmet : Met _ ⟨⟨false, tokens⟩, []⟩
      (⟨.live (Lexer.ofSource source preferences), .empty, ()⟩ : Session Unit)
      ⟨.replay r, .empty, ()⟩ := ⟨⟨_, _, rfl, rfl, hmatched⟩, rfl, rfl⟩
  obtain ⟨hanswered, hsame, σ, rfl, hmet'⟩ := converse_alike client steps [] hmet hlicense
  refine ⟨hanswered, hsame, ?_⟩
  intro υ α p q arena user hroutine hroom o o'
  replace hroom : σ.saved.length < maxReplayCheckpoints := by
    rw [Standing.license, List.length_map] at hroom
    exact hroom
  have hmet'' : Met _ σ (⟨live.2.stream, arena, user⟩ : Session υ) ⟨replayed.2.stream, arena, user⟩ :=
    ⟨hmet'.streams, rfl, rfl⟩
  obtain ⟨_, hmet₃, ⟨a, b, ha, hb, -, rfl, -⟩ | ⟨f, g, hf, hg, -, halike⟩⟩ :=
    hroutine.interchangeable _ σ hroom hmet''
  · exact ⟨.inl (ha.trans hb.symm), hmet₃.arena, hmet₃.user⟩
  · refine ⟨?_, hmet₃.arena, hmet₃.user⟩
    unfold SameResult
    rw [hf, hg]
    obtain rfl | ⟨cause, rfl, rfl⟩ := halike
    · exact .inl rfl
    · exact .inr ⟨cause, rfl, rfl⟩

/-- A client that goes back from the end, and a number that is missing there. -/
theorem replay_like_source_sample :
    let source := "+ b // x\n"
    let preferences : LexicalPreferences := ⟨true, false, false, true⟩
    let tokens : List Token :=
      [⟨.symbol, "+", ⟨0, 1⟩, ⟨0, 1⟩⟩, ⟨.identifier, "b", ⟨2, 1⟩, ⟨1, 1⟩⟩]
    let client : Client := fun seen =>
      if seen.head? = some (.flag true) then some .restore
      else [.peek, .save, .consume, .save, .next, .atEnd, .restore, .peek, .abandon, .next][seen.length]?
    (tokenize source preferences).result = .ok tokens ∧
      ∃ r, Replay.ofTokens tokens .endOfFile = .ok r ∧
        let live := converse client 10 []
          (⟨.live (Lexer.ofSource source preferences), .empty, ()⟩ : Session Unit)
        let replayed := converse client 10 [] (⟨.replay r, .empty, ()⟩ : Session Unit)
        License.start.afterAll live.1 = some ⟨false, []⟩ ∧
          live.1.map Exchange.blurred = replayed.1.map Exchange.blurred ∧
          SameResult ⟨⟨9, 2⟩, ⟨3, 1⟩⟩
            (Grammar.requireIntExpression (some "enum") ⟨live.2.stream, .empty, ()⟩).result
            (Grammar.requireIntExpression (some "enum") ⟨replayed.2.stream, .empty, ()⟩).result := by
  intro source preferences tokens client
  have htokens : (tokenize source preferences).result = .ok tokens :=
    ok_of_toOption (by decide +kernel)
  obtain ⟨r, hr, hall⟩ := replay_like_source htokens
  have hlicense : License.start.afterAll (converse client 10 []
      (⟨.live (Lexer.ofSource source preferences), .empty, ()⟩ : Session Unit)).1
        = some ⟨false, []⟩ := by decide +kernel
  obtain ⟨-, hsame, hroutines⟩ := hall client 10 ⟨false, []⟩ hlicense
  have hstop : (tokenize source preferences).state.cursor.position = ⟨9, 2⟩ := by decide +kernel
  have hmark : r.endMark.start = ⟨3, 1⟩ := by
    have hvalue : Replay.ofTokens tokens .endOfFile
        = .ok ⟨tokens, [], ⟨.endOfFile, "", ⟨3, 1⟩, ⟨3, 1⟩⟩⟩ := ok_of_toOption (by decide +kernel)
    rw [Except.ok.inj (hr.symm.trans hvalue)]
  rw [hstop, hmark] at hroutines
  exact ⟨htokens, r, hr, hlicense, hsame,
    (hroutines Unit Int32 _ _ .empty () (.requireIntExpression (some "enum")) (by decide)).1⟩

end HeaderLex
