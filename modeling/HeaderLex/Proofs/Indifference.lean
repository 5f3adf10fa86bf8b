import HeaderLex.Log.Facility
import HeaderLex.Proofs.Counts
import HeaderLex.Proofs.ErrorLog

/-!
# Settings do not change what is read

The environment, the preferences, the logger and the name of the header decide what is counted and
logged.  Whatever a caller does with a stream and with the routines of the grammar, and whatever
happens to the log meanwhile, it sees the same results, errors, positions, comments and recorded
tokens.

* `Session.Kin`       sessions over streams that differ at most in counts and preferences;
* `Indifferent`       a parser that gives kin sessions the same result, and leaves kin sessions;
* `Program`           what a caller can put together from the operations and the routines;
* `pervasive_program` every routine of the grammar is a program;
* `Setting`, `Caller.run`   a run of programs in a process with a log;
* `settings_change_nothing`   two runs that differ in their settings alone.
-/

namespace HeaderLex

open HeaderLex.Parser HeaderLex.Operation HeaderLex.Grammar

/-! ## streams and sessions that are kin -/

/-- The same replay, or lexers that differ at most in their counts and preferences. -/
inductive Stream.Kin : Stream → Stream → Prop
  | live {lx lx' : Lexer} : lx.Kin False lx' → Kin (.live lx) (.live lx')
  | replay (r : Replay) : Kin (.replay r) (.replay r)

/-- The same arena and the same state of the caller, over streams that are kin. -/
structure Session.Kin {υ : Type} (s s' : Session υ) : Prop where
  stream : s.stream.Kin s'.stream
  arena : s'.arena = s.arena
  user : s'.user = s.user

/-- Streams that are kin are answered with the same result, and stay kin. -/
def Stream.Indifferent {α : Type} (f : Stream → Outcome Stream α) : Prop :=
  ∀ ⦃s s' : Stream⦄, s.Kin s' → (f s').result = (f s).result ∧ (f s).state.Kin (f s').state

/-- Sessions that are kin are answered with the same result, and stay kin. -/
def Indifferent {υ α : Type} (p : Parser υ α) : Prop :=
  ∀ ⦃s s' : Session υ⦄, s.Kin s' → (p s').result = (p s).result ∧ (p s).state.Kin (p s').state

theorem Stream.Kin.budget {s s' : Stream} (h : s.Kin s') : s'.budget = s.budget := by
  cases h with
  | live h =>
    obtain ⟨m, p, rfl, -⟩ := h
    rfl
  | replay r => rfl

/-- What a stream shows of itself. -/
inductive Stream.Shown : {β : Type} → (Stream → β) → Prop
  | position : Shown Stream.position
  | comments : Shown Stream.comments
  | recorded : Shown Stream.recorded
  | checkpoints : Shown Stream.checkpoints

theorem Stream.Kin.shown {s s' : Stream} (h : s.Kin s') {β : Type} {f : Stream → β}
    (hf : Shown f) : f s' = f s := by
  cases h with
  | live h =>
    obtain ⟨m, p, rfl, -⟩ := h
    cases hf <;> rfl
  | replay r => rfl

/-! ## the operations of a stream -/

/-- Gives a live stream another preprocessor, or none. -/
def Stream.attach (p : Option Preprocessor) : Stream → Outcome Stream Unit
  | live lx => .ok () (live (lx.withPreprocessor p))
  | replay r => .ok () (replay r)

namespace Stream

theorem indifferent_peek : Indifferent peek := by
  rintro _ _ (h | r)
  · exact ⟨h.peek.result, .live h.peek.state⟩
  · exact ⟨rfl, .replay r⟩

theorem indifferent_line : Indifferent line := by
  rintro _ _ (h | r)
  · exact ⟨h.line.result, .live h.line.state⟩
  · exact ⟨rfl, .replay r⟩

theorem indifferent_rawText (terminator : Char) (options : RawTextOptions) :
    Indifferent (rawText terminator options) := by
  rintro _ _ (h | r)
  · exact ⟨(h.rawText terminator options).result, .live (h.rawText terminator options).state⟩
  · exact ⟨rfl, .replay r⟩

theorem indifferent_attach (p : Option Preprocessor) : Indifferent (attach p) := by
  rintro _ _ (h | r)
  · obtain ⟨m, q, rfl, hq⟩ := h
    exact ⟨rfl, .live ⟨m, q, rfl, hq⟩⟩
  · exact ⟨rfl, .replay r⟩

theorem Bookkeeping.indifferent {α : Type} {f : Stream → Outcome Stream α} (h : Bookkeeping f) :
    Indifferent f := by
  rintro _ _ (hlx | r)
  · obtain ⟨m, p, rfl, hp⟩ := hlx
    cases h with
    | clearComments | disableComments | commitComments | stopRecording =>
      exact ⟨rfl, .live ⟨m, p, rfl, hp⟩⟩
    | _ =>
      simp only [Stream.consume, Stream.enableComments, Stream.save, Stream.restore, Stream.abandon,
        Stream.startRecording, Stream.record, Lexer.consume, Lexer.enableComments, Lexer.save,
        Lexer.restore, Lexer.abandon, Lexer.startRecording, Lexer.record]
      split <;> exact ⟨rfl, .live ⟨_, p, rfl, hp⟩⟩
  · refine ⟨rfl, ?_⟩
    cases h with
    | save =>
      simp only [Stream.save, Replay.save]
      split <;> exact .replay _
    | restore =>
      simp only [Stream.restore, Replay.restore]
      split <;> exact .replay _
    | abandon =>
      simp only [Stream.abandon, Replay.abandon]
      split <;> exact .replay _
    | _ => exact .replay _

end Stream

/-! ## parsers that are put together -/

namespace Indifferent

variable {υ α β γ : Type}

theorem pure (a : α) : Indifferent (Pure.pure a : Parser υ α) := fun _ _ h => ⟨rfl, h⟩

theorem bind {p : Parser υ α} {f : α → Parser υ β} (hp : Indifferent p)
    (hf : ∀ a, Indifferent (f a)) : Indifferent (p >>= f) := by
  intro s s' h
  obtain ⟨hresult, hstate⟩ := hp h
  cases hr : (p s).result with
  | ok a =>
    rw [bind_of_ok hr, bind_of_ok (hresult.trans hr)]
    exact hf a hstate
  | error f =>
    rw [bind_of_error hr, bind_of_error (hresult.trans hr)]
    exact ⟨rfl, hstate⟩

theorem attempt {p : Parser υ α} (hp : Indifferent p) : Indifferent p.attempt := by
  intro s s' h
  obtain ⟨hresult, hstate⟩ := hp h
  refine ⟨?_, hstate⟩
  unfold Operation.attempt
  dsimp only
  rw [hresult]

theorem onStream {f : Stream → Outcome Stream α} (hf : Stream.Indifferent f) :
    Indifferent (Parser.onStream f : Parser υ α) := by
  intro s s' h
  obtain ⟨hresult, hstate⟩ := hf h.stream
  exact ⟨hresult, hstate, h.arena, h.user⟩

theorem onArena (f : Arena → Outcome Arena α) : Indifferent (Parser.onArena f : Parser υ α) := by
  intro s s' h
  unfold Parser.onArena
  rw [h.arena]
  exact ⟨rfl, h.stream, rfl, h.user⟩

theorem user : Indifferent (Parser.user : Parser υ υ) :=
  fun _ _ h => ⟨congrArg Except.ok h.user, h⟩

theorem modifyUser (f : υ → υ) : Indifferent (Parser.modifyUser f) :=
  fun _ _ h => ⟨rfl, h.stream, h.arena, congrArg f h.user⟩

theorem withState (init : β) {p : Parser (υ × β) α} (hp : Indifferent p) :
    Indifferent (Parser.withState init p) := by
  intro s s' h
  have hinner : Session.Kin (⟨s.stream, s.arena, (s.user, init)⟩ : Session (υ × β))
      ⟨s'.stream, s'.arena, (s'.user, init)⟩ := ⟨h.stream, h.arena, by rw [h.user]⟩
  obtain ⟨hresult, hstate⟩ := hp hinner
  refine ⟨?_, hstate.stream, hstate.arena, congrArg Prod.fst hstate.user⟩
  unfold Parser.withState
  dsimp only
  rw [hresult, hstate.user]

theorem repeatFor {body : β → Parser υ (β ⊕ γ)} (hbody : ∀ b, Indifferent (body b)) (turns : Nat)
    (b : β) : Indifferent (Parser.repeatFor body turns b) := by
  induction turns generalizing b with
  | zero => exact fun _ _ h => ⟨rfl, h⟩
  | succ turns ih =>
    apply (hbody b).bind
    rintro (b | c)
    · exact ih b
    · exact .pure c

theorem loop {body : β → Parser υ (β ⊕ γ)} (hbody : ∀ b, Indifferent (body b)) (b : β) :
    Indifferent (Parser.loop body b) := by
  intro s s' h
  unfold Parser.loop
  rw [h.stream.budget]
  exact repeatFor hbody _ b h

end Indifferent

/-- What a caller can put together: the operations of a stream, looks at what it shows, results,
errors and events of the caller's own, the arena and a state, sequence, repetition and the handling
of errors. -/
inductive Program : {υ α : Type} → Parser υ α → Prop
  | pure {υ α : Type} (a : α) : Program (Pure.pure a : Parser υ α)
  | bind {υ α β : Type} {p : Parser υ α} {f : α → Parser υ β} : Program p →
      (∀ a, Program (f a)) → Program (p >>= f)
  | loop {υ β γ : Type} {body : β → Parser υ (β ⊕ γ)} : (∀ b, Program (body b)) → (b : β) →
      Program (Parser.loop body b)
  | withState {υ α β : Type} (init : β) {p : Parser (υ × β) α} : Program p →
      Program (Parser.withState init p)
  | attempt {υ α : Type} {p : Parser υ α} : Program p → Program p.attempt
  | refuse {υ α : Type} (e : SourceError) : Program (Operation.refuse e : Parser υ α)
  | fail {υ α : Type} (f : Failure) : Program (Operation.fail f : Parser υ α)
  | log {υ : Type} (event : Event) : Program (Operation.log event : Parser υ Unit)
  | user {υ : Type} : Program (Parser.user : Parser υ υ)
  | modifyUser {υ : Type} (f : υ → υ) : Program (Parser.modifyUser f)
  | onArena {υ α : Type} (f : Arena → Outcome Arena α) : Program (Parser.onArena f : Parser υ α)
  | peek {υ : Type} : Program (Parser.peek : Parser υ Token)
  | line {υ : Type} : Program (Parser.onStream Stream.line : Parser υ Token)
  | rawText {υ : Type} (terminator : Char) (options : RawTextOptions) :
      Program (Parser.onStream (Stream.rawText terminator options) : Parser υ String)
  | bookkeeping {υ α : Type} {f : Stream → Outcome Stream α} : Stream.Bookkeeping f →
      Program (Parser.onStream f : Parser υ α)
  | attach {υ : Type} (p : Option Preprocessor) :
      Program (Parser.onStream (Stream.attach p) : Parser υ Unit)
  | shown {υ β : Type} {f : Stream → β} : Stream.Shown f →
      Program (Parser.onStream fun s => .ok (f s) s : Parser υ β)

/-- No program depends on counts and preferences. -/
theorem Program.indifferent {υ α : Type} {p : Parser υ α} (h : Program p) : Indifferent p := by
  induction h with
  | pure a => exact .pure a
  | bind _ _ ih ihf => exact ih.bind ihf
  | loop _ b ih => exact .loop ih b
  | withState init _ ih => exact ih.withState init
  | attempt _ ih => exact ih.attempt
  | refuse | fail | log => exact fun _ _ h => ⟨rfl, h⟩
  | user => exact .user
  | modifyUser f => exact .modifyUser f
  | onArena f => exact .onArena f
  | peek => exact .onStream Stream.indifferent_peek
  | line => exact .onStream Stream.indifferent_line
  | rawText terminator options => exact .onStream (Stream.indifferent_rawText terminator options)
  | bookkeeping h => exact .onStream h.indifferent
  | attach p => exact .onStream (Stream.indifferent_attach p)
  | shown hf => exact .onStream fun _ _ h => ⟨congrArg Except.ok (h.shown hf), h⟩

/-! ## the routines of the grammar -/

namespace Program

variable {υ α β : Type}

theorem compositional : Compositional (fun p => Program p) where
  pure := .pure
  bind := .bind
  loop := .loop
  withState init _ h := .withState init h
  peek := .peek
  consume := .bookkeeping .consume
  refuse := .refuse
  user := .user
  modifyUser := .modifyUser
  push list t := .onArena (·.push list t)

theorem trySigned (decode : Token → Option α) (negate : α → α) :
    Program (Grammar.trySigned decode negate : Parser υ (Option α)) := by
  apply Program.peek.bind
  intro sign
  split
  · apply (Program.bookkeeping .save).bind
    intro _
    apply (Program.bookkeeping .consume).bind
    intro _
    apply (Program.attempt (compositional.tryDecoded decode)).bind
    rintro (e | _ | v)
    · exact (Program.bookkeeping .restore).bind fun _ => .fail _
    · exact (Program.bookkeeping .restore).bind fun _ => .pure none
    · exact (Program.bookkeeping .abandon).bind fun _ => .pure _
  · exact compositional.tryDecoded decode

theorem tryQualifiedName (templates : Bool) :
    Program (Grammar.tryQualifiedName templates : Parser υ (Option TokenList)) := by
  apply Program.peek.bind
  intro t
  split
  · have hname := Program.attempt (compositional.nameTokens (υ := υ) templates)
    apply (Program.withState TokenList.empty hname).bind
    rintro ⟨e | _, list⟩
    · exact (Program.onArena (·.release list)).bind fun _ => .fail _
    · exact .pure (some list)
  · exact .pure none

theorem skipInstance : Program (Grammar.skipInstance : Parser υ Nat) := by
  have hback : Program (do
      Parser.restore
      return 0 : Parser υ Nat) := (Program.bookkeeping .restore).bind fun _ => .pure 0
  apply (Program.bookkeeping .save).bind
  intro _
  apply compositional.next.bind
  intro name
  split
  · apply Program.peek.bind
    intro t
    split
    · apply (Program.bookkeeping .consume).bind
      exact fun _ => (Program.bookkeeping .abandon).bind fun _ => .pure 2
    · exact hback
  · exact hback

end Program

/-- Every routine of the grammar is a program, if what it runs for its caller is one. -/
theorem pervasive_program : Pervasive (fun p => Program p) where
  toCompositional := Program.compositional
  log event _ := .log event
  signed := Program.trySigned
  name := Program.tryQualifiedName
  instanceName := Program.skipInstance

/-! ## whole sources -/

namespace Lexer

theorem kin_drain (lx : Lexer) : ∀ lx', lx.Kin False lx' → lx.drain.Kin False lx'.drain := by
  fun_induction Lexer.drain lx with
  | case1 lx o f hf =>
    intro lx' h
    have hf' := h.peek.result.trans hf
    refine ⟨drain_of_error hf', False.elim, ?_⟩
    rw [drain_state_of_error hf']
    exact h.peek.state
  | case2 lx o t ht hend =>
    intro lx' h
    have ht' := h.peek.result.trans ht
    refine ⟨drain_of_end ht' hend, False.elim, ?_⟩
    rw [drain_state_of_end ht' hend]
    exact h.peek.state.consumed t
  | case3 lx o t ht hend r ih =>
    intro lx' h
    have ht' := h.peek.result.trans ht
    have hcontent : t.isEnd = false := by simpa using hend
    have hrest := ih _ (h.peek.state.consumed t)
    refine ⟨?_, False.elim, ?_⟩
    · rw [drain_next ht' hcontent, hrest.result]
    · rw [drain_state_next ht' hcontent]
      exact hrest.state

theorem Kin.tokenizeAll {lx lx' : Lexer} (h : lx.Kin False lx') :
    lx.tokenizeAll.Kin False lx'.tokenizeAll :=
  have hdrain := kin_drain lx lx' h
  ⟨hdrain.result, False.elim, hdrain.state⟩

theorem kin_ofSource (source : String) (p q : LexicalPreferences) (c : Option Preprocessor) :
    ((ofSource source p).withPreprocessor c).Kin False ((ofSource source q).withPreprocessor c) :=
  ⟨Metrics.zero, q, rfl, False.elim⟩

end Lexer

/-! ## runs in a process -/

/-- What a caller sees of a program: its result, and then the position, the comments before the
consumed tokens and the recorded tokens. -/
structure View (α : Type) where
  result : Except Failure α
  position : Position
  comments : List Comment
  recorded : List Token

def Outcome.view {υ α : Type} (o : Outcome (Session υ) α) : View α :=
  ⟨o.result, o.state.stream.position, o.state.stream.comments, o.state.stream.recorded⟩

/-- By what it has seen so far, newest first, a caller decides which program to run next, or to
stop.  It may go on after a failure. -/
abbrev Caller (υ α : Type) : Type := List (View α) → Option { p : Parser υ α // Program p }

/-- A session, with the log that its events go to. -/
structure Process (υ : Type) where
  session : Session υ
  facility : Facility

/-- The first steps of a caller.  Before the events of a step are published, other parts of the
process may have changed the log: named another header, installed preferences or a logger. -/
def Caller.run {υ α : Type} (caller : Caller υ α) (meanwhile : Nat → Facility → Facility) :
    Nat → List (View α) → Process υ → List (View α) × Process υ
  | 0, seen, x => (seen, x)
  | steps + 1, seen, x =>
    match caller seen with
    | none => (seen, x)
    | some call =>
      let o := call.1 x.session
      let facility := (meanwhile seen.length x.facility).publishAll o.events
      run caller meanwhile steps (o.view :: seen) ⟨o.state, facility⟩

/-- What two runs may differ in: the log with its environment, the preferences for a lexer, if they
are not left to the environment, and what happens to the log. -/
structure Setting where
  facility : Facility
  given : Option LexicalPreferences
  meanwhile : Nat → Facility → Facility

def Setting.preferences (x : Setting) : LexicalPreferences :=
  x.given.getD (.ofEnvironment x.facility.environment)

/-- What a caller reads: a source behind a preprocessor, or recorded tokens. -/
inductive Reader where
  | source (text : String) (preprocessor : Option Preprocessor)
  | replay (r : Replay)

def Reader.stream (preferences : LexicalPreferences) : Reader → Stream
  | source text preprocessor =>
    .live ((Lexer.ofSource text preferences).withPreprocessor preprocessor)
  | replay r => .replay r

/-- A process at its beginning. -/
def Setting.process {υ : Type} (x : Setting) (reader : Reader) (arena : Arena) (user : υ) :
    Process υ := ⟨⟨reader.stream x.preferences, arena, user⟩, x.facility⟩

theorem Reader.kin_stream (reader : Reader) (p q : LexicalPreferences) :
    (reader.stream p).Kin (reader.stream q) := by
  cases reader with
  | source text c => exact .live (Lexer.kin_ofSource text p q c)
  | replay r => exact .replay r

theorem view_of_kin {υ α : Type} {o o' : Outcome (Session υ) α} (hresult : o'.result = o.result)
    (hstate : o.state.Kin o'.state) : o'.view = o.view := by
  unfold Outcome.view
  rw [hresult, hstate.stream.shown .position, hstate.stream.shown .comments,
    hstate.stream.shown .recorded]

/-- One step after the other: the callers have seen the same, so they run the same program. -/
theorem Caller.run_kin {υ α : Type} (caller : Caller υ α)
    (meanwhile meanwhile' : Nat → Facility → Facility) (steps : Nat) (seen : List (View α))
    {x x' : Process υ} (h : x.session.Kin x'.session) :
    let run := caller.run meanwhile steps seen x
    let run' := caller.run meanwhile' steps seen x'
    run'.1 = run.1 ∧ run.2.session.Kin run'.2.session := by
  intro run run'
  simp only [run, run']
  clear run run'
  induction steps generalizing seen x x' with
  | zero => exact ⟨rfl, h⟩
  | succ steps ih =>
    unfold Caller.run
    cases hc : caller seen with
    | none => exact ⟨rfl, h⟩
    | some call =>
      obtain ⟨hresult, hstate⟩ := call.2.indifferent h
      dsimp only
      rw [view_of_kin hresult hstate]
      exact ih _ hstate

/-- Two runs that differ only in their settings give a caller the same views at every step, and leave
sessions behind that differ at most in the counts and preferences of a lexer.  So does the reading of
a whole source. -/
theorem settings_change_nothing (x x' : Setting) :
    (∀ {υ α : Type} (reader : Reader) (arena : Arena) (user : υ) (caller : Caller υ α)
        (steps : Nat),
      let run := caller.run x.meanwhile steps [] (x.process reader arena user)
      let run' := caller.run x'.meanwhile steps [] (x'.process reader arena user)
      run'.1 = run.1 ∧ run.2.session.Kin run'.2.session) ∧
    ∀ source : String,
      (tokenize source x.preferences).Kin False (tokenize source x'.preferences) ∧
      (tokenizePreprocessed source x.preferences).Kin False
        (tokenizePreprocessed source x'.preferences) ∧
      ∀ c : Option Preprocessor,
        ((Lexer.ofSource source x.preferences).withPreprocessor c).tokenizeAll.Kin False
          ((Lexer.ofSource source x'.preferences).withPreprocessor c).tokenizeAll := by
  constructor
  · intro υ α reader arena user caller steps
    exact caller.run_kin _ _ steps [] ⟨reader.kin_stream _ _, rfl, rfl⟩
  · intro source
    have hall (c : Option Preprocessor) :=
      (Lexer.kin_ofSource source x.preferences x'.preferences c).tokenizeAll
    exact ⟨hall none, hall _, hall⟩

/-- What is logged does depend on the preferences: an error with its place or without it. -/
example : (tokenize "'" ⟨true, false, false, true⟩).events ≠
    (tokenize "'" ⟨true, false, false, false⟩).events := by
  decide +kernel

end HeaderLex
