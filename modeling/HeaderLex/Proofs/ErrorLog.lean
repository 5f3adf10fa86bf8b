import HeaderLex.Log.Facility
import HeaderLex.Proofs.Compositional
import HeaderLex.Proofs.ScannerLog

/-!
# Errors in the log

An operation that ends with an error of the source has logged this error, with its code and its
message, and has logged no other error; an operation that ends with a result has logged none.  The
scanner logs where an error arises, the grammar where it is made, and whoever passes an error on or
hands it to the caller logs nothing more.  An error that the scanner hushes is not logged by anyone.

* `Stream.Bookkeeping`      the operations of a stream that look at no text;
* `Telling`                 the notices of a parser add up to what its result asks for, with what was on
                            the account before it and is after it;
* `Telling.bind`, `Telling.attempt`, ...   accounts of compound parsers;
* `pervasive_telling`       the routines of the grammar keep their account;
* `CutTo`                   a message of bounded length;
* `Reading`                 what a reader of a header calls;
* `errors_logged_once_iff`  every error is logged once, exactly if no error can be hushed.
-/

namespace HeaderLex

open HeaderLex.Parser HeaderLex.Operation HeaderLex.Grammar

/-! ## the operations of a stream -/

/-- The operation logs nothing; it answers, or it was misused. -/
def Outcome.Silent {σ α : Type} (o : Outcome σ α) : Prop :=
  (∃ a s, o = .ok a s) ∨ ∃ m s, o = .misuse m s

theorem Outcome.Silent.tells {σ α : Type} {o : Outcome σ α} (h : o.Silent)
    (hushed : SourceError → Prop) (before : List Notice) : o.Tells hushed before (Kept before) := by
  obtain ⟨a, s, rfl⟩ | ⟨m, s, rfl⟩ := h
  · exact List.append_nil before
  · trivial

theorem Outcome.Silent.mapState {σ τ α : Type} {o : Outcome σ α} (h : o.Silent) (f : σ → τ) :
    (o.mapState f).Silent := by
  obtain ⟨a, s, rfl⟩ | ⟨m, s, rfl⟩ := h
  · exact .inl ⟨a, f s, rfl⟩
  · exact .inr ⟨m, f s, rfl⟩

theorem Outcome.Silent.no_error {σ α : Type} {o : Outcome σ α} {e : SourceError} (h : o.Silent) :
    o.result ≠ .error (.source e) := by
  intro heq
  obtain ⟨a, s, rfl⟩ | ⟨m, s, rfl⟩ := h <;> cases heq

/-- The operations that look at no text. -/
inductive Stream.Bookkeeping : {α : Type} → (Stream → Outcome Stream α) → Prop
  | consume : Bookkeeping Stream.consume
  | clearComments : Bookkeeping Stream.clearComments
  | disableComments : Bookkeeping Stream.disableComments
  | enableComments : Bookkeeping Stream.enableComments
  | commitComments : Bookkeeping Stream.commitComments
  | save : Bookkeeping Stream.save
  | restore : Bookkeeping Stream.restore
  | abandon : Bookkeeping Stream.abandon
  | startRecording : Bookkeeping Stream.startRecording
  | record (t : Token) : Bookkeeping (Stream.record t)
  | stopRecording : Bookkeeping Stream.stopRecording

theorem Stream.Bookkeeping.silent {α : Type} {operation : Stream → Outcome Stream α}
    (h : Bookkeeping operation) (s : Stream) : (operation s).Silent := by
  have hlexer : ∀ lx : Lexer, lx.consume.Silent ∧ lx.enableComments.Silent ∧ lx.save.Silent ∧
      lx.restore.Silent ∧ lx.abandon.Silent ∧ lx.startRecording.Silent ∧
      ∀ t, (lx.record t).Silent := by
    intro lx
    unfold Lexer.consume Lexer.enableComments Lexer.save Lexer.restore Lexer.abandon
      Lexer.startRecording Lexer.record
    refine ⟨?_, ?_, ?_, ?_, ?_, ?_, fun t => ?_⟩ <;> split <;>
      first
        | exact .inl ⟨_, _, rfl⟩
        | exact .inr ⟨_, _, rfl⟩
  have hreplay : ∀ r : Replay, r.save.Silent ∧ r.restore.Silent ∧ r.abandon.Silent := by
    intro r
    unfold Replay.save Replay.restore Replay.abandon
    refine ⟨?_, ?_, ?_⟩ <;> split <;>
      first
        | exact .inl ⟨_, _, rfl⟩
        | exact .inr ⟨_, _, rfl⟩
  cases s with
  | live lx =>
    obtain ⟨hconsume, henable, hsave, hrestore, habandon, hstart, hrecord⟩ := hlexer lx
    cases h with
    | consume => exact hconsume.mapState _
    | enableComments => exact henable.mapState _
    | save => exact hsave.mapState _
    | restore => exact hrestore.mapState _
    | abandon => exact habandon.mapState _
    | startRecording => exact hstart.mapState _
    | record t => exact (hrecord t).mapState _
    | _ => exact .inl ⟨_, _, rfl⟩
  | replay r =>
    obtain ⟨hsave, hrestore, habandon⟩ := hreplay r
    cases h with
    | save => exact hsave.mapState _
    | restore => exact hrestore.mapState _
    | abandon => exact habandon.mapState _
    | startRecording | record t | stopRecording => exact .inr ⟨_, _, rfl⟩
    | _ => exact .inl ⟨_, _, rfl⟩

/-- They are operations of the lexer, if there is one. -/
theorem Stream.Bookkeeping.reaches {α : Type} {operation : Stream → Outcome Stream α}
    (h : Bookkeeping operation) (s : Stream) : s.Reaches (operation s).state := by
  cases s with
  | live lx =>
    cases h with
    | consume => exact reaches_apply lx .consume
    | clearComments => exact reaches_apply lx .clearComments
    | disableComments => exact reaches_apply lx .disableComments
    | enableComments => exact reaches_apply lx .enableComments
    | commitComments => exact reaches_apply lx .commitComments
    | save => exact reaches_apply lx .save
    | restore => exact reaches_apply lx .restore
    | abandon => exact reaches_apply lx .abandon
    | startRecording => exact reaches_apply lx .startRecording
    | record t => exact reaches_apply lx (.record t)
    | stopRecording => exact reaches_apply lx .stopRecording
  | replay r => cases h <;> trivial

/-- After some operations a look hushes the error; replays hush none. -/
def Stream.MayHush : Stream → SourceError → Prop
  | live lx, e => lx.MayHush e
  | replay _, _ => False

theorem Stream.Reaches.mayHush {s s' : Stream} {e : SourceError} (h : s.Reaches s')
    (he : s'.MayHush e) : s.MayHush e := by
  cases s' with
  | replay r' => exact he.elim
  | live lx' =>
    cases s with
    | replay r => exact h.elim
    | live lx =>
      obtain ⟨ops, rfl⟩ := h
      exact Lexer.MayHush.of_run he

/-! ## accounts of parsers -/

section

variable {υ α β γ : Type}

/-- With `before` on the account, the notices of the parser add up to what its result asks for.  It
works on the stream by operations only, so all that it can come across hushed may be hushed on the
stream `origin` that came before. -/
def Telling (origin : Stream) (before : List Notice) (asked : α → List Notice → Prop)
    (p : Parser υ α) : Prop :=
  ∀ s, origin.Reaches s.stream →
    origin.Reaches (p s).state.stream ∧ (p s).Tells origin.MayHush before asked

/-- The parser tells an error once unless it is hushed, and nothing else. -/
abbrev TellingOnce (p : Parser υ α) : Prop := ∀ origin, Telling origin [] (Kept []) p

/-- What is told of the result of an attempt: the error in it. -/
def Handed (origin : Stream) : Except SourceError α → List Notice → Prop
  | .ok _, account => account = []
  | .error e, account => Told origin.MayHush e account

namespace Telling

variable {origin : Stream} {before : List Notice} {asked : α → List Notice → Prop} {p : Parser υ α}

theorem pure (a : α) (h : asked a before) :
    Telling origin before asked (Pure.pure a : Parser υ α) := by
  refine fun _ hs => ⟨hs, ?_⟩
  show asked a (before ++ [])
  rwa [List.append_nil]

theorem refuse (e : SourceError) : Telling origin [] asked (Operation.refuse e : Parser υ α) :=
  fun _ hs => ⟨hs, Outcome.tells_refuse e _⟩

/-- An error that was handed over is on the account already. -/
theorem rethrow {e : SourceError} (h : Told origin.MayHush e before) :
    Telling origin before asked (Operation.rethrow e : Parser υ α) := by
  refine fun _ hs => ⟨hs, ?_⟩
  show Told origin.MayHush e (before ++ [])
  rwa [List.append_nil]

theorem log {event : Event} (h : event.isError = false) :
    TellingOnce (Operation.log event : Parser υ Unit) := fun _ _ hs => ⟨hs, notices_of_quiet h⟩

/-- One parser after the other: what the first leaves on the account, the second begins with. -/
theorem bind {f : α → Parser υ β} {later : β → List Notice → Prop} (hp : Telling origin before asked p)
    (hf : ∀ a account, asked a account → Telling origin account later (f a)) :
    Telling origin before later (p >>= f) := by
  intro s hs
  obtain ⟨hreaches, htells⟩ := hp s hs
  cases hr : (p s).result with
  | error e =>
    rw [bind_of_error hr]
    exact ⟨hreaches, htells.failed hr _⟩
  | ok a =>
    rw [bind_of_ok hr]
    obtain ⟨hreaches', htells'⟩ := hf a _ (htells.answered hr) (p s).state hreaches
    exact ⟨hreaches', htells'.after rfl⟩

/-- The first parser leaves the account as it is. -/
theorem andThen {f : α → Parser υ β} {later : β → List Notice → Prop}
    (hp : Telling origin before (Kept before) p) (hf : ∀ a, Telling origin before later (f a)) :
    Telling origin before later (p >>= f) := by
  apply hp.bind
  rintro a _ rfl
  exact hf a

/-- The caller of an attempt gets the error, with its notice on the account. -/
theorem attempt (h : Telling origin [] (Kept []) p) :
    Telling origin [] (Handed origin) (Operation.attempt p) := by
  intro s hs
  obtain ⟨hreaches, htells⟩ := h s hs
  refine ⟨hreaches, ?_⟩
  unfold Outcome.Tells at htells ⊢
  unfold Operation.attempt
  dsimp only
  cases hr : (p s).result with
  | ok a =>
    rw [hr] at htells
    exact htells
  | error e =>
    rw [hr] at htells
    cases e <;> exact htells

theorem withState {p : Parser (υ × β) α} (h : Telling origin before asked p) (init : β) :
    Telling origin before (fun r => asked r.1) (Parser.withState init p) := by
  intro s hs
  obtain ⟨hreaches, htells⟩ := h ⟨s.stream, s.arena, (s.user, init)⟩ hs
  refine ⟨hreaches, ?_⟩
  unfold Parser.withState
  dsimp only
  cases hr : (p ⟨s.stream, s.arena, (s.user, init)⟩).result with
  | ok a => exact htells.answered hr
  | error e => exact htells.failed hr _

theorem repeatFor {body : β → Parser υ (β ⊕ γ)} (h : ∀ b, Telling origin [] (Kept []) (body b))
    (turns : Nat) (b : β) : Telling origin [] (Kept []) (Parser.repeatFor body turns b) := by
  induction turns generalizing b with
  | zero => exact fun _ hs => ⟨hs, rfl⟩
  | succ turns ih =>
    apply (h b).andThen
    intro r
    cases r with
    | inl b => exact ih b
    | inr c => exact pure c rfl

theorem loop {body : β → Parser υ (β ⊕ γ)} (h : ∀ b, TellingOnce (body b)) (b : β) :
    TellingOnce (Parser.loop body b) :=
  fun origin s => repeatFor (fun b => h b origin) s.stream.budget b s

/-! ### the stream and the arena -/

theorem onStream {f : Stream → Outcome Stream α} (hreaches : ∀ s : Stream, s.Reaches (f s).state)
    (htells : ∀ s : Stream, (f s).Tells s.MayHush before asked) :
    Telling origin before asked (Parser.onStream f : Parser υ α) := by
  intro s hs
  refine ⟨hs.trans (hreaches s.stream), ?_⟩
  have hmono := (htells s.stream).mono fun e => hs.mayHush
  exact hmono.congr rfl rfl

theorem peek : TellingOnce (Parser.peek : Parser υ Token) := by
  intro origin
  apply onStream Stream.reaches_peek
  intro s
  cases s with
  | live lx => exact (lx.tells_peek.mono fun e => Lexer.hushes_mayHush).congr rfl rfl
  | replay r => exact rfl

theorem bookkeeping {f : Stream → Outcome Stream α} (h : Stream.Bookkeeping f) :
    Telling origin before (Kept before) (Parser.onStream f : Parser υ α) :=
  onStream h.reaches fun s => (h.silent s).tells _ before

theorem onArena {f : Arena → Outcome Arena α} (h : ∀ a, (f a).Silent) :
    Telling origin before (Kept before) (Parser.onArena f : Parser υ α) :=
  fun s hs => ⟨hs, ((h s.arena).mapState _).tells _ before⟩

theorem push (list : TokenList) (t : Token) :
    TellingOnce (Parser.onArena (·.push list t) : Parser υ TokenList) := by
  intro origin
  apply onArena
  intro a
  unfold Arena.push
  split
  · dsimp only
    split <;> exact .inl ⟨_, _, rfl⟩
  · exact .inr ⟨_, _, rfl⟩

theorem silent_releaseChain (a : Arena) (steps : Nat) (id : Option NodeId) :
    (a.releaseChain steps id).Silent := by
  fun_induction Arena.releaseChain a steps id with
  | case1 a id => exact .inl ⟨_, _, rfl⟩
  | case2 a steps => exact .inl ⟨_, _, rfl⟩
  | case3 a steps id hcurrent next ih => exact ih
  | case4 a steps id hcurrent => exact .inr ⟨_, _, rfl⟩

theorem release (list : TokenList) :
    Telling origin before (Kept before) (Parser.onArena (·.release list) : Parser υ Unit) :=
  onArena fun a => silent_releaseChain a _ _

end Telling

end

/-! ## the grammar -/

/-- The ways to put parsers together keep the account. -/
theorem compositional_telling : Compositional (fun p => TellingOnce p) where
  pure a _ := .pure a rfl
  bind hp hf origin := (hp origin).andThen fun a => hf a origin
  loop := .loop
  withState init _ h origin := (h origin).withState init
  peek := .peek
  consume _ := .bookkeeping .consume
  refuse e _ := .refuse e
  user _ _ hs := ⟨hs, rfl⟩
  modifyUser _ _ _ hs := ⟨hs, rfl⟩
  push := .push

section

variable {υ α : Type}

/-- The error of the look ahead behind a sign is told where it arises, and passed on. -/
theorem telling_trySigned (decode : Token → Option α) (negate : α → α) :
    TellingOnce (trySigned decode negate : Parser υ (Option α)) := by
  intro origin
  apply (Telling.peek origin).andThen
  intro sign
  split
  · apply (Telling.bookkeeping .save).andThen
    intro _
    apply (Telling.bookkeeping .consume).andThen
    intro _
    apply (Telling.attempt (compositional_telling.tryDecoded decode origin)).bind
    rintro (e | _ | v) account haccount
    · exact (Telling.bookkeeping .restore).andThen fun _ => .rethrow haccount
    · exact (Telling.bookkeeping .restore).andThen fun _ => .pure none haccount
    · exact (Telling.bookkeeping .abandon).andThen fun _ => .pure _ haccount
  · exact compositional_telling.tryDecoded decode origin

theorem telling_tryQualifiedName (templates : Bool) :
    TellingOnce (tryQualifiedName templates : Parser υ (Option TokenList)) := by
  intro origin
  apply (Telling.peek origin).andThen
  intro t
  split
  · have hname := Telling.attempt (compositional_telling.nameTokens (υ := υ) templates origin)
    apply (hname.withState TokenList.empty).bind
    rintro ⟨e | _, list⟩ account haccount
    · exact (Telling.release list).andThen fun _ => .rethrow haccount
    · exact .pure (some list) haccount
  · exact .pure none rfl

theorem telling_skipInstance : TellingOnce (skipInstance : Parser υ Nat) := by
  intro origin
  have hback : Telling origin [] (Kept []) (do
      Parser.restore
      return 0 : Parser υ Nat) := (Telling.bookkeeping .restore).andThen fun _ => .pure 0 rfl
  apply (Telling.bookkeeping .save).andThen
  intro _
  apply (compositional_telling.next origin).andThen
  intro name
  split
  · apply (Telling.peek origin).andThen
    intro t
    split
    · apply (Telling.bookkeeping .consume).andThen
      exact fun _ => (Telling.bookkeeping .abandon).andThen fun _ => .pure 2 rfl
    · exact hback
  · exact hback

end

/-- All routines of the grammar keep their account. -/
theorem pervasive_telling : Pervasive (fun p => TellingOnce p) where
  toCompositional := compositional_telling
  log _ h := .log h
  signed := telling_trySigned
  name := telling_tryQualifiedName
  instanceName := telling_skipInstance

/-! ## what a listener receives -/

/-- `shown` is the text, or where the text is longer than `limit` bytes its longest prefix within the
limit, with dots behind it. -/
def CutTo (limit : Nat) (text shown : String) : Prop :=
  if text.utf8ByteSize ≤ limit then shown = text
  else ∃ kept left : List Char, text = String.ofList (kept ++ left) ∧
    (String.ofList kept).utf8ByteSize ≤ limit ∧
    (∀ c ∈ left.head?, limit < (String.ofList kept).utf8ByteSize + c.utf8Size) ∧
    shown = String.ofList kept ++ "..."

theorem utf8ByteSize_cons (c : Char) (cs : List Char) :
    (String.ofList (c :: cs)).utf8ByteSize = c.utf8Size + (String.ofList cs).utf8ByteSize := by
  rw [String.ofList_cons, String.utf8ByteSize_append, String.utf8ByteSize_singleton]

theorem Event.prefixWithin_longest (limit : Nat) (cs : List Char) :
    ∃ left, cs = prefixWithin limit cs ++ left ∧
      (String.ofList (prefixWithin limit cs)).utf8ByteSize ≤ limit ∧
      ∀ c ∈ left.head?, limit < (String.ofList (prefixWithin limit cs)).utf8ByteSize + c.utf8Size := by
  fun_induction prefixWithin limit cs with
  | case1 limit => exact ⟨[], rfl, Nat.zero_le _, fun c hc => by cases hc⟩
  | case2 limit c cs hfits ih =>
    obtain ⟨left, htext, hkept, hlongest⟩ := ih
    rw [utf8ByteSize_cons]
    refine ⟨left, congrArg (c :: ·) htext, by omega, ?_⟩
    intro d hd
    have := hlongest d hd
    omega
  | case3 limit c cs hfits =>
    refine ⟨c :: cs, rfl, Nat.zero_le _, ?_⟩
    intro d hd
    obtain rfl : c = d := Option.some.inj hd
    rw [show (String.ofList []).utf8ByteSize = 0 from rfl]
    omega

theorem Event.cutTo_bounded (text : String) : CutTo Limits.standard.logMessage text (bounded text) := by
  unfold CutTo bounded
  split
  · rfl
  · obtain ⟨left, htext, hkept, hlongest⟩ :=
      prefixWithin_longest Limits.standard.logMessage text.toList
    exact ⟨_, left, by rw [← htext, String.ofList_toList], hkept, hlongest, rfl⟩

namespace Facility

variable (f : Facility)

theorem notice_annotate (e : Event) : (f.annotate e).notice = e.notice := by
  unfold annotate
  split <;> rfl

theorem isError_annotate (e : Event) : (f.annotate e).isError = e.isError := by
  unfold annotate
  split <;> rfl

/-- Only debug events are left out. -/
theorem wants_of_isError {e : Event} (h : e.isError = true) : f.wants e = true := by
  obtain ⟨level, code, message, span, context⟩ := e
  cases level with
  | error => rfl
  | _ => cases h

/-- The name of the header does not change what the log shows of an error. -/
theorem notices_deliver (events : List Event) : notices (f.deliver events) = notices events := by
  unfold deliver notices
  rw [List.filter_map, List.filter_filter, List.map_map]
  have hkept : (fun e => (Event.isError ∘ f.annotate) e && f.wants e) = Event.isError := by
    funext e
    rw [Function.comp_apply, f.isError_annotate e]
    cases he : e.isError with
    | true => rw [f.wants_of_isError he, Bool.and_true]
    | false => exact Bool.false_and _
  rw [hkept]
  exact List.map_congr_left fun e _ => f.notice_annotate e

end Facility

/-! ## once in the log -/

/-- What a listener of every level receives: if the source is at fault one error event, with the error's
code and its message cut to length, or none if the error is hushed.  After a result it receives none, and
none either where a fault ends the computation. -/
structure Outcome.LoggedUnless {σ α : Type} (hushed : SourceError → Prop) (f : Facility)
    (o : Outcome σ α) : Prop where
  of_ok : ∀ a, o.result = .ok a → (f.deliver o.events).filter Event.isError = []
  of_error : ∀ e, o.result = .error (.source e) →
    (∃ event, (f.deliver o.events).filter Event.isError = [event] ∧ event.code = e.code ∧
      CutTo Limits.standard.logMessage e.message event.message) ∨
    ((f.deliver o.events).filter Event.isError = [] ∧ hushed e)
  of_fault : ∀ cause, o.result = .error (.fault cause) →
    (f.deliver o.events).filter Event.isError = []

/-- The same for an outcome of which no error may be hushed. -/
abbrev Outcome.LoggedOnce {σ α : Type} (f : Facility) (o : Outcome σ α) : Prop :=
  o.LoggedUnless (fun _ => False) f

namespace Outcome

variable {σ α : Type} {o : Outcome σ α} {hushed : SourceError → Prop}

theorem Tells.loggedUnless (h : o.TellsOnce hushed) (f : Facility) : o.LoggedUnless hushed f := by
  unfold TellsOnce Tells at h
  rw [← f.notices_deliver] at h
  constructor
  · intro a hr
    rw [hr] at h
    exact List.map_eq_nil_iff.1 h
  · intro e hr
    rw [hr] at h
    refine h.imp ?_ (And.imp List.map_eq_nil_iff.1 id)
    intro hnotice
    obtain ⟨event, hevents, hnotice⟩ := List.map_eq_singleton_iff.1 hnotice
    refine ⟨event, hevents, congrArg Notice.code hnotice, ?_⟩
    rw [show event.message = Event.bounded e.message from congrArg Notice.message hnotice]
    exact Event.cutTo_bounded e.message
  · intro cause hr
    rw [hr] at h
    exact List.map_eq_nil_iff.1 h

theorem LoggedUnless.mono {f : Facility} {hushed' : SourceError → Prop} (h : o.LoggedUnless hushed f)
    (hsub : ∀ e, hushed e → hushed' e) : o.LoggedUnless hushed' f where
  of_ok := h.of_ok
  of_error e he := (h.of_error e he).imp id (And.imp id (hsub e))
  of_fault := h.of_fault

/-- An error that was hushed is not logged. -/
theorem Hushed.not_loggedOnce {f : Facility} {e : SourceError} (h : o.Hushed e) :
    ¬ o.LoggedOnce f := by
  intro hlogged
  obtain ⟨hresult, hevents⟩ := h
  rw [← f.notices_deliver] at hevents
  obtain ⟨event, hevent, -⟩ | ⟨-, hnone⟩ := hlogged.of_error e hresult
  · rw [List.map_eq_nil_iff.1 hevents] at hevent
    cases hevent
  · exact hnone

end Outcome

/-- What a reader of a header calls: the operations of a stream, and the routines of the grammar.
What these run for their caller tells its own errors once. -/
inductive Reading {υ : Type} : {α : Type} → Parser υ α → Prop
  | peek : Reading Parser.peek
  | next : Reading Parser.next
  | atEnd : Reading Parser.atEnd
  | line : Reading (onStream Stream.line)
  | rawText (terminator : Char) (options : RawTextOptions) :
      Reading (onStream (Stream.rawText terminator options))
  | bookkeeping {α : Type} {operation : Stream → Outcome Stream α} :
      Stream.Bookkeeping operation → Reading (onStream operation)
  | routine {α : Type} {p : Parser υ α} : Grammar.Entry (fun p => TellingOnce p) p → Reading p

theorem Reading.tellingOnce {υ α : Type} {p : Parser υ α} (h : Reading p) : TellingOnce p := by
  intro origin
  cases h with
  | peek => exact .peek origin
  | next => exact compositional_telling.next origin
  | atEnd => exact (Telling.peek origin).andThen fun _ => .pure _ rfl
  | line =>
    apply Telling.onStream
    · rintro (lx | r)
      · exact Stream.reaches_apply lx .line
      · trivial
    · rintro (lx | r)
      · exact lx.tells_line.congr rfl rfl
      · trivial
  | rawText terminator options =>
    apply Telling.onStream
    · rintro (lx | r)
      · exact Stream.reaches_apply lx (.rawText terminator options)
      · trivial
    · rintro (lx | r)
      · exact (lx.tells_rawText terminator options).congr rfl rfl
      · trivial
  | bookkeeping h => exact .bookkeeping h
  | routine h => exact pervasive_telling.entry h origin

theorem Reading.loggedUnless {υ α : Type} {p : Parser υ α} (h : Reading p) (f : Facility)
    (s : Session υ) : (p s).LoggedUnless s.stream.MayHush f :=
  (h.tellingOnce s.stream s (.refl _)).2.loggedUnless f

/-- All that can be called on the lexer logs every error once. -/
def Lexer.LogsOnce (f : Facility) (lx : Lexer) : Prop :=
  lx.tokenizeAll.LoggedOnce f ∧ ∀ {υ α : Type} {p : Parser υ α}, Reading p →
    ∀ arena user, (p ⟨.live lx, arena, user⟩).LoggedOnce f

/-- Every call of a reader and every reading of a whole source logs the error that it ends with exactly
once, or it is one that may be hushed and is not logged.  On a lexer, after any operations, all calls
log every error once exactly if none may be hushed.  Only errors about a literal without its end are,
where a script gives them on a directive. -/
theorem errors_logged_once_iff (f : Facility) :
    (∀ {υ α : Type} {p : Parser υ α}, Reading p →
      ∀ s, (p s).LoggedUnless s.stream.MayHush f) ∧
    (∀ lx : Lexer, lx.tokenizeAll.LoggedUnless lx.MayHush f) ∧
    (∀ lx : Lexer, (∀ ops, (lx.run ops).LogsOnce f) ↔ ∀ e, ¬ lx.MayHush e) ∧
    ∀ (lx : Lexer) (e : SourceError), lx.MayHush e →
      Lexer.isUnclosedLiteral e.cause = true ∧ ∃ place, MayRefuse lx.answers place e := by
  refine ⟨fun h s => h.loggedUnless f s, fun lx => lx.tells_tokenizeAll.loggedUnless f, ?_,
    fun _ _ he => he.refused⟩
  intro lx
  constructor
  · rintro hlogs e ⟨ops, hhushes⟩
    have hlook : (Parser.peek (⟨.live (lx.run ops), .empty, ()⟩ : Session Unit)).Hushed e :=
      Lexer.peek_hushed_iff.2 hhushes
    exact hlook.not_loggedOnce ((hlogs ops).2 .peek .empty ())
  · intro hnone ops
    have hlater : ∀ e, (lx.run ops).MayHush e → False := fun e he => hnone e he.of_run
    exact ⟨((lx.run ops).tells_tokenizeAll.loggedUnless f).mono hlater,
      fun h arena user => (h.loggedUnless f _).mono hlater⟩

/-- The failure in a result, where two failures can be told apart. -/
def failure? {α : Type} : Except Failure α → Option Failure
  | .ok _ => none
  | .error f => some f

theorem error_of_failure? {α : Type} {r : Except Failure α} {f : Failure}
    (h : failure? r = some f) : r = .error f := by
  cases r with
  | ok a => cases h
  | error g => exact congrArg Except.error (Option.some.inj h)

/-- A list of names with a broken literal in it, read by a routine of the caller's own, and a directive
in an excluded region that a script refuses for a broken literal. -/
theorem errors_logged_once_iff_sample :
    let f := (Facility.ofEnvironment []).setFile "a.h"
    let preferences : LexicalPreferences := ⟨true, false, false, true⟩
    let form : ListForm := ⟨'(', ')', ',', false, "names"⟩
    let name : Parser Unit Unit := Grammar.requireIdentifier none >>= fun _ => pure ()
    let o := Grammar.requireList form name ⟨.live (Lexer.ofSource "(a, 'b" preferences), .empty, ()⟩
    let script : Script := ⟨[fun _ => .ok ⟨.silent, false⟩,
      fun place => .error ⟨.unterminatedString, place⟩], #[]⟩
    let lx := (Lexer.ofSource "#if 0\n#foo \"bar\n" preferences).withPreprocessor
      (some (.scripted script))
    let o' := (Parser.peek ⟨.live lx, .empty, ()⟩ : Outcome (Session Unit) Token)
    TellingOnce name ∧ o.result = .error (.source ⟨.unterminatedChar, ⟨4, 1⟩⟩) ∧
      (∃ event, (f.deliver o.events).filter Event.isError = [event] ∧
        event.code = Code.unterminatedChar) ∧
      o'.result = .error (.source ⟨.unterminatedString, ⟨6, 2⟩⟩) ∧
      (f.deliver o'.events).filter Event.isError = [] ∧ ¬ ∀ ops, (lx.run ops).LogsOnce f := by
  intro f preferences form name o script lx o'
  obtain ⟨hreadings, -, hlogs, -⟩ := errors_logged_once_iff f
  have hname : TellingOnce name := fun origin =>
    (compositional_telling.requireIdentifier none origin).andThen fun _ => .pure () rfl
  have hresult : o.result = .error (.source ⟨.unterminatedChar, ⟨4, 1⟩⟩) :=
    error_of_failure? (by decide +kernel)
  have hresult' : o'.result = .error (.source ⟨.unterminatedString, ⟨6, 2⟩⟩) :=
    error_of_failure? (by decide +kernel)
  have hevents : (f.deliver o'.events).filter Event.isError = [] := by decide +kernel
  refine ⟨hname, hresult, ?_, hresult', hevents, ?_⟩
  · obtain ⟨event, hevent, hcode, -⟩ | ⟨-, hhushed⟩ :=
      (hreadings (.routine (.requireList form hname)) _).of_error _ hresult
    · exact ⟨event, hevent, hcode⟩
    · obtain ⟨-, -, answer, hanswer, -⟩ := Lexer.MayHush.refused hhushed
      cases hanswer
  · obtain ⟨event, hevent, -⟩ | ⟨-, hhushed⟩ := (hreadings .peek _).of_error _ hresult'
    · rw [hevents] at hevent
      cases hevent
    · exact fun hall => (hlogs lx).1 hall _ hhushed

end HeaderLex
