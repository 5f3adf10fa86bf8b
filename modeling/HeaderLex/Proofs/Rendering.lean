import HeaderLex.Proofs.ErrorPlaces
import HeaderLex.Proofs.SourceMaps

/-!
# Every error can be rendered

A program over a source reads it with lexers, replays the tokens that it has got, runs the routines of
the grammar, and goes on after errors as it likes.  All that it gets to see are tokens and errors whose
places cut the source between two characters, so a source map of this source renders every error.

* `RunsOver`              the programs over a source, with the places in what they hold and give;
* `RunsOver.covering`     the routines of the grammar are such programs;
* `RunsOver.lands`        from places of the source only places of the source are reached;
* `SourceError.rendersIn_of_cuts`   rendering an error at a place of the source;
* `errors_render`         every error of every program.
-/

namespace HeaderLex

open HeaderLex.Parser HeaderLex.Operation HeaderLex.Grammar

variable {υ α β γ : Type} {source : String}

/-! ## programs over a source -/

/-- Goes on with another stream; the one before is given to the caller. -/
def Parser.exchange (stream : Stream) : Parser υ Stream := fun s => .ok s.stream { s with stream }

/-- The programs over a source: the operations of a stream and of an arena, results, errors, events and
states of the caller's own, sequence, repetition and the handling of errors, and turns to other streams
over the source and back.  What a program hands to an operation is at places of the source if all that it
holds and has got is; then what it gives is too. -/
inductive RunsOver (source : String) : {υ α : Type} → (υ → List Position) → (α → List Position) →
    Parser υ α → Prop
  | pure {υ α : Type} {held : υ → List Position} {places : α → List Position} (a : α) :
      (∀ q ∈ places a, q.Cuts source.toList) → RunsOver source held places (Pure.pure a : Parser υ α)
  | bind {υ α β : Type} {held : υ → List Position} {places : α → List Position}
      {places' : β → List Position} {p : Parser υ α} {f : α → Parser υ β} :
      RunsOver source held places p →
      (∀ a, (∀ q ∈ places a, q.Cuts source.toList) → RunsOver source held places' (f a)) →
      RunsOver source held places' (p >>= f)
  | loop {υ β γ : Type} {held : υ → List Position} (kept : β → List Position)
      (places : γ → List Position) {body : β → Parser υ (β ⊕ γ)} :
      (∀ b, (∀ q ∈ kept b, q.Cuts source.toList) →
        RunsOver source held (Sum.elim kept places) (body b)) →
      ∀ b, (∀ q ∈ kept b, q.Cuts source.toList) → RunsOver source held places (Parser.loop body b)
  | withState {υ α β : Type} {held : υ → List Position} {more : β → List Position}
      {places : α → List Position} (init : β) {p : Parser (υ × β) α} :
      (∀ q ∈ more init, q.Cuts source.toList) → RunsOver source (both held more) places p →
      RunsOver source held (both places more) (Parser.withState init p)
  | attempt {υ α : Type} {held : υ → List Position} {places : α → List Position} {p : Parser υ α} :
      RunsOver source held places p → RunsOver source held (handedPlaces places) p.attempt
  | refuse {υ α : Type} {held : υ → List Position} {places : α → List Position} (e : SourceError) :
      e.position.Cuts source.toList →
      RunsOver source held places (Operation.refuse e : Parser υ α)
  | rethrow {υ α : Type} {held : υ → List Position} {places : α → List Position} (e : SourceError) :
      e.position.Cuts source.toList →
      RunsOver source held places (Operation.rethrow e : Parser υ α)
  | log {υ : Type} {held : υ → List Position} (event : Event) :
      RunsOver source held nowhere (Operation.log event : Parser υ Unit)
  | user {υ : Type} {held : υ → List Position} :
      RunsOver source held held (Parser.user : Parser υ υ)
  | modifyUser {υ : Type} {held : υ → List Position} (f : υ → υ) :
      (∀ u, (∀ q ∈ held u, q.Cuts source.toList) → ∀ q ∈ held (f u), q.Cuts source.toList) →
      RunsOver source held nowhere (Parser.modifyUser f)
  | peek {υ : Type} {held : υ → List Position} :
      RunsOver source held Token.places (Parser.peek : Parser υ Token)
  | line {υ : Type} {held : υ → List Position} :
      RunsOver source held Token.places (Parser.onStream Stream.line : Parser υ Token)
  | rawText {υ : Type} {held : υ → List Position} (terminator : Char) (options : RawTextOptions) :
      RunsOver source held nowhere
        (Parser.onStream (Stream.rawText terminator options) : Parser υ String)
  | upkeep {υ : Type} {held : υ → List Position} {f : Stream → Outcome Stream Unit} :
      Stream.Upkeep source.toList f → RunsOver source held nowhere (Parser.onStream f : Parser υ Unit)
  | record {υ : Type} {held : υ → List Position} (t : Token) :
      (∀ q ∈ t.places, q.Cuts source.toList) →
      RunsOver source held nowhere (Parser.onStream (Stream.record t) : Parser υ Unit)
  | recorded {υ : Type} {held : υ → List Position} :
      RunsOver source held placesOf
        (Parser.onStream fun s => .ok s.recorded s : Parser υ (List Token))
  | comments {υ : Type} {held : υ → List Position} :
      RunsOver source held nowhere
        (Parser.onStream fun s => .ok s.comments s : Parser υ (List Comment))
  | position {υ : Type} {held : υ → List Position} :
      RunsOver source held (fun p => [p])
        (Parser.onStream fun s => .ok s.position s : Parser υ Position)
  | push {υ : Type} {held : υ → List Position} (list : TokenList) (t : Token) :
      (∀ q ∈ t.places, q.Cuts source.toList) →
      RunsOver source held nowhere (Parser.onArena (·.push list t) : Parser υ TokenList)
  | tokens {υ : Type} {held : υ → List Position} (list : TokenList) :
      RunsOver source held placesOf (Parser.onArena (·.tokens list) : Parser υ (List Token))
  | release {υ : Type} {held : υ → List Position} (list : TokenList) :
      RunsOver source held nowhere (Parser.onArena (·.release list) : Parser υ Unit)
  | exchange {υ α : Type} {held : υ → List Position} {places : α → List Position} {stream : Stream}
      {f : Stream → Parser υ α} : stream.On source.toList →
      (∀ old, old.On source.toList → RunsOver source held places (f old)) →
      RunsOver source held places (Parser.exchange stream >>= f)

namespace RunsOver

variable {held : υ → List Position} {places : α → List Position}

/-- The grammar makes its errors at tokens, so its routines are programs over the source. -/
theorem locating : Locating (Position.Cuts source.toList)
    (fun {_ _} held places p => RunsOver source held places p) where
  pure := .pure
  bind := .bind
  loop := .loop
  withState := .withState
  peek := .peek
  consume := .upkeep .consume
  refuse := .refuse
  user := .user
  modifyUser := .modifyUser
  push := .push

theorem trySigned (decode : Token → Option α) (negate : α → α) :
    RunsOver source held nowhere (Grammar.trySigned decode negate : Parser υ (Option α)) := by
  apply RunsOver.bind .peek
  intro sign _
  split
  · apply RunsOver.bind (.upkeep .save)
    intro _ _
    apply RunsOver.bind (.upkeep .consume)
    intro _ _
    apply RunsOver.bind (.attempt (locating.tryDecoded held decode))
    rintro (e | _ | v) hplaces
    · apply RunsOver.bind (.upkeep .restore)
      intro _ _
      exact .rethrow e (List.forall_mem_singleton.1 hplaces)
    · exact .bind (.upkeep .restore) fun _ _ => locating.done held _ rfl
    · exact .bind (.upkeep .abandon) fun _ _ => locating.done held _ rfl
  · exact locating.tryDecoded held decode

theorem tryQualifiedName (templates : Bool) : RunsOver source held nowhere
    (Grammar.tryQualifiedName templates : Parser υ (Option TokenList)) := by
  apply RunsOver.bind .peek
  intro t _
  split
  · have hname : RunsOver source held (both (handedPlaces nowhere) nowhere)
        (Parser.collecting TokenList.empty (Grammar.nameTokens templates)) :=
      .withState _ (forall_nowhere _) (.attempt (locating.nameTokens held templates))
    apply RunsOver.bind hname
    rintro ⟨e | _, list⟩ hplaces
    · apply RunsOver.bind (.release list)
      intro _ _
      exact .rethrow e (List.forall_mem_singleton.1 (forall_both.1 hplaces).1)
    · exact locating.done held _ rfl
  · exact locating.done held none rfl

theorem skipInstance : RunsOver source held nowhere (Grammar.skipInstance : Parser υ Nat) := by
  have hback : RunsOver source held nowhere (do Parser.restore; return 0 : Parser υ Nat) :=
    .bind (.upkeep .restore) fun _ _ => locating.done held 0 rfl
  apply RunsOver.bind (.upkeep .save)
  intro _ _
  apply RunsOver.bind (locating.next held)
  intro name _
  split
  · apply RunsOver.bind .peek
    intro t _
    split
    · apply RunsOver.bind (.upkeep .consume)
      intro _ _
      exact .bind (.upkeep .abandon) fun _ _ => locating.done held 2 rfl
    · exact hback
  · exact hback

theorem covering : Covering (Position.Cuts source.toList)
    (fun {_ _} held places p => RunsOver source held places p) where
  toLocating := locating
  log event _ := .log event
  signed := trySigned
  name := tryQualifiedName
  instanceName := skipInstance

end RunsOver

/-! ## places that are reached -/

/-- All places that the session speaks of are in the source. -/
structure Session.On (source : List Char) (held : υ → List Position) (s : Session υ) : Prop where
  stream : s.stream.On source
  arena : s.arena.On source
  user : ∀ q ∈ held s.user, q.Cuts source

/-- From places of the source the parser only reaches places of the source. -/
def Landing (source : List Char) (held : υ → List Position) (places : α → List Position)
    (p : Parser υ α) : Prop :=
  ∀ s : Session υ, s.On source held → (p s).Lands source (Session.On source held) places

namespace Landing

variable {source : List Char} {held : υ → List Position} {places : α → List Position}
  {p : Parser υ α}

theorem pure {a : α} (ha : ∀ q ∈ places a, q.Cuts source) :
    Landing source held places (Pure.pure a : Parser υ α) :=
  fun _ hs => Outcome.lands_ok hs ha

theorem bind {places' : β → List Position} {f : α → Parser υ β} (hp : Landing source held places p)
    (hf : ∀ a, (∀ q ∈ places a, q.Cuts source) → Landing source held places' (f a)) :
    Landing source held places' (p >>= f) := by
  intro s hs
  have hfirst := hp s hs
  cases hr : (p s).result with
  | ok a =>
    rw [bind_of_ok hr]
    have hsecond := hf a (hfirst.value a hr) _ hfirst.state
    exact hsecond.congr rfl hsecond.state
  | error e =>
    rw [bind_of_error hr]
    exact hfirst.failed hr hfirst.state

theorem repeatFor {kept : β → List Position} {places : γ → List Position}
    {body : β → Parser υ (β ⊕ γ)}
    (hbody : ∀ b, (∀ q ∈ kept b, q.Cuts source) →
      Landing source held (Sum.elim kept places) (body b)) (turns : Nat) (b : β)
    (hb : ∀ q ∈ kept b, q.Cuts source) :
    Landing source held places (Parser.repeatFor body turns b) := by
  induction turns generalizing b with
  | zero => exact fun _ hs => Outcome.lands_failure hs fun e he => by cases he
  | succ turns ih =>
    apply (hbody b hb).bind
    rintro (b' | c) hplaces
    · exact ih b' hplaces
    · exact .pure hplaces

theorem withState {more : β → List Position} (init : β) {p : Parser (υ × β) α}
    (hinit : ∀ q ∈ more init, q.Cuts source) (hp : Landing source (both held more) places p) :
    Landing source held (both places more) (Parser.withState init p) := by
  intro s hs
  have ho := hp ⟨s.stream, s.arena, (s.user, init)⟩ ⟨hs.stream, hs.arena, forall_both.2 ⟨hs.user, hinit⟩⟩
  obtain ⟨huser, hmore⟩ := forall_both.1 ho.state.user
  unfold Parser.withState
  dsimp only
  cases hr : (p ⟨s.stream, s.arena, (s.user, init)⟩).result with
  | ok a =>
    refine ⟨⟨ho.state.stream, ho.state.arena, huser⟩, ?_, by rintro _ ⟨⟩⟩
    rintro _ ⟨⟩
    exact forall_both.2 ⟨ho.value a hr, hmore⟩
  | error f => exact ho.failed hr ⟨ho.state.stream, ho.state.arena, huser⟩

theorem attempt (hp : Landing source held places p) :
    Landing source held (handedPlaces places) p.attempt := by
  intro s hs
  have ho := hp s hs
  unfold Operation.attempt
  dsimp only
  cases hr : (p s).result with
  | ok a =>
    refine ⟨ho.state, ?_, by rintro _ ⟨⟩⟩
    rintro _ ⟨⟩
    exact ho.value a hr
  | error f =>
    cases f with
    | source e =>
      refine ⟨ho.state, ?_, by rintro _ ⟨⟩⟩
      rintro _ ⟨⟩
      exact List.forall_mem_singleton.2 (ho.error e hr)
    | misuse m => exact Outcome.lands_failure ho.state fun e he => by cases he
    | fault m => exact Outcome.lands_failure ho.state fun e he => by cases he

theorem onStream {f : Stream → Outcome Stream α}
    (hf : ∀ s : Stream, s.On source → (f s).Lands source (Stream.On source) places) :
    Landing source held places (Parser.onStream f : Parser υ α) := by
  intro s hs
  have ho := hf s.stream hs.stream
  exact ho.congr rfl ⟨ho.state, hs.arena, hs.user⟩

theorem onArena {f : Arena → Outcome Arena α}
    (hf : ∀ a : Arena, a.On source → (f a).Lands source (Arena.On source) places) :
    Landing source held places (Parser.onArena f : Parser υ α) := by
  intro s hs
  have ho := hf s.arena hs.arena
  exact ho.congr rfl ⟨hs.stream, ho.state, hs.user⟩

theorem exchange {stream : Stream} {f : Stream → Parser υ α} (hstream : stream.On source)
    (hf : ∀ old, old.On source → Landing source held places (f old)) :
    Landing source held places (Parser.exchange stream >>= f) := by
  intro s hs
  have ho := hf s.stream hs.stream { s with stream } ⟨hstream, hs.arena, hs.user⟩
  exact ho.congr rfl ho.state

end Landing

/-- A program over the source only reaches places of the source. -/
theorem RunsOver.lands {held : υ → List Position} {places : α → List Position} {p : Parser υ α}
    (h : RunsOver source held places p) : Landing source.toList held places p := by
  induction h with
  | pure a ha => exact .pure ha
  | bind _ _ ih ihf => exact ih.bind ihf
  | loop kept places _ b hb ih => exact fun s hs => Landing.repeatFor ih s.stream.budget b hb s hs
  | withState init hinit _ ih => exact ih.withState init hinit
  | attempt _ ih => exact ih.attempt
  | refuse e he | rethrow e he => exact fun _ hs => Outcome.lands_error hs he
  | log event => exact fun _ hs => ⟨hs, fun _ _ => forall_nowhere _, by rintro _ ⟨⟩⟩
  | user => exact fun _ hs => Outcome.lands_ok hs hs.user
  | modifyUser f hf =>
    exact fun _ hs => Outcome.lands_ok ⟨hs.stream, hs.arena, hf _ hs.user⟩ (forall_nowhere _)
  | peek => exact .onStream fun _ => Stream.On.peek
  | line => exact .onStream fun _ => Stream.On.line
  | rawText terminator options => exact .onStream fun _ hs => hs.rawText terminator options
  | upkeep hf => exact .onStream fun _ hs => hs.upkeep hf
  | record t ht => exact .onStream fun _ hs => hs.record ht
  | recorded => exact .onStream fun _ hs => Outcome.lands_ok hs hs.recorded
  | comments => exact .onStream fun _ hs => Outcome.lands_ok hs (forall_nowhere _)
  | position =>
    exact .onStream fun _ hs => Outcome.lands_ok hs (List.forall_mem_singleton.2 hs.position)
  | push list t ht => exact .onArena fun _ ha => ha.push list ht
  | tokens list => exact .onArena fun _ ha => ha.tokens list
  | release list => exact .onArena fun _ ha => ha.releaseChain _ _
  | exchange hstream _ ih => exact .exchange hstream ih

/-! ## rendering -/

/-- The line with a number and a caret under one of its columns; nothing if there is no such line. -/
def SourceMap.pointAt (m : SourceMap) (number column : Nat) : String :=
  match m.line? number with
  | none => ""
  | some text =>
    let padding := String.ofList (List.replicate (toString number).length ' ')
    s!"   {padding} |\n{number} | " ++ String.ofList text ++ s!"\n   {padding} | " ++
      String.ofList (List.replicate (column - 1) ' ' ++ ['^']) ++ "\n"

/-- An excerpt for a single place. -/
theorem SourceMap.excerpt_emptyAt {m : SourceMap} {p : Position} {column : Nat}
    (hcolumn : m.columnAt p.offset = .ok column)
    (hempty : Text.slice m.source p.offset p.offset = .ok []) (message : String) :
    m.excerpt (Span.emptyAt p) message =
      .ok (s!"Error: {message}\n  --> {p.line}:{column}\n" ++ m.pointAt p.line column) := by
  unfold excerpt pointAt Span.emptyAt
  dsimp only
  rw [hcolumn]
  cases m.line? p.line with
  | none =>
    rw [String.append_empty]
    rfl
  | some text =>
    simp only [if_true, hempty, ← String.append_assoc]
    rfl

/-- The error can be rendered with the map of the source: its place cuts the source, its column counts
the characters since the last line feed before it, and no line is left out that the source has. -/
def SourceError.RendersIn (e : SourceError) (source : String) : Prop :=
  ∃ before after, source.toList = before ++ after ∧ e.position.offset = Text.byteLength before ∧
    let m := SourceMap.ofSource source
    let column := 1 + (Text.lineSoFar before).length
    e.render m = .ok (s!"Error: {e.message}\n  --> {e.position.line}:{column}\n" ++
      m.pointAt e.position.line column) ∧
    (m.line? e.position.line = none →
      e.position.line = 0 ∨ Text.newlines source.toList + 1 < e.position.line)

theorem SourceError.rendersIn_of_cuts {e : SourceError}
    (hlines : Text.newlines source.toList < Position.lineBound - 1)
    (he : e.position.Cuts source.toList) : e.RendersIn source := by
  obtain ⟨before, after, htext, hoffset⟩ := he
  have hcolumn : (SourceMap.ofSource source).columnAt e.position.offset =
      .ok (1 + (Text.lineSoFar before).length) := by
    rw [hoffset]
    exact SourceMap.columnAt_ofSource hlines htext
  have hempty : Text.slice source.toList e.position.offset e.position.offset = .ok [] := by
    have hslice := Text.slice_append before [] after
    rw [List.nil_append, ← htext, Text.byteLength_nil, Nat.add_zero, ← hoffset] at hslice
    exact hslice
  refine ⟨before, after, htext, hoffset, SourceMap.excerpt_emptyAt hcolumn hempty e.message, ?_⟩
  intro hnone
  refine Decidable.byContradiction fun hin => ?_
  obtain ⟨piece, -, hshown⟩ := @SourceMap.line?_ofSource_some source e.position.line (by omega) (by omega)
  cases hnone.symm.trans hshown

/-- Every error can be rendered: of every program over a source, which turns to lexers of this source, to
replays of its tokens and to the routines of the grammar as it likes, and of the reading of what such a
program leaves.  The tokens that it gives have their places in the source, so that they can be replayed
and handed on. -/
theorem errors_render (source : String)
    (hlines : Text.newlines source.toList < Position.lineBound - 1) :
    (∀ {υ α : Type} {held : υ → List Position} {places : α → List Position} {p : Parser υ α},
      Grammar.Routine (Position.Cuts source.toList) (RunsOver source held nowhere) places p →
        RunsOver source held places p) ∧
    (∀ {υ : Type} {held : υ → List Position} (preferences : LexicalPreferences)
        (preprocessor : Option Preprocessor) (user : υ),
      (∀ script, preprocessor = some (.scripted script) →
        RefusesWithin source.toList script.answers) → (∀ q ∈ held user, q.Cuts source.toList) →
      Session.On source.toList held
        ⟨.live ((Lexer.ofSource source preferences).withPreprocessor preprocessor), .empty, user⟩) ∧
    (∀ (tokens : List Token) (kind : TokenKind) (r : Replay),
      (∀ q ∈ placesOf tokens, q.Cuts source.toList) → Replay.ofTokens tokens kind = .ok r →
        (Stream.replay r).On source.toList) ∧
    ∀ {υ α : Type} {held : υ → List Position} {places : α → List Position} {p : Parser υ α},
      RunsOver source held places p →
      ∀ s : Session υ, s.On source.toList held →
        (∀ e, (p s).result = .error (.source e) → e.RendersIn source) ∧
        (∀ a, (p s).result = .ok a → ∀ q ∈ places a, q.Cuts source.toList) ∧
        (p s).state.On source.toList held ∧
        ∀ lx, (p s).state.stream = .live lx →
          (∀ e, lx.tokenizeAll.result = .error (.source e) → e.RendersIn source) ∧
          ∀ ts, lx.tokenizeAll.result = .ok ts → ∀ q ∈ placesOf ts, q.Cuts source.toList := by
  refine ⟨RunsOver.covering.routine, fun preferences preprocessor user hscript huser =>
    ⟨Lexer.on_ofSource source preferences hscript, Arena.on_empty, huser⟩,
    fun tokens kind r htokens hr => Replay.on_ofTokens hr htokens, ?_⟩
  intro υ α held places p hp s hs
  have hlands := hp.lands s hs
  refine ⟨fun e he => SourceError.rendersIn_of_cuts hlines (hlands.error e he), hlands.value,
    hlands.state, fun lx hlx => ?_⟩
  have hon : lx.On source.toList := by
    have hstream := hlands.state.stream
    rw [hlx] at hstream
    exact hstream
  exact ⟨fun e he => SourceError.rendersIn_of_cuts hlines (hon.tokenizeAll_cuts.2 e he),
    hon.tokenizeAll_cuts.1⟩

/-- A string of two bytes a letter is read, and then replayed as if it were all: the missing semicolon is
reported behind it. -/
theorem errors_render_sample :
    let source := "/* ß */ \"é\" x"
    let p : Parser Unit Token := do
      let t ← Parser.next
      let _ ← Parser.exchange (.replay ⟨[t], [], ⟨.endOfFile, "", t.behind, t.behind⟩⟩)
      let _ ← Parser.next
      Grammar.requireMark ';' none
    let s : Session Unit := ⟨.live (Lexer.ofSource source ⟨true, false, false, true⟩), .empty, ()⟩
    let e : SourceError := ⟨.unexpectedToken ";" "<end of file>" none, ⟨13, 1⟩⟩
    Text.newlines source.toList < Position.lineBound - 1 ∧ RunsOver source nowhere Token.places p ∧
      s.On source.toList nowhere ∧ (p s).result = .error (.source e) ∧ e.RendersIn source ∧
      e.render (SourceMap.ofSource source) = .ok ("Error: Missing ';' at line 1 (offset 13), found " ++
        "'<end of file>'\n  --> 1:12\n     |\n1 | /* ß */ \"é\" x\n     |            ^\n") := by
  intro source p s e
  have hlines : Text.newlines source.toList < Position.lineBound - 1 := by decide +kernel
  obtain ⟨hroutine, hbegin, hreplay, hrender⟩ := errors_render source hlines
  have hp : RunsOver source nowhere Token.places p := by
    apply RunsOver.bind (RunsOver.locating.next nowhere)
    intro t ht
    have htokens : ∀ q ∈ placesOf [t], q.Cuts source.toList :=
      forall_placesOf.2 (List.forall_mem_singleton.2 ht)
    apply RunsOver.exchange (hreplay [t] .endOfFile _ htokens rfl)
    intro old hold
    apply RunsOver.bind (RunsOver.locating.next nowhere)
    exact fun _ _ => hroutine (.requireMark ';' none)
  have hs : s.On source.toList nowhere :=
    hbegin ⟨true, false, false, true⟩ none () nofun (forall_nowhere ())
  have herror : (p s).result = .error (.source e) := error_of_failure? (by decide +kernel)
  exact ⟨hlines, hp, hs, herror, (hrender hp s hs).1 e herror, ok_of_toOption (by decide +kernel)⟩

end HeaderLex
