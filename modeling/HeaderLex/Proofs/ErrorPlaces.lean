import HeaderLex.Proofs.Chains
import HeaderLex.Proofs.Crashes
import HeaderLex.Proofs.ErrorOrigins
import HeaderLex.Proofs.HandedOut
import HeaderLex.Proofs.Indifference
import HeaderLex.Proofs.Provenance

/-!
# Places of a source

A lexer works between the characters of its source: its cursor, the tokens that it has found and the
errors that it reports all cut the source between two characters.  So do the tokens of a replay and of
an arena, and the end mark of a replay, once the tokens that they were given do.

* `Position.Cuts`      the source can be cut at this offset;
* `RefusesWithin`      a script refuses directives of the source at such places only;
* `Lexer.On`, `Replay.On`, `Stream.On`, `Arena.On`   all places that the state speaks of cut the source;
* `Outcome.Lands`      so do the places of a result and of an error, and the state left behind;
* `Lexer.On.apply`     one operation of a lexer;
* `Lexer.On.tokenizeAll`   the whole rest of the source.
-/

namespace HeaderLex

/-- The source can be cut here, before a character or at its end. -/
def Position.Cuts (source : List Char) (p : Position) : Prop :=
  ∃ before after, source = before ++ after ∧ p.offset = Text.byteLength before

variable {source : List Char}

theorem Position.cuts_start : Position.start.Cuts source := ⟨[], source, rfl, rfl⟩

theorem Cursor.Within.cuts {c : Cursor} (h : c.Within source) : c.position.Cuts source :=
  ⟨c.before.reverse, c.rest, h.text.symm, by rw [h.offset, Text.byteLength_reverse]⟩

/-- A token with the text behind the cursor has its places in the source. -/
theorem Cursor.Within.token_cuts {c : Cursor} {t : Token} (h : c.Within source)
    (hstart : t.start = c.position) (hvalue : t.value.toList <+: c.rest) :
    ∀ q ∈ t.places, q.Cuts source := by
  obtain ⟨after, hrest⟩ := hvalue
  have hbehind : t.behind.Cuts source := by
    refine ⟨c.before.reverse ++ t.value.toList, after, ?_, ?_⟩
    · rw [List.append_assoc, hrest, h.text]
    · rw [Text.byteLength_append, Text.byteLength_reverse, ← h.offset, ← hstart]
      rfl
  exact List.forall_mem_cons.2 ⟨hstart ▸ h.cuts, List.forall_mem_singleton.2 hbehind⟩

/-! ## outcomes -/

/-- The places of a result and of an error of the source cut the source; the state left behind has the
property. -/
structure Outcome.Lands {σ α : Type} (source : List Char) (on : σ → Prop)
    (places : α → List Position) (o : Outcome σ α) : Prop where
  state : on o.state
  value : ∀ a, o.result = .ok a → ∀ q ∈ places a, q.Cuts source
  error : ∀ e, o.result = .error (.source e) → e.position.Cuts source

namespace Outcome

variable {σ τ α β : Type} {on : σ → Prop} {on' : τ → Prop} {places : α → List Position}
  {places' : β → List Position}

theorem lands_ok {a : α} {s : σ} (hs : on s) (ha : ∀ q ∈ places a, q.Cuts source) :
    (Outcome.ok a s).Lands source on places where
  state := hs
  value := by rintro _ ⟨⟩; exact ha
  error := by rintro _ ⟨⟩

/-- A failure that is no error of the source. -/
theorem lands_failure {f : Failure} {s : σ} {events : List Event} (hs : on s)
    (hf : ∀ e, f ≠ .source e) : Lands source on places ⟨.error f, s, events⟩ where
  state := hs
  value := by rintro _ ⟨⟩
  error := by rintro e ⟨⟩; exact absurd rfl (hf e)

theorem lands_misuse {m : Misuse} {s : σ} (hs : on s) :
    (Outcome.misuse m s : Outcome σ α).Lands source on places :=
  lands_failure hs fun e he => by cases he

theorem lands_error {e : SourceError} {s : σ} {events : List Event} (hs : on s)
    (he : e.position.Cuts source) : Lands source on places ⟨.error (.source e), s, events⟩ where
  state := hs
  value := by rintro _ ⟨⟩
  error := by rintro _ ⟨⟩; exact he

/-- The same result, or the same failure. -/
theorem Lands.congr {o : Outcome σ α} {o' : Outcome τ α} (h : o.Lands source on places)
    (hresult : o'.result = o.result) (hstate : on' o'.state) : o'.Lands source on' places where
  state := hstate
  value a ha := h.value a (hresult ▸ ha)
  error e he := h.error e (hresult ▸ he)

theorem Lands.failed {o : Outcome σ α} {f : Failure} (h : o.Lands source on places)
    (hf : o.result = .error f) {s : τ} {events : List Event} (hs : on' s) :
    Lands source on' places' ⟨.error f, s, events⟩ where
  state := hs
  value := by rintro _ ⟨⟩
  error := by rintro e ⟨⟩; exact h.error e hf

end Outcome

/-! ## refusals -/

/-- The answers refuse directives of the source at places of the source. -/
def RefusesWithin (source : List Char) (answers : List ScriptAnswer) : Prop :=
  ∀ place e, place.Cuts source → MayRefuse answers place e → e.position.Cuts source

theorem RefusesWithin.mono {answers answers' : List ScriptAnswer} (h : RefusesWithin source answers)
    (hsub : answers' ⊆ answers) : RefusesWithin source answers' :=
  fun place e hplace he => h place e hplace (he.mono hsub)

/-- Of the preprocessors only a script has such answers. -/
theorem refusesWithin_attached {p : Option Preprocessor}
    (hp : ∀ script, p = some (.scripted script) → RefusesWithin source script.answers) (lx : Lexer) :
    RefusesWithin source (lx.withPreprocessor p).answers := by
  cases p with
  | none => rintro _ _ _ ⟨_, hmem, _⟩; cases hmem
  | some q =>
    cases q with
    | conditional c => rintro _ _ _ ⟨_, hmem, _⟩; cases hmem
    | scripted script => exact hp script rfl

/-! ## lexers -/

namespace Lexer

open Bytewise (Grounded)

/-- The current token, if there is one, has its places in the source. -/
def Shown (source : List Char) (_ : Cursor) (p : Option Peeked) : Prop :=
  ∀ q ∈ p, ∀ x ∈ q.token.places, x.Cuts source

/-- All places of the lexer and of its checkpoints, and those of the recorded tokens, are in the
source, and so are those that its script may name. -/
structure On (source : List Char) (lx : Lexer) : Prop where
  grounded : lx.Everywhere (Grounded source)
  shown : lx.Everywhere (Shown source)
  recorded : ∀ q ∈ placesOf lx.recorded, q.Cuts source
  refusals : RefusesWithin source lx.answers

variable {lx : Lexer}

theorem on_ofSource (source : String) (preferences : LexicalPreferences) {p : Option Preprocessor}
    (hp : ∀ script, p = some (.scripted script) → RefusesWithin source.toList script.answers) :
    ((ofSource source preferences).withPreprocessor p).On source.toList where
  grounded := ⟨grounded_bare (.ofText _), fun _ hs => absurd hs List.not_mem_nil⟩
  shown := ⟨fun _ hq => absurd hq (Option.not_mem_none _), fun _ hs => absurd hs List.not_mem_nil⟩
  recorded := List.forall_mem_nil _
  refusals := refusesWithin_attached hp _

theorem On.withPreprocessor (h : lx.On source) {p : Option Preprocessor}
    (hp : ∀ script, p = some (.scripted script) → RefusesWithin source script.answers) :
    (lx.withPreprocessor p).On source where
  grounded := ⟨h.grounded.place, h.grounded.saved⟩
  shown := ⟨h.shown.place, h.shown.saved⟩
  recorded := h.recorded
  refusals := refusesWithin_attached hp lx

/-- A token that is found has its places in the source. -/
theorem found_cuts {p : Peeked} (h : lx.cursor.Within source) (hok : lx.lexToken.result = .ok p) :
    ∀ q ∈ p.token.places, q.Cuts source := by
  induction hok using found_induction with
  | lexeme lx _ _ _ _ hat _ =>
    obtain ⟨-, ht, -⟩ | ⟨c, cs, l, hrest, hscan, ht, -⟩ := lexAt_ok hat
    · rw [ht]
      exact (within_skipGap h).token_cuts rfl List.nil_prefix
    · rw [ht]
      refine (within_skipGap h).token_cuts rfl ?_
      rw [String.toList_ofList, hrest, ← Lexeme.scan_append hscan]
      exact List.prefix_append _ _
  | directive lx rest _ _ _ ha _ _ ih =>
    exact ih ((stable_within source).handleDirective (within_skipGap h) _
      (Stable.directiveAt?_of_ahead ha))

/-- A consumed token is recorded, or it is not. -/
theorem recorded_consumed {t : Token} (h : ∀ q ∈ placesOf lx.recorded, q.Cuts source)
    (ht : ∀ q ∈ t.places, q.Cuts source) :
    ∀ q ∈ placesOf (lx.consumed t).recorded, q.Cuts source := by
  unfold consumed
  dsimp only
  split
  · exact forall_placesOf_snoc h ht
  · exact h

namespace On

theorem within (h : lx.On source) : lx.cursor.Within source := h.grounded.place.1

/-- The next token has its places in the source, and so has an error on the way to it. -/
theorem peek_cuts (h : lx.On source) :
    (∀ t, lx.peek.result = .ok t → ∀ q ∈ t.places, q.Cuts source) ∧
      ∀ e, lx.peek.result = .error (.source e) → e.position.Cuts source := by
  constructor
  · intro t ht
    cases hc : lx.current with
    | some p =>
      rw [peek_of_current hc] at ht
      obtain rfl := Except.ok.inj ht
      exact h.shown.place p hc
    | none =>
      obtain ⟨p, hp, rfl, -⟩ := peek_fresh hc ht
      exact found_cuts h.within hp
  · intro e he
    have hkept := (stable_within source).toConserved.and (stable_answers lx.answers).toConserved
    obtain ⟨lx', ⟨hwithin, hanswers⟩, hposition | hmay⟩ :=
      (hkept.arising_peek ⟨within_skipGap h.within, List.Subset.refl _⟩ e he).place
    · rw [hposition]
      exact Cursor.Within.cuts hwithin
    · exact h.refusals _ e (Cursor.Within.cuts hwithin) (hmay.mono hanswers)

theorem line_cuts (h : lx.On source) {t : Token} (ht : lx.line.result = .ok t) :
    ∀ q ∈ t.places, q.Cuts source := by
  obtain ⟨blanks, cs, text, rest, lines, u, hblanks, -, -, -, hu, hvalue, -, hstart, -⟩ :=
    lx.line_cases
  obtain rfl : u = t := Except.ok.inj (hu.symm.trans ht)
  have hwithin := h.grounded.place.unget.advance hblanks (Nat.zero_le _)
  exact hwithin.token_cuts hstart hvalue

theorem rawText_cuts (h : lx.On source) {terminator : Char} {options : RawTextOptions}
    {e : SourceError} (he : (lx.rawText terminator options).result = .error (.source e)) :
    e.position.Cuts source := by
  have hgap : lx.unget.skipGap.2.cursor.Within source := within_skipGap h.grounded.place.unget
  unfold rawText at he
  dsimp only at he
  split at he
  · next e' hbroken =>
    cases he
    rw [(skipGap_error hbroken).2]
    exact hgap.cuts
  · split at he
    · cases he
      exact hgap.cuts
    · split at he <;> cases he
      exact hgap.cuts

/-- The current token stays in the source. -/
theorem shown_apply (h : lx.On source) (op : Op) :
    (lx.apply op).state.Everywhere (Shown source) := by
  apply h.shown.apply
  intro hop
  obtain hnone | ⟨-, hsame⟩ | ⟨p, hp, hfound, -⟩ := lx.current_apply hop
  · rw [hnone]
    exact fun _ hq => absurd hq (Option.not_mem_none _)
  · rw [hsame]
    exact h.shown.place
  · rw [hfound]
    rintro q ⟨⟩
    exact found_cuts h.within hp

/-- The recorded tokens stay in the source, if the caller records tokens of the source. -/
theorem recorded_apply (h : lx.On source) {op : Op}
    (hop : ∀ t, op = .record t → ∀ q ∈ t.places, q.Cuts source) :
    ∀ q ∈ placesOf (lx.apply op).state.recorded, q.Cuts source := by
  have hunget : lx.unget.recorded = lx.recorded := by
    unfold unget
    split <;> rfl
  have hpeek : ∀ q ∈ placesOf lx.peek.state.recorded, q.Cuts source := by
    rw [show lx.peek.state.recorded = lx.recorded from congrArg Ledger.recorded lx.ledger_peek]
    exact h.recorded
  cases op with
  | peek | atEnd => exact hpeek
  | next =>
    obtain ⟨t, -, ht, -, hs | hs⟩ | ⟨f, -, -, hs⟩ := @apply_look lx .next rfl
    · rw [hs]
      exact hpeek
    · rw [hs]
      exact recorded_consumed hpeek (h.peek_cuts.1 t ht)
    · rw [hs]
      exact hpeek
  | consume =>
    show ∀ q ∈ placesOf lx.consume.state.recorded, _
    unfold consume
    split
    · next p hc => exact recorded_consumed h.recorded (h.shown.place p hc)
    · exact h.recorded
  | line =>
    obtain ⟨cursor, comments, hs⟩ := lx.line_state
    show ∀ q ∈ placesOf lx.line.state.recorded, _
    rw [hs]
    exact hunget ▸ h.recorded
  | rawText terminator options =>
    obtain ⟨cursor, hs⟩ := lx.rawText_state terminator options
    show ∀ q ∈ placesOf (lx.rawText terminator options).state.recorded, _
    rw [hs]
    exact hunget ▸ h.recorded
  | save =>
    show ∀ q ∈ placesOf lx.save.state.recorded, _
    unfold save
    split <;> exact h.recorded
  | restore =>
    show ∀ q ∈ placesOf lx.restore.state.recorded, _
    unfold restore
    split
    · exact h.recorded
    · exact forall_placesOf.2 fun t ht => forall_placesOf.1 h.recorded t (List.mem_of_mem_take ht)
  | abandon =>
    show ∀ q ∈ placesOf lx.abandon.state.recorded, _
    unfold abandon
    split <;> exact h.recorded
  | enableComments =>
    show ∀ q ∈ placesOf lx.enableComments.state.recorded, _
    unfold enableComments
    split <;> exact h.recorded
  | startRecording =>
    show ∀ q ∈ placesOf lx.startRecording.state.recorded, _
    unfold startRecording
    split <;> exact h.recorded
  | record t =>
    show ∀ q ∈ placesOf (lx.record t).state.recorded, _
    unfold record
    split
    · exact forall_placesOf_snoc h.recorded (hop t rfl)
    · exact h.recorded
  | stopRecording => exact List.forall_mem_nil _
  | clearComments | disableComments | commitComments => exact h.recorded

/-- An operation leaves all places in the source. -/
theorem apply (h : lx.On source) {op : Op}
    (hop : ∀ t, op = .record t → ∀ q ∈ t.places, q.Cuts source) : (lx.apply op).state.On source :=
  ⟨grounded_apply h.grounded op, h.shown_apply op, h.recorded_apply hop,
    h.refusals.mono (lx.answers_apply op)⟩

theorem other (h : lx.On source) {op : Op} (hop : ∀ t, op ≠ .record t) :
    (lx.apply op).state.On source := h.apply fun t ht => absurd ht (hop t)

theorem nexts (h : lx.On source) (n : Nat) : (lx.run (List.replicate n .next)).On source := by
  induction n generalizing lx with
  | zero => exact h
  | succ n ih => exact ih (h.other fun _ => nofun)

/-- The tokens of the whole rest of the source have their places in it, and so has an error. -/
theorem tokenizeAll_cuts (h : lx.On source) :
    (∀ ts, lx.tokenizeAll.result = .ok ts → ∀ q ∈ placesOf ts, q.Cuts source) ∧
      ∀ e, lx.tokenizeAll.result = .error (.source e) → e.position.Cuts source := by
  constructor
  · intro ts hts
    refine forall_placesOf.2 fun t ht => ?_
    obtain ⟨n, hn⟩ := drain_answer hts ht
    obtain hpeek | ⟨hline, -⟩ := apply_token hn
    · exact (h.nexts n).peek_cuts.1 t hpeek
    · cases hline
  · intro e he
    obtain ⟨n, hn⟩ := drain_failure he
    obtain ⟨-, hpeek⟩ | ⟨_, _, hraw, -⟩ := apply_failure hn
    · exact (h.nexts n).peek_cuts.2 e hpeek
    · cases hraw

end On

end Lexer

/-! ## replays -/

/-- All tokens of the replay, its end mark included, have their places in the source. -/
structure Replay.On (source : List Char) (r : Replay) : Prop where
  rest : ∀ q ∈ placesOf r.rest, q.Cuts source
  saved : ∀ ts ∈ r.saved, ∀ q ∈ placesOf ts, q.Cuts source
  endMark : ∀ q ∈ r.endMark.places, q.Cuts source

namespace Replay

variable {r : Replay}

/-- The end mark stands where the last token ends. -/
theorem on_ofTokens {tokens : List Token} {kind : TokenKind} (h : ofTokens tokens kind = .ok r)
    (htokens : ∀ q ∈ placesOf tokens, q.Cuts source) : r.On source := by
  have hend : (endPosition tokens).Cuts source := by
    unfold endPosition
    split
    · next last hlast =>
      exact forall_placesOf.1 htokens last (List.mem_of_getLast? hlast) last.behind
        (List.mem_cons_of_mem _ List.mem_cons_self)
    · exact Position.cuts_start
  unfold ofTokens Token.endAt at h
  cases hkind : kind.isEnd with
  | true =>
    rw [hkind] at h
    cases h
    have hmark : ∀ q ∈ Token.places ⟨kind, "", endPosition tokens, endPosition tokens⟩, q.Cuts source :=
      List.forall_mem_cons.2 ⟨hend, List.forall_mem_singleton.2 hend⟩
    exact ⟨htokens, fun _ hts => absurd hts List.not_mem_nil, hmark⟩
  | false =>
    rw [hkind] at h
    cases h

theorem On.peek (h : r.On source) : ∀ q ∈ r.peek.places, q.Cuts source := by
  unfold Replay.peek
  cases hr : r.rest with
  | nil => exact h.endMark
  | cons t ts => exact forall_placesOf.1 h.rest t (hr ▸ List.mem_cons_self)

end Replay

/-! ## streams -/

namespace Stream

/-- All places of the stream are in the source. -/
def On (source : List Char) : Stream → Prop
  | live lx => lx.On source
  | replay r => r.On source

variable {s : Stream}

theorem On.peek (h : s.On source) : s.peek.Lands source (On source) Token.places := by
  cases s with
  | live lx =>
    have hstate : (lx.apply .peek).state.On source := Lexer.On.other h fun _ => nofun
    exact ⟨hstate, (Lexer.On.peek_cuts h).1, (Lexer.On.peek_cuts h).2⟩
  | replay r => exact Outcome.lands_ok h (Replay.On.peek h)

theorem On.line (h : s.On source) : s.line.Lands source (On source) Token.places := by
  cases s with
  | live lx =>
    have hstate : (lx.apply .line).state.On source := Lexer.On.other h fun _ => nofun
    obtain ⟨-, -, -, -, -, u, -, -, -, -, hu, -⟩ := lx.line_cases
    refine ⟨hstate, fun t ht => Lexer.On.line_cuts h ht, fun e he => ?_⟩
    cases hu.symm.trans he
  | replay r => exact Outcome.lands_misuse h

theorem On.rawText (h : s.On source) (terminator : Char) (options : RawTextOptions) :
    (s.rawText terminator options).Lands source (On source) nowhere := by
  cases s with
  | live lx =>
    have hstate : (lx.apply (.rawText terminator options)).state.On source :=
      Lexer.On.other h fun _ => nofun
    exact ⟨hstate, fun _ _ => forall_nowhere _, fun e he => Lexer.On.rawText_cuts h he⟩
  | replay r => exact Outcome.lands_misuse h

/-- The operations that look at no text and are given no token. -/
inductive Upkeep (source : List Char) : (Stream → Outcome Stream Unit) → Prop
  | consume : Upkeep source Stream.consume
  | clearComments : Upkeep source Stream.clearComments
  | disableComments : Upkeep source Stream.disableComments
  | enableComments : Upkeep source Stream.enableComments
  | commitComments : Upkeep source Stream.commitComments
  | save : Upkeep source Stream.save
  | restore : Upkeep source Stream.restore
  | abandon : Upkeep source Stream.abandon
  | startRecording : Upkeep source Stream.startRecording
  | stopRecording : Upkeep source Stream.stopRecording
  | attach (p : Option Preprocessor) :
      (∀ script, p = some (.scripted script) → RefusesWithin source script.answers) →
      Upkeep source (Stream.attach p)

theorem Upkeep.silent {f : Stream → Outcome Stream Unit} (hf : Upkeep source f) (s : Stream) :
    (f s).Silent := by
  cases hf with
  | attach p hp => cases s <;> exact .inl ⟨_, _, rfl⟩
  | consume => exact Bookkeeping.consume.silent s
  | clearComments => exact Bookkeeping.clearComments.silent s
  | disableComments => exact Bookkeeping.disableComments.silent s
  | enableComments => exact Bookkeeping.enableComments.silent s
  | commitComments => exact Bookkeeping.commitComments.silent s
  | save => exact Bookkeeping.save.silent s
  | restore => exact Bookkeeping.restore.silent s
  | abandon => exact Bookkeeping.abandon.silent s
  | startRecording => exact Bookkeeping.startRecording.silent s
  | stopRecording => exact Bookkeeping.stopRecording.silent s

theorem On.upkeep_live {lx : Lexer} (h : lx.On source) {f : Stream → Outcome Stream Unit}
    (hf : Upkeep source f) : (f (live lx)).state.On source := by
  have hop : ∀ op : Op, (∀ t, op ≠ .record t) → (lx.apply op).state.On source := fun _ => h.other
  cases hf with
  | consume => exact hop .consume fun _ => nofun
  | clearComments => exact hop .clearComments fun _ => nofun
  | disableComments => exact hop .disableComments fun _ => nofun
  | enableComments => exact hop .enableComments fun _ => nofun
  | commitComments => exact hop .commitComments fun _ => nofun
  | save => exact hop .save fun _ => nofun
  | restore => exact hop .restore fun _ => nofun
  | abandon => exact hop .abandon fun _ => nofun
  | startRecording => exact hop .startRecording fun _ => nofun
  | stopRecording => exact hop .stopRecording fun _ => nofun
  | attach p hp => exact h.withPreprocessor hp

theorem On.upkeep_replay {r : Replay} (h : r.On source) {f : Stream → Outcome Stream Unit}
    (hf : Upkeep source f) : (f (replay r)).state.On source := by
  obtain ⟨hrest, hsaved, hend⟩ := h
  cases hf with
  | consume =>
    exact ⟨forall_placesOf.2 fun t ht => forall_placesOf.1 hrest t (List.mem_of_mem_tail ht),
      hsaved, hend⟩
  | save =>
    show On source (replay r.save.state)
    unfold Replay.save
    split
    · exact ⟨hrest, hsaved, hend⟩
    · exact ⟨hrest, List.forall_mem_cons.2 ⟨hrest, hsaved⟩, hend⟩
  | restore =>
    show On source (replay r.restore.state)
    unfold Replay.restore
    split
    · exact ⟨hrest, hsaved, hend⟩
    · next rest saved hs =>
      rw [hs] at hsaved
      exact ⟨(List.forall_mem_cons.1 hsaved).1, (List.forall_mem_cons.1 hsaved).2, hend⟩
  | abandon =>
    show On source (replay r.abandon.state)
    unfold Replay.abandon
    split
    · exact ⟨hrest, hsaved, hend⟩
    · next rest saved hs =>
      rw [hs] at hsaved
      exact ⟨hrest, (List.forall_mem_cons.1 hsaved).2, hend⟩
  | _ => exact ⟨hrest, hsaved, hend⟩

theorem On.upkeep (h : s.On source) {f : Stream → Outcome Stream Unit} (hf : Upkeep source f) :
    (f s).Lands source (On source) nowhere := by
  refine ⟨?_, fun _ _ => forall_nowhere _, fun e he => absurd he (hf.silent s).no_error⟩
  cases s with
  | live lx => exact On.upkeep_live h hf
  | replay r => exact On.upkeep_replay h hf

/-- A token of the source is recorded. -/
theorem On.record (h : s.On source) {t : Token} (ht : ∀ q ∈ t.places, q.Cuts source) :
    (s.record t).Lands source (On source) nowhere := by
  refine ⟨?_, fun _ _ => forall_nowhere _, fun e he =>
    absurd he ((Bookkeeping.record t).silent s).no_error⟩
  cases s with
  | live lx =>
    have hstate : (lx.apply (.record t)).state.On source :=
      Lexer.On.apply h fun u hu => Op.record.inj hu ▸ ht
    exact hstate
  | replay r => exact h

theorem On.position (h : s.On source) : s.position.Cuts source := by
  cases s with
  | live lx =>
    show lx.position.Cuts source
    unfold Lexer.position
    split
    · next p hc => exact Lexer.On.shown h |>.place p hc _ p.token.start_mem_places
    · exact (Lexer.On.within h).cuts
  | replay r => exact Replay.On.peek h _ r.peek.start_mem_places

theorem On.recorded (h : s.On source) : ∀ q ∈ placesOf s.recorded, q.Cuts source := by
  cases s with
  | live lx => exact Lexer.On.recorded h
  | replay r => exact List.forall_mem_nil _

end Stream

/-! ## arenas -/

namespace Arena

/-- The tokens of the arena have their places in the source. -/
def On (source : List Char) (a : Arena) : Prop :=
  ∀ k n t, a.node? k = some n → n.token = some t → ∀ q ∈ t.places, q.Cuts source

variable {a : Arena}

theorem on_empty : empty.On source := by
  intro k n t hn
  cases hn

theorem On.setNode (h : a.On source) {index : UInt32} {f : Node → Node}
    (hf : ∀ n t, (f n).token = some t → n.token = some t ∨ ∀ q ∈ t.places, q.Cuts source) :
    (a.setNode index f).On source := by
  intro k n t hn ht
  rw [node?_setNode] at hn
  split at hn
  · obtain ⟨m, hm, rfl⟩ := Option.map_eq_some_iff.1 hn
    obtain hold | hnew := hf m t ht
    · exact h k m t hm hold
    · exact hnew
  · exact h k n t hn ht

theorem On.allocate (h : a.On source) {t : Token} (ht : ∀ q ∈ t.places, q.Cuts source) :
    (a.allocate t).2.On source := by
  unfold Arena.allocate
  split
  · exact On.setNode h fun n u hu => .inr (Option.some.inj hu ▸ ht)
  · intro k n u hn hu
    replace hn : (a.nodes.push ⟨some t, none, 0⟩)[k.toNat]? = some n := hn
    rw [Array.getElem?_push] at hn
    split at hn
    · obtain rfl := Option.some.inj hn
      exact Option.some.inj hu ▸ ht
    · exact h k n u hn hu

theorem On.push (h : a.On source) (l : TokenList) {t : Token} (ht : ∀ q ∈ t.places, q.Cuts source) :
    (a.push l t).Lands source (On source) nowhere := by
  unfold Arena.push
  split
  · dsimp only
    split
    · exact Outcome.lands_ok ((h.allocate ht).setNode fun n u hu => .inl hu) (forall_nowhere _)
    · exact Outcome.lands_ok (h.allocate ht) (forall_nowhere _)
  · exact Outcome.lands_misuse h

theorem On.chain (h : a.On source) (steps : Nat) (head : Option NodeId) :
    ∀ q ∈ placesOf (a.chain steps head), q.Cuts source := by
  fun_induction Arena.chain a steps head with
  | case1 | case2 | case4 => exact List.forall_mem_nil _
  | case3 steps id t next generation hn ih =>
    exact List.forall_mem_append.2 ⟨h _ _ t hn rfl, ih⟩

theorem On.tokens (h : a.On source) (l : TokenList) :
    (a.tokens l).Lands source (On source) placesOf := by
  unfold Arena.tokens
  split
  · exact Outcome.lands_ok h (h.chain _ _)
  · exact Outcome.lands_misuse h

theorem On.releaseChain (h : a.On source) (steps : Nat) (head : Option NodeId) :
    (a.releaseChain steps head).Lands source (On source) nowhere := by
  fun_induction Arena.releaseChain a steps head with
  | case1 | case2 => exact Outcome.lands_ok h (forall_nowhere _)
  | case3 a steps id hid next ih =>
    exact ih (On.setNode h fun n t ht => by cases ht)
  | case4 => exact Outcome.lands_misuse h

end Arena

end HeaderLex
