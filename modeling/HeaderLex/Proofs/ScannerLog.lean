import HeaderLex.Proofs.DirectiveTokens
import HeaderLex.Proofs.ErrorOrigins

/-!
# What the scanner logs

Looking for a token, reading a line, a raw text or a whole source logs the error that it ends with, once,
and no other.  There is one exception.  In an excluded region a literal that lacks its end is prose and
nothing is logged about it.  So where a preprocessor refuses a directive of such a region with an error
of this kind, the look ahead ends with an error that was not logged.

* `Notice`, `notices`       what the log shows of the errors among some events;
* `Outcome.Tells`           the notices of an outcome are those that its result asks for;
* `Skim.Hushes`, `Lexer.HushesAhead`   the error of a directive is hushed on the way to the next token;
* `peek_hushed_iff`         exactly these errors of a look are not logged;
* `Lexer.MayHush`           they can still occur on a lexer, and `MayHush.refused` which these are;
* `Lexer.tells_peek`, `tells_drain`, ...   the operations of the scanner.
-/

namespace HeaderLex

/-! ## notices -/

/-- What the log shows of an error. -/
structure Notice where
  code : Code
  message : String

def Event.notice (e : Event) : Notice := ⟨e.code, e.message⟩

def SourceError.notice (e : SourceError) : Notice := ⟨e.code, Event.bounded e.message⟩

/-- The errors among some events. -/
def notices (events : List Event) : List Notice := (events.filter Event.isError).map Event.notice

@[simp] theorem notices_append (events later : List Event) :
    notices (events ++ later) = notices events ++ notices later := by
  unfold notices
  rw [List.filter_append, List.map_append]

/-- The place of an error does not change its notice. -/
theorem notices_event (e : SourceError) : notices [e.event] = [e.notice] := rfl

theorem notices_report (lx : Lexer) (e : SourceError) : notices [lx.report e] = [e.notice] := by
  unfold Lexer.report
  split <;> rfl

theorem notices_of_quiet {event : Event} (h : event.isError = false) : notices [event] = [] := by
  unfold notices
  rw [List.filter_cons_of_neg (by rw [h]; decide)]
  rfl

/-! ## accounts of outcomes -/

/-- An error stands on the account once, or not at all if it is one of those that are hushed. -/
def Told (hushed : SourceError → Prop) (e : SourceError) (account : List Notice) : Prop :=
  account = [e.notice] ∨ (account = [] ∧ hushed e)

/-- The account stays as it was. -/
def Kept {α : Type} (before : List Notice) (_ : α) (account : List Notice) : Prop := account = before

namespace Outcome

variable {σ τ α β : Type} {hushed : SourceError → Prop}

/-- With the notices `before` on the account, the outcome's own notices add up to what its result asks
for: what is `asked` of a result, and of an error of the source its notice, unless it is hushed.  A
computation that was stopped by a fault has told nothing, and misuse is its caller's. -/
def Tells (hushed : SourceError → Prop) (before : List Notice) (asked : α → List Notice → Prop)
    (o : Outcome σ α) : Prop :=
  match o.result with
  | .ok a => asked a (before ++ notices o.events)
  | .error (.source e) => Told hushed e (before ++ notices o.events)
  | .error (.fault _) => before ++ notices o.events = []
  | .error (.misuse _) => True

/-- An error is told once unless it is hushed, and nothing else is told. -/
abbrev TellsOnce (hushed : SourceError → Prop) (o : Outcome σ α) : Prop := o.Tells hushed [] (Kept [])

/-- The outcome is this error, and the log shows none. -/
def Hushed (o : Outcome σ α) (e : SourceError) : Prop :=
  o.result = .error (.source e) ∧ notices o.events = []

variable {before : List Notice} {asked : α → List Notice → Prop} {o : Outcome σ α}

theorem Tells.congr {o' : Outcome τ α} (h : o.Tells hushed before asked)
    (hresult : o'.result = o.result) (hevents : o'.events = o.events) :
    o'.Tells hushed before asked := by
  unfold Tells at h ⊢
  rw [hresult, hevents]
  exact h

theorem Tells.mono {hushed' : SourceError → Prop} (h : o.Tells hushed before asked)
    (hsub : ∀ e, hushed e → hushed' e) : o.Tells hushed' before asked := by
  unfold Tells at h ⊢
  cases hr : o.result with
  | ok a =>
    rw [hr] at h
    exact h
  | error f =>
    rw [hr] at h
    cases f with
    | source e => exact h.imp id (And.imp id (hsub e))
    | misuse m => trivial
    | fault cause => exact h

theorem Tells.answered {a : α} (h : o.Tells hushed before asked) (hresult : o.result = .ok a) :
    asked a (before ++ notices o.events) := by
  unfold Tells at h
  rw [hresult] at h
  exact h

/-- A result without notices leaves the account as it is. -/
theorem TellsOnce.silent {a : α} (h : o.TellsOnce hushed) (hresult : o.result = .ok a) :
    notices o.events = [] := h.answered hresult

theorem Tells.told {e : SourceError} (h : o.Tells hushed before asked)
    (hresult : o.result = .error (.source e)) : Told hushed e (before ++ notices o.events) := by
  unfold Tells at h
  rw [hresult] at h
  exact h

/-- A failure that is passed on. -/
theorem Tells.failed {f : Failure} (h : o.Tells hushed before asked) (hresult : o.result = .error f)
    (s : τ) {asked' : β → List Notice → Prop} : Tells hushed before asked' ⟨.error f, s, o.events⟩ := by
  unfold Tells at h ⊢
  rw [hresult] at h
  cases f <;> exact h

/-- What was told before comes on top. -/
theorem Tells.after {told : List Notice} {events : List Event} (h : o.Tells hushed before asked)
    (hevents : told ++ notices events = before) : (o.after events).Tells hushed told asked := by
  unfold Tells at h ⊢
  subst hevents
  simpa only [Outcome.after, notices_append, List.append_assoc] using h

theorem tells_refuse (e : SourceError) (s : σ) :
    (Outcome.refuse e s : Outcome σ α).Tells hushed [] asked :=
  .inl (notices_event e)

end Outcome

/-! ## hushed errors -/

theorem Cause.isUnclosedLiteral_of_isOfGap {cause : Cause} (h : cause.isOfGap = true) :
    Lexer.isUnclosedLiteral cause = false := by
  cases cause with
  | unexpectedCommentClose | unterminatedComment => rfl
  | _ => cases h

theorem Cause.isUnclosedLiteral_of_isOfRegion {cause : Cause} (h : cause.isOfRegion = true) :
    Lexer.isUnclosedLiteral cause = false := by
  cases cause with
  | invalidDirective | illegalMacroInConditional | serializeInConditional => rfl
  | _ => cases h

namespace Lexer

variable {lx : Lexer} {e : SourceError} {start : Position} {x y : Skim}

/-- Stepping over an excluded region comes to a directive that is refused for a literal without its
end. -/
def Skim.Hushes (start : Position) (x : Skim) (e : SourceError) : Prop :=
  isUnclosedLiteral e.cause = true ∧ ∃ place rest, Skim.Meets start x place rest ∧
    (place.verdictAt place.cursor.position rest false).1 = .error e

/-- The directive under the cursor opens an excluded region with such a directive. -/
def HushesBehind (lx : Lexer) (unget : Position) (rest : List Char) (e : SourceError) : Prop :=
  ∃ verdict, (lx.verdictAt unget rest true).1 = .ok verdict ∧ verdict.region.isIncluded = false ∧
    Skim.Hushes ((lx.verdictAt unget rest true).2.settle verdict).cursor.position
      ⟨(lx.verdictAt unget rest true).2.settle verdict, verdict.region == .scanned, .start⟩ e

/-- A look ahead comes to such a region, right after the gap or after directives with their regions. -/
inductive HushesAhead : Lexer → SourceError → Prop
  | here {lx : Lexer} {rest : List Char} {e : SourceError} : lx.skipGap.1 = none →
      lx.ahead = some rest → lx.skipGap.2.HushesBehind lx.cursor.position rest e → HushesAhead lx e
  | later {lx : Lexer} {rest : List Char} {e : SourceError} : lx.skipGap.1 = none →
      lx.ahead = some rest →
      (lx.skipGap.2.handleDirective lx.cursor.position rest).result = .ok () →
      HushesAhead (lx.skipGap.2.handleDirective lx.cursor.position rest).state e → HushesAhead lx e

/-- The next look hushes the error. -/
def Hushes (lx : Lexer) (e : SourceError) : Prop := lx.current = none ∧ lx.HushesAhead e

/-- After some operations a look hushes the error. -/
def MayHush (lx : Lexer) (e : SourceError) : Prop := ∃ ops, (lx.run ops).Hushes e

theorem MayHush.of_run {ops : List Op} (h : (lx.run ops).MayHush e) : lx.MayHush e := by
  obtain ⟨ops', h⟩ := h
  refine ⟨ops ++ ops', ?_⟩
  rwa [run, List.foldl_append]

/-! ## excluded regions -/

theorem tells_refuse {hushed : SourceError → Prop} {α : Type} {asked : α → List Notice → Prop}
    (lx : Lexer) (e : SourceError) : (lx.refuse e : Outcome Lexer α).Tells hushed [] asked :=
  .inl (notices_report lx e)

theorem notices_refuseInside {α : Type} (h : isUnclosedLiteral e.cause = false) :
    notices (lx.refuseInside e : Outcome Lexer α).events = [e.notice] := by
  unfold refuseInside
  dsimp only
  rw [if_neg (by rw [h]; decide)]
  exact notices_report lx e

theorem hushed_refuseInside {α : Type} (h : isUnclosedLiteral e.cause = true) :
    (lx.refuseInside e : Outcome Lexer α).Hushed e := by
  unfold refuseInside
  rw [if_pos h]
  exact ⟨rfl, rfl⟩

/-- A step that ends a region with an error without its end ends it at a directive. -/
theorem Skim.hushes_step {lx : Lexer} (h : x.step start = .inl (lx.refuseInside e))
    (he : isUnclosedLiteral e.cause = true) : Skim.Hushes start x e := by
  cases hg : x.lexer.skipGap.1 with
  | some e' =>
    rw [Skim.step_broken hg] at h
    cases h
    rw [Cause.isUnclosedLiteral_of_isOfGap (skipGap_error hg).1] at he
    cases he
  | none =>
    cases hd : directiveAt? x.lexer.skipGap.2.cursor with
    | some rest =>
      cases hv : (x.lexer.skipGap.2.verdictAt x.lexer.cursor.position rest false).1 with
      | error e' =>
        rw [Skim.step_directive_error hg hd hv] at h
        cases h
        refine ⟨he, _, rest, .here hg hd, ?_⟩
        rwa [verdictAt_unget _ _ x.lexer.cursor.position]
      | ok verdict =>
        rw [Skim.step_directive_ok hg hd hv] at h
        unfold Skim.turn at h
        split at h <;> cases h
    | none =>
      cases ht : (x.lexer.skipGap.2.lexAt x.lexer.cursor.position).1 with
      | error e' =>
        rw [Skim.step_lexeme_error hg hd ht] at h
        split at h
        · cases h
        · next hprose =>
          cases h
          exact absurd he hprose
      | ok t =>
        cases hend : t.isEnd with
        | true =>
          rw [Skim.step_end hg hd ht hend] at h
          cases h
          cases he
        | false =>
          rw [Skim.step_lexeme_ok hg hd ht hend] at h
          unfold Skim.look at h
          split at h
          · split at h
            · next e' _ hcheck =>
              cases h
              have hregion := (SerializeState.check_error (congrArg Prod.fst hcheck)).1
              rw [Cause.isUnclosedLiteral_of_isOfRegion hregion] at he
              cases he
            · cases h
          · cases h

theorem tells_scanExcluded (start : Position) (x : Skim) :
    (scanExcluded start x).TellsOnce (Skim.Hushes start x) := by
  fun_induction scanExcluded start x with
  | case1 x o ho =>
    obtain ⟨lx, e, rfl⟩ | ⟨lx, rfl⟩ := Skim.step_inl ho
    · cases he : isUnclosedLiteral e.cause with
      | true => exact .inr ⟨(hushed_refuseInside he).2, Skim.hushes_step ho he⟩
      | false => exact .inl (notices_refuseInside he)
    · rfl
  | case2 x y hy ih =>
    apply ih.mono
    rintro e ⟨he, place, rest, hmeets, hrefused⟩
    exact ⟨he, place, rest, .later hy hmeets, hrefused⟩

theorem Skim.Hushes.hushed (h : Skim.Hushes start x e) : (scanExcluded start x).Hushed e := by
  obtain ⟨he, place, rest, hmeets, hrefused⟩ := h
  induction hmeets with
  | @here x rest hg hd =>
    rw [verdictAt_unget _ _ x.lexer.cursor.position] at hrefused
    rw [scanExcluded_of_inl (Skim.step_directive_error hg hd hrefused)]
    exact hushed_refuseInside he
  | later hstep _ ih =>
    rw [scanExcluded_of_inr hstep]
    exact ih hrefused

theorem tells_skipExcluded (lx : Lexer) (region : Region) (start : Position) :
    (lx.skipExcluded region start).TellsOnce
      (Skim.Hushes lx.cursor.position ⟨lx, region == .scanned, .start⟩) := by
  have hscan := tells_scanExcluded lx.cursor.position ⟨lx, region == .scanned, .start⟩
  unfold skipExcluded
  dsimp only
  cases hr : (scanExcluded lx.cursor.position ⟨lx, region == .scanned, .start⟩).result with
  | ok u =>
    dsimp only
    show notices (_ ++ _) = []
    rw [notices_append, hscan.silent hr]
    split <;> rfl
  | error f =>
    dsimp only
    rw [List.append_nil]
    exact hscan.failed hr _

theorem Skim.Hushes.hushed_skipExcluded {region : Region} {start : Position}
    (h : Skim.Hushes lx.cursor.position ⟨lx, region == .scanned, .start⟩ e) :
    (lx.skipExcluded region start).Hushed e := by
  obtain ⟨hresult, hevents⟩ := h.hushed
  refine ⟨hresult, ?_⟩
  unfold skipExcluded
  dsimp only
  rw [hresult, List.append_nil]
  exact hevents

theorem tells_handleDirective (lx : Lexer) (unget : Position) (rest : List Char) :
    (lx.handleDirective unget rest).TellsOnce (lx.HushesBehind unget rest) := by
  rw [handleDirective_eq]
  split
  · exact tells_refuse _ _
  · next verdict hv =>
    dsimp only
    split
    · rfl
    · next hexcluded =>
      apply (tells_skipExcluded _ _ _).mono
      exact fun e he => ⟨verdict, hv, eq_false_of_ne_true hexcluded, he⟩

theorem HushesBehind.hushed {unget : Position} {rest : List Char} (h : lx.HushesBehind unget rest e) :
    (lx.handleDirective unget rest).Hushed e := by
  obtain ⟨verdict, hv, hexcluded, h⟩ := h
  rw [handleDirective_eq, hv]
  dsimp only
  rw [hexcluded, if_neg (by decide)]
  exact h.hushed_skipExcluded

/-! ## looks ahead -/

theorem tells_lexToken (lx : Lexer) : lx.lexToken.TellsOnce lx.HushesAhead := by
  induction lx using lexToken_induction with
  | broken lx e hg => exact tells_refuse _ e
  | unlexed lx e hg ha ht => exact tells_refuse _ e
  | lexeme lx t hg ha ht => rfl
  | refused lx rest f hg ha ho =>
    exact ((tells_handleDirective _ _ rest).mono fun e he => .here hg ha he).failed ho _
  | directive lx rest hg ha ho ih =>
    exact (ih.mono fun e he => .later hg ha ho he).after ((tells_handleDirective _ _ rest).silent ho)

theorem HushesAhead.hushed (h : lx.HushesAhead e) : lx.lexToken.Hushed e := by
  induction h with
  | @here lx rest e hg ha h =>
    rw [lexToken_directive_error hg ha h.hushed.1]
    exact ⟨rfl, h.hushed.2⟩
  | @later lx rest e hg ha ho _ ih =>
    rw [lexToken_directive_ok hg ha ho]
    refine ⟨ih.1, ?_⟩
    show notices (_ ++ _) = []
    rw [notices_append, (tells_handleDirective _ _ rest).silent ho, ih.2]
    rfl

theorem tells_peek (lx : Lexer) : lx.peek.TellsOnce lx.Hushes := by
  cases hc : lx.current with
  | some p =>
    rw [peek_of_current hc]
    rfl
  | none =>
    have hlook : lx.lexToken.TellsOnce lx.Hushes := lx.tells_lexToken.mono fun e he => ⟨hc, he⟩
    cases hr : lx.lexToken.result with
    | ok p =>
      rw [peek_of_lexToken hc hr]
      exact hlook.silent hr
    | error f =>
      rw [peek_of_error hc hr]
      exact hlook.failed hr _

/-- The errors of a look that are not logged are the hushed ones. -/
theorem peek_hushed_iff : lx.peek.Hushed e ↔ lx.Hushes e := by
  constructor
  · rintro ⟨hresult, hevents⟩
    obtain hnotice | ⟨-, hhushes⟩ := lx.tells_peek.told hresult
    · rw [hevents] at hnotice
      cases hnotice
    · exact hhushes
  · rintro ⟨hc, hahead⟩
    obtain ⟨hresult, hevents⟩ := hahead.hushed
    rw [peek_of_error hc hresult]
    exact ⟨rfl, hevents⟩

/-! ## only scripts hush -/

theorem Skim.Meets.answers {place : Lexer} {rest : List Char} (h : Skim.Meets start x place rest) :
    place.answers ⊆ x.lexer.answers := by
  induction h with
  | here => exact List.Subset.refl _
  | @later x y place rest hstep _ ih =>
    have hkept := (stable_answers x.lexer.answers).step start (List.Subset.refl x.lexer.answers)
    rw [hstep] at hkept
    exact List.Subset.trans ih hkept

theorem Skim.Hushes.refused (h : Skim.Hushes start x e) :
    isUnclosedLiteral e.cause = true ∧ ∃ place, MayRefuse x.lexer.answers place e := by
  obtain ⟨he, place, rest, hmeets, hrefused⟩ := h
  obtain ⟨hregion, -⟩ | hmay := verdictAt_error hrefused
  · rw [Cause.isUnclosedLiteral_of_isOfRegion hregion] at he
    cases he
  · exact ⟨he, _, hmay.mono (Skim.Meets.answers hmeets)⟩

theorem HushesAhead.refused (h : lx.HushesAhead e) :
    isUnclosedLiteral e.cause = true ∧ ∃ place, MayRefuse lx.answers place e := by
  induction h with
  | @here lx rest e hg ha h =>
    obtain ⟨verdict, -, -, h⟩ := h
    obtain ⟨he, place, hmay⟩ := h.refused
    exact ⟨he, place, hmay.mono (lx.skipGap.2.answers_verdictAt _ rest true)⟩
  | @later lx rest e hg ha ho _ ih =>
    obtain ⟨he, place, hmay⟩ := ih
    have hgap : lx.skipGap.2.answers ⊆ lx.answers := List.Subset.refl _
    have hkept := (stable_answers lx.answers).handleDirective hgap lx.cursor.position
      (Stable.directiveAt?_of_ahead ha)
    exact ⟨he, place, hmay.mono hkept⟩

/-- What is hushed is a literal without its end, and an answer of a script. -/
theorem MayHush.refused (h : lx.MayHush e) :
    isUnclosedLiteral e.cause = true ∧ ∃ place, MayRefuse lx.answers place e := by
  obtain ⟨ops, -, hahead⟩ := h
  obtain ⟨he, place, hmay⟩ := hahead.refused
  exact ⟨he, place, hmay.mono (lx.answers_run ops)⟩

/-! ## lines, texts and whole sources -/

theorem tells_line {hushed : SourceError → Prop} (lx : Lexer) : lx.line.TellsOnce hushed := by
  unfold line
  dsimp only
  split <;> rfl

theorem tells_rawText {hushed : SourceError → Prop} (lx : Lexer) (terminator : Char)
    (options : RawTextOptions) : (lx.rawText terminator options).TellsOnce hushed := by
  unfold rawText
  dsimp only
  split
  · exact tells_refuse _ _
  · split
    · exact tells_refuse _ _
    · split
      · exact tells_refuse _ _
      · rfl

theorem hushes_mayHush (h : lx.Hushes e) : lx.MayHush e := ⟨[], h⟩

theorem tells_drain (lx : Lexer) : lx.drain.TellsOnce lx.MayHush := by
  fun_induction drain lx with
  | case1 lx o f hf => exact (lx.tells_peek.mono fun e => hushes_mayHush).failed hf _
  | case2 lx o t ht hend => exact lx.tells_peek.silent ht
  | case3 lx o t ht hend r ih =>
    have hnext : (lx.run [.next]) = o.state.consumed t := by
      show lx.next.state = _
      rw [next_of_ok ht]
    have hlook : notices o.events = [] := lx.tells_peek.silent ht
    have hrest : r.TellsOnce lx.MayHush := by
      apply ih.mono
      intro e he
      rw [← hnext] at he
      exact he.of_run
    have hall := hrest.after (show [] ++ notices o.events = [] from hlook)
    cases hr : r.result with
    | ok ts => exact hall.answered hr
    | error f => exact hall.failed hr _

/-- The events around a whole reading are no errors. -/
theorem tells_tokenizeAll (lx : Lexer) : lx.tokenizeAll.TellsOnce lx.MayHush := by
  have hdrain := lx.tells_drain
  have hstart : [] ++ notices [lx.startEvent] = [] := notices_of_quiet rfl
  unfold tokenizeAll
  dsimp only
  cases hr : lx.drain.result with
  | ok ts =>
    show notices ([lx.startEvent] ++ lx.drain.events ++ [_]) = []
    rw [notices_append, notices_append, hdrain.silent hr]
    rfl
  | error f =>
    dsimp only
    rw [List.append_nil]
    exact (hdrain.failed hr lx.drain.state).after hstart

end Lexer

end HeaderLex
