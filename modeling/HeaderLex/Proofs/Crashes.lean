import HeaderLex.Proofs.ByteLexer
import HeaderLex.Proofs.Comments

/-!
# Calls that keep the rules do not crash

The owner of a lexer calls its operations in any order, goes on after failures and may attach another
preprocessor at any time.  The rules of use can be checked from the calls and from which of them
succeeded.  While they are kept no call is misused, and the readers on bytes never fail: no slice is
out of range, reversed or inside a character, and the line number stays in its word.  The count of line
ends in a comment buffer has no bound here.

* `Outcome.crashed`      something other than the source failed;
* `grounded_apply`, `grounded_run`   every operation ends at a place of the source;
* `Usage`                the rules of use;
* `Lexer.trace`, `Bytewise.trace`   the outcomes of a row of calls, by characters and by bytes;
* `InUse.call`           one call that keeps the rules;
* `calls_never_crash`    all rows of calls.
-/

namespace HeaderLex

open Text

/-! ## failures of the source -/

/-- Nobody can go on after such a failure. -/
def Failure.isFatal : Failure → Bool
  | .source _ => false
  | .misuse _ | .fault _ => true

def Outcome.crashed {σ α : Type} (o : Outcome σ α) : Bool :=
  match o.result with
  | .ok _ => false
  | .error f => f.isFatal

namespace Lexer

open Bytewise (Anchored Grounded)

variable {source : List Char} {lx : Lexer}

theorem crashed_answered {α : Type} (f : α → Answer) (o : Outcome Lexer α) :
    (answered f o).crashed = o.crashed := by
  unfold answered Outcome.crashed
  cases o.result with
  | ok a => rfl
  | error e => rfl

theorem crashed_scanExcluded (start : Position) (x : Skim) :
    (scanExcluded start x).crashed = false := by
  fun_induction scanExcluded start x with
  | case1 x o ho => obtain ⟨lx, e, rfl⟩ | ⟨lx, rfl⟩ := Skim.step_inl ho <;> rfl
  | case2 x y hy ih => exact ih

theorem crashed_handleDirective (lx : Lexer) (unget : Position) (rest : List Char) :
    (lx.handleDirective unget rest).crashed = false := by
  rw [handleDirective_eq]
  split
  · rfl
  · dsimp only
    split
    · rfl
    · exact crashed_scanExcluded _ _

theorem crashed_lexToken (lx : Lexer) : lx.lexToken.crashed = false := by
  induction lx using lexToken_induction with
  | broken lx e hg => rfl
  | unlexed lx e hg ha ht => rfl
  | lexeme lx t hg ha ht => rfl
  | refused lx rest f hg ha ho =>
    have hdirective := lx.skipGap.2.crashed_handleDirective lx.cursor.position rest
    unfold Outcome.crashed at hdirective ⊢
    rw [ho] at hdirective
    exact hdirective
  | directive lx rest hg ha ho ih => exact ih

theorem crashed_peek (lx : Lexer) : lx.peek.crashed = false := by
  cases hc : lx.current with
  | some p =>
    rw [peek_of_current hc]
    rfl
  | none =>
    have htoken := lx.crashed_lexToken
    unfold Outcome.crashed at htoken ⊢
    cases hr : lx.lexToken.result with
    | ok p =>
      rw [peek_of_lexToken hc hr]
    | error f =>
      rw [hr] at htoken
      rw [peek_of_error hc hr]
      exact htoken

theorem crashed_rawText (lx : Lexer) (terminator : Char) (options : RawTextOptions) :
    (lx.rawText terminator options).crashed = false := by
  unfold rawText
  dsimp only
  split
  · rfl
  · split
    · rfl
    · split <;> rfl

/-! ## places -/

theorem grounded_bare {c : Cursor} (h : c.Within source) : Grounded source c none :=
  ⟨h, fun _ hq => absurd hq (Option.not_mem_none _)⟩

theorem anchored_lexToken {p : Peeked} (h : lx.cursor.Within source)
    (hok : lx.lexToken.result = .ok p) : Anchored source p := by
  induction hok using found_induction with
  | lexeme lx _ _ _ horigin hat _ =>
    have hunget : p.token.unget = lx.cursor.position := by
      obtain ⟨-, ht, -⟩ | ⟨c, cs, l, -, -, ht, -⟩ := lexAt_ok hat <;> rw [ht]
    exact ⟨horigin.symm ▸ h, by rw [horigin, hunget]⟩
  | directive lx rest _ _ _ ha _ _ ih =>
    exact ih ((stable_within source).handleDirective (within_skipGap h) _
      (Stable.directiveAt?_of_ahead ha))

theorem grounded_peek (h : Grounded source lx.cursor lx.current) :
    Grounded source lx.peek.state.cursor lx.peek.state.current := by
  cases hc : lx.current with
  | some p =>
    rw [peek_of_current hc]
    exact h
  | none =>
    have hwithin := (stable_within source).lexToken (within_skipGap h.1)
    cases hr : lx.lexToken.result with
    | ok p =>
      rw [peek_of_lexToken hc hr]
      refine ⟨hwithin, ?_⟩
      rintro q ⟨⟩
      exact anchored_lexToken h.1 hr
    | error f =>
      rw [peek_of_error hc hr]
      show Grounded source _ lx.lexToken.state.current
      rw [current_lexToken, hc]
      exact grounded_bare hwithin

theorem grounded_line (h : Grounded source lx.cursor lx.current) :
    Grounded source lx.line.state.cursor lx.line.state.current := by
  obtain ⟨blanks, cs, text, rest, lines, t, hblanks, -, htext, hlines, -, -, -, -, hcursor, hcurrent, -⟩ :=
    lx.line_cases
  rw [hcurrent, hcursor]
  exact grounded_bare ((h.unget.advance hblanks (Nat.zero_le _)).advance htext (Nat.le_of_eq hlines.symm))

theorem grounded_rawText (h : Grounded source lx.cursor lx.current) (terminator : Char)
    (options : RawTextOptions) : Grounded source (lx.rawText terminator options).state.cursor
      (lx.rawText terminator options).state.current := by
  have hgap : lx.unget.skipGap.2.cursor.Within source := within_skipGap h.unget
  have hcurrent : (lx.rawText terminator options).state.current = none := by
    obtain ⟨cursor, hstate⟩ := lx.rawText_state terminator options
    rw [hstate]
    exact lx.current_unget
  rw [hcurrent]
  unfold Lexer.rawText
  dsimp only
  split
  · exact grounded_bare hgap
  · split
    · exact grounded_bare hgap
    · next raw hscan =>
      split
      · exact grounded_bare hgap
      · exact grounded_bare (hgap.advance (RawText.scan_cuts hscan).taken.1 (Nat.zero_le _))

theorem grounded_apply (h : lx.Everywhere (Grounded source)) (op : Op) :
    (lx.apply op).state.Everywhere (Grounded source) := by
  have hplace := h.place
  apply h.apply
  intro hop
  have hsame : (lx.apply op).state.cursor = lx.cursor → (lx.apply op).state.current = lx.current →
      Grounded source (lx.apply op).state.cursor (lx.apply op).state.current := by
    intro hcursor hcurrent
    rw [hcursor, hcurrent]
    exact hplace
  cases op with
  | peek => exact grounded_peek hplace
  | atEnd => exact grounded_peek hplace
  | next =>
    obtain ⟨t, -, -, -, hs | hs⟩ | ⟨f, -, -, hs⟩ := @apply_look lx .next rfl
    · rw [hs]
      exact grounded_peek hplace
    · rw [hs]
      exact grounded_bare (grounded_peek hplace).1
    · rw [hs]
      exact grounded_peek hplace
  | consume =>
    show Grounded source lx.consume.state.cursor lx.consume.state.current
    unfold consume
    split
    · exact grounded_bare hplace.1
    · exact hplace
  | line => exact grounded_line hplace
  | rawText terminator options => exact grounded_rawText hplace terminator options
  | restore => exact absurd rfl hop
  | save => exact hsame lx.save_place.1 lx.save_place.2.1
  | abandon => exact hsame lx.abandon_place.1 lx.abandon_place.2.1
  | _ => exact hsame (lx.quiet_apply rfl).1 (lx.quiet_apply rfl).2.1

/-- A look changes nothing but the current token of what only the caller changes. -/
theorem ledger_peek (lx : Lexer) :
    lx.peek.state.ledger = { lx.ledger with current := lx.peek.state.current } := by
  have htoken := ledger_lexToken lx
  cases hc : lx.current with
  | some p =>
    rw [peek_of_current hc]
    rfl
  | none =>
    cases hr : lx.lexToken.result with
    | ok p =>
      rw [peek_of_lexToken hc hr]
      exact congrArg (fun l : Ledger => { l with current := some p }) htoken
    | error f =>
      rw [peek_of_error hc hr]
      exact congrArg (fun l : Ledger => { l with current := lx.lexToken.state.current }) htoken

theorem source_peek (lx : Lexer) : lx.peek.state.source = lx.source :=
  congrArg Ledger.source lx.ledger_peek

/-- No operation changes the source. -/
theorem source_apply (lx : Lexer) (op : Op) : (lx.apply op).state.source = lx.source := by
  cases op with
  | peek => exact lx.source_peek
  | atEnd => exact lx.source_peek
  | next =>
    obtain ⟨t, -, -, -, hs | hs⟩ | ⟨f, -, -, hs⟩ := @apply_look lx .next rfl <;>
    · rw [hs]
      exact lx.source_peek
  | line =>
    obtain ⟨cursor, comments, hs⟩ := lx.line_state
    show lx.line.state.source = lx.source
    rw [hs]
    exact Bytewise.source_unget lx
  | rawText terminator options =>
    obtain ⟨cursor, hs⟩ := lx.rawText_state terminator options
    show (lx.rawText terminator options).state.source = lx.source
    rw [hs]
    exact Bytewise.source_unget lx
  | clearComments | disableComments | commitComments | stopRecording => rfl
  | consume =>
    show lx.consume.state.source = _
    unfold consume
    split <;> rfl
  | enableComments =>
    show lx.enableComments.state.source = _
    unfold enableComments
    split <;> rfl
  | save =>
    show lx.save.state.source = _
    unfold save
    split <;> rfl
  | restore =>
    show lx.restore.state.source = _
    unfold restore
    split <;> rfl
  | abandon =>
    show lx.abandon.state.source = _
    unfold abandon
    split <;> rfl
  | startRecording =>
    show lx.startRecording.state.source = _
    unfold startRecording
    split <;> rfl
  | record t =>
    show (lx.record t).state.source = _
    unfold record
    split <;> rfl

/-- Whatever was done with a lexer, its source is the same. -/
theorem source_run (lx : Lexer) (ops : List Op) : (lx.run ops).source = lx.source :=
  run_invariant (P := fun lx' => lx'.source = lx.source) (fun lx' op h => (lx'.source_apply op).trans h)
    rfl ops

/-- Whatever was done with a lexer, it is in its source, at its place and at all places that it can go
back to. -/
theorem grounded_run (source : String) (preferences : LexicalPreferences) (p : Option Preprocessor)
    (ops : List Op) : (((ofSource source preferences).withPreprocessor p).run ops).Everywhere
      (Grounded source.toList) :=
  Everywhere.run (fun _ op h => grounded_apply h op) (grounded_bare (.ofText _)) rfl ops

end Lexer

/-! ## the rules of use -/

/-- What the owner of a lexer can do with it. -/
inductive Call where
  | op (op : Op)
  | attach (p : Option Preprocessor)

/-- What a caller knows about the lexer from its own calls. -/
structure Usage where
  /-- A look succeeded and its token was neither consumed nor put back. -/
  looked : Bool
  /-- The same for every checkpoint, newest first. -/
  saved : List Bool
  commentsOff : Nat
  recording : Bool
deriving DecidableEq, Repr

namespace Usage

def start : Usage := ⟨false, [], 0, false⟩

/-- The call keeps the rules. -/
def allows (u : Usage) : Call → Bool
  | .op .consume => u.looked
  | .op .save => u.saved.length < maxCheckpoints
  | .op .restore | .op .abandon => !u.saved.isEmpty
  | .op .enableComments => 0 < u.commentsOff
  | .op .startRecording => !u.recording
  | .op (.record _) => u.recording
  | _ => true

/-- What the caller knows after a call that succeeded or failed. -/
def after (u : Usage) (succeeded : Bool) : Call → Usage
  | .op .peek | .op .atEnd => { u with looked := succeeded }
  | .op .consume | .op .next | .op .line | .op (.rawText ..) => { u with looked := false }
  | .op .save => { u with saved := u.looked :: u.saved }
  | .op .restore => { u with looked := u.saved.headD false, saved := u.saved.tail }
  | .op .abandon => { u with saved := u.saved.tail }
  | .op .disableComments => { u with commentsOff := u.commentsOff + 1 }
  | .op .enableComments => { u with commentsOff := u.commentsOff - 1 }
  | .op .startRecording => { u with recording := true }
  | .op .stopRecording => { u with recording := false }
  | _ => u

end Usage

namespace Lexer

def call (lx : Lexer) : Call → Outcome Lexer Answer
  | .op op => lx.apply op
  | .attach p => .ok .done (lx.withPreprocessor p)

/-- All calls of a row keep the rules. -/
def keepsRules (lx : Lexer) (u : Usage) : List Call → Bool
  | [] => true
  | call :: calls => u.allows call &&
    (lx.call call).state.keepsRules (u.after (lx.call call).result.isOk call) calls

/-- The outcomes of a row of calls. -/
def trace (lx : Lexer) : List Call → List (Outcome Lexer Answer)
  | [] => []
  | call :: calls => lx.call call :: (lx.call call).state.trace calls

/-- The usage that led to the lexer. -/
def usage (lx : Lexer) : Usage :=
  ⟨lx.current.isSome, lx.saved.map fun s => s.current.isSome, lx.commentsOff, lx.recording⟩

variable {lx : Lexer}

theorem isOk_answered {α : Type} (f : α → Answer) (o : Outcome Lexer α) :
    (answered f o).result.isOk = o.result.isOk := by
  unfold answered
  cases o.result <;> rfl

theorem looked_peek (lx : Lexer) : lx.peek.state.current.isSome = lx.peek.result.isOk := by
  cases hr : lx.peek.result with
  | ok t =>
    obtain ⟨p, hp, -⟩ := current_peek hr
    rw [hp]
    rfl
  | error f =>
    cases hc : lx.current with
    | some p =>
      rw [peek_of_current hc] at hr
      cases hr
    | none =>
      cases hl : lx.lexToken.result with
      | ok p =>
        rw [peek_of_lexToken hc hl] at hr
        cases hr
      | error g =>
        rw [peek_of_error hc hl]
        show lx.lexToken.state.current.isSome = _
        rw [current_lexToken, hc]
        rfl

theorem usage_peek (lx : Lexer) :
    lx.peek.state.usage = { lx.usage with looked := lx.peek.result.isOk } := by
  have hledger := lx.ledger_peek
  have hsaved : lx.peek.state.saved = lx.saved := congrArg Ledger.saved hledger
  have hoff : lx.peek.state.commentsOff = lx.commentsOff := congrArg Ledger.commentsOff hledger
  have hrecording : lx.peek.state.recording = lx.recording := congrArg Ledger.recording hledger
  unfold usage
  rw [hsaved, hoff, hrecording, lx.looked_peek]

theorem usage_unget (lx : Lexer) : lx.unget.usage = { lx.usage with looked := false } := by
  unfold unget
  split
  · rfl
  · next hc =>
    unfold usage
    rw [hc]
    rfl

theorem checkpoint_of_usage (h : (!lx.usage.saved.isEmpty) = true) : ∃ s saved, lx.saved = s :: saved := by
  apply List.exists_cons_of_ne_nil
  intro hnil
  unfold usage at h
  rw [hnil] at h
  cases h

/-- What is asked after a look does not matter. -/
theorem usage_look (lx : Lexer) (f : Token → Answer) :
    (answered f lx.peek).state.usage = { lx.usage with looked := (answered f lx.peek).result.isOk } ∧
      (answered f lx.peek).crashed = false := by
  rw [isOk_answered, crashed_answered]
  exact ⟨lx.usage_peek, lx.crashed_peek⟩

theorem answered_atEnd (lx : Lexer) :
    answered .flag lx.atEnd = answered (fun t => .flag t.isEnd) lx.peek := by
  unfold answered atEnd
  dsimp only
  cases lx.peek.result <;> rfl

theorem usage_next (lx : Lexer) :
    lx.next.state.usage = { lx.usage with looked := false } ∧ lx.next.crashed = false := by
  have hpeek := lx.usage_peek
  have hcrashed := lx.crashed_peek
  unfold Outcome.crashed at hcrashed
  cases hr : lx.peek.result with
  | ok t =>
    rw [next_of_ok hr]
    exact ⟨congrArg (fun u : Usage => { u with looked := false }) hpeek, rfl⟩
  | error f =>
    rw [hr] at hcrashed hpeek
    rw [next_of_error hr]
    exact ⟨hpeek, hcrashed⟩

theorem usage_line (lx : Lexer) :
    lx.line.state.usage = { lx.usage with looked := false } ∧ lx.line.crashed = false := by
  obtain ⟨cursor, comments, hstate⟩ := lx.line_state
  obtain ⟨-, -, -, -, -, t, -, -, -, -, hresult, -⟩ := lx.line_cases
  constructor
  · rw [hstate]
    exact lx.usage_unget
  · unfold Outcome.crashed
    rw [hresult]

theorem usage_rawText (lx : Lexer) (terminator : Char) (options : RawTextOptions) :
    (lx.rawText terminator options).state.usage = { lx.usage with looked := false } ∧
      (lx.rawText terminator options).crashed = false := by
  obtain ⟨cursor, hstate⟩ := lx.rawText_state terminator options
  refine ⟨?_, lx.crashed_rawText terminator options⟩
  rw [hstate]
  exact lx.usage_unget

/-- A call that keeps the rules does not crash, and the caller knows what it did. -/
theorem usage_call {call : Call} (h : lx.usage.allows call = true) :
    (lx.call call).state.usage = lx.usage.after (lx.call call).result.isOk call ∧
      (lx.call call).crashed = false := by
  cases call with
  | attach p => exact ⟨rfl, rfl⟩
  | op op =>
    cases op with
    | peek => exact lx.usage_look .token
    | atEnd =>
      have hlook := lx.usage_look fun t => .flag t.isEnd
      rw [← lx.answered_atEnd] at hlook
      exact hlook
    | next => exact ⟨lx.usage_next.1, (crashed_answered _ _).trans lx.usage_next.2⟩
    | line => exact ⟨lx.usage_line.1, (crashed_answered _ _).trans lx.usage_line.2⟩
    | rawText terminator options =>
      obtain ⟨husage, hcrashed⟩ := lx.usage_rawText terminator options
      exact ⟨husage, (crashed_answered _ _).trans hcrashed⟩
    | consume =>
      obtain ⟨p, hp⟩ := Option.isSome_iff_exists.1 h
      show lx.consume.state.usage = _ ∧ (answered _ lx.consume).crashed = false
      unfold consume
      rw [hp]
      exact ⟨rfl, rfl⟩
    | enableComments =>
      have hoff : 0 < lx.commentsOff := of_decide_eq_true h
      show lx.enableComments.state.usage = _ ∧ (answered _ lx.enableComments).crashed = false
      unfold enableComments
      rw [if_neg (Nat.ne_of_gt hoff)]
      exact ⟨rfl, rfl⟩
    | save =>
      have hfree : lx.saved.length < maxCheckpoints := by
        rw [← List.length_map]
        exact of_decide_eq_true h
      show lx.save.state.usage = _ ∧ (answered _ lx.save).crashed = false
      unfold save
      rw [if_neg (Nat.not_le.2 hfree)]
      exact ⟨rfl, rfl⟩
    | restore =>
      obtain ⟨s, saved, hsaved⟩ := checkpoint_of_usage h
      show lx.restore.state.usage = { lx.usage with
          looked := lx.usage.saved.headD false
          saved := lx.usage.saved.tail } ∧ (answered _ lx.restore).crashed = false
      unfold restore usage
      rw [hsaved]
      exact ⟨rfl, rfl⟩
    | abandon =>
      obtain ⟨s, saved, hsaved⟩ := checkpoint_of_usage h
      show lx.abandon.state.usage = { lx.usage with saved := lx.usage.saved.tail } ∧
        (answered _ lx.abandon).crashed = false
      unfold abandon usage
      rw [hsaved]
      exact ⟨rfl, rfl⟩
    | startRecording =>
      have hoff : lx.recording = false := (Bool.not_eq_true' lx.recording).mp h
      show lx.startRecording.state.usage = _ ∧ (answered _ lx.startRecording).crashed = false
      unfold startRecording
      rw [hoff]
      exact ⟨rfl, rfl⟩
    | record t =>
      have hon : lx.recording = true := h
      show (lx.record t).state.usage = _ ∧ (answered _ (lx.record t)).crashed = false
      unfold record
      rw [if_pos hon]
      exact ⟨rfl, rfl⟩
    | clearComments | disableComments | commitComments | stopRecording => exact ⟨rfl, rfl⟩

end Lexer

/-! ## rows of calls -/

namespace Bytewise

def call (lx : Lexer) : Call → Except Fault (Outcome Lexer Answer)
  | .op op => apply lx op
  | .attach p => .ok (.ok .done (lx.withPreprocessor p))

/-- The outcomes of a row of calls, by bytes. -/
def trace (lx : Lexer) : List Call → Except Fault (List (Outcome Lexer Answer))
  | [] => .ok []
  | c :: calls => do
    let o ← call lx c
    return o :: (← trace o.state calls)

end Bytewise

/-- The lexer after some usage. -/
structure InUse (text : List Char) (u : Usage) (lx : Lexer) : Prop where
  source : lx.source = text
  usage : lx.usage = u
  places : lx.Everywhere (Bytewise.Grounded text)
  buffers : lx.Throughout fun _ _ b => b.Sound

/-- A place at which nothing can be out of range: between two characters of the source, on a line whose
number fits into its word, with a buffer that shows no more comments than it has. -/
structure InRange (source : List Char) (p : Position) (b : CommentBuffer) : Prop where
  offset : p.offset ≤ byteLength source
  boundary : (cutAt? p.offset source).isSome
  line : p.line < Position.lineBound
  comments : b.committedCount ≤ b.comments.length

/-- The lexer still has its source, and is nowhere out of range: neither at its place nor at any
place that it can go back to. -/
structure Intact (text : List Char) (lx : Lexer) : Prop where
  source : lx.source = text
  places : lx.Throughout fun c _ b => InRange text c.position b

variable {source : List Char} {u : Usage} {lx : Lexer}

theorem inUse_ofSource (source : String) (preferences : LexicalPreferences) (p : Option Preprocessor) :
    InUse source.toList .start ((Lexer.ofSource source preferences).withPreprocessor p) where
  source := rfl
  usage := rfl
  places := ⟨Lexer.grounded_bare (.ofText _), fun _ hs => absurd hs List.not_mem_nil⟩
  buffers := ⟨CommentBuffer.sound_empty, fun _ hs => absurd hs List.not_mem_nil⟩

namespace InUse

/-- By bytes, a call never fails. -/
theorem bytewise (h : InUse source u lx) (hfew : Bytewise.FewLines source) (call : Call) :
    Bytewise.call lx call = .ok (lx.call call) := by
  obtain ⟨rfl, -, hplaces, -⟩ := h
  cases call with
  | attach p => rfl
  | op op => exact Bytewise.apply_eq hfew hplaces op

/-- A call that keeps the rules. -/
theorem call (h : InUse source u lx) {c : Call} (hallowed : u.allows c = true) :
    (lx.call c).crashed = false ∧
      InUse source (u.after (lx.call c).result.isOk c) (lx.call c).state := by
  obtain ⟨hsource, rfl, hplaces, hbuffers⟩ := h
  obtain ⟨husage, hcrashed⟩ := Lexer.usage_call hallowed
  refine ⟨hcrashed, ?_⟩
  cases c with
  | attach p =>
    exact ⟨hsource, husage, ⟨hplaces.place, hplaces.saved⟩, ⟨hbuffers.place, hbuffers.saved⟩⟩
  | op op =>
    exact ⟨(lx.source_apply op).trans hsource, husage, Lexer.grounded_apply hplaces op,
      Lexer.sound_apply hbuffers op⟩

theorem intact (h : InUse source u lx) (hfew : Bytewise.FewLines source) : Intact source lx := by
  have hplace : ∀ {c : Cursor} {b : CommentBuffer}, c.Within source → b.Sound →
      InRange source c.position b := by
    intro c b hwithin hsound
    have hcut := hwithin.at.cutAt?
    refine ⟨by have := hwithin.at.le; omega, ?_, Bytewise.line_lt hfew hwithin, hsound⟩
    rw [← Option.isSome_map, hcut]
    rfl
  exact ⟨h.source, hplace h.places.place.1 h.buffers.place,
    fun s hs => hplace (h.places.saved s hs).1 (h.buffers.saved s hs)⟩

/-- A row of calls that keep the rules. -/
theorem trace (h : InUse source u lx) (hfew : Bytewise.FewLines source) {calls : List Call}
    (hkeeps : lx.keepsRules u calls = true) :
    Bytewise.trace lx calls = .ok (lx.trace calls) ∧
      ∀ o ∈ lx.trace calls, o.crashed = false ∧ Intact source o.state := by
  induction calls generalizing lx u with
  | nil => exact ⟨rfl, fun o ho => absurd ho List.not_mem_nil⟩
  | cons c calls ih =>
    obtain ⟨hallowed, hlater⟩ := Bool.and_eq_true_iff.1 hkeeps
    obtain ⟨hcrashed, hafter⟩ := h.call hallowed
    obtain ⟨hbytes, houtcomes⟩ := ih hafter hlater
    constructor
    · unfold Bytewise.trace
      rw [h.bytewise hfew]
      show (Bytewise.trace (lx.call c).state calls >>= _) = _
      rw [hbytes]
      rfl
    · intro o ho
      obtain rfl | ho := List.mem_cons.1 ho
      · exact ⟨hcrashed, hafter.intact hfew⟩
      · exact houtcomes o ho

end InUse

/-- **No row of calls that keeps the rules crashes.**  The source has fewer line ends than a line
number can count; the preprocessor gives any answers.  By bytes every call has the outcome that it has
by characters, so no slice and no line number goes wrong. -/
theorem calls_never_crash {source : String} (preferences : LexicalPreferences) (p : Option Preprocessor)
    (hfew : newlines source.toList < Position.lineBound - 1) {calls : List Call}
    (hkeeps : ((Lexer.ofSource source preferences).withPreprocessor p).keepsRules .start calls = true) :
    let lx := (Lexer.ofSource source preferences).withPreprocessor p
    Intact source.toList lx ∧ Bytewise.trace lx calls = .ok (lx.trace calls) ∧
      ∀ o ∈ lx.trace calls, o.crashed = false ∧ Intact source.toList o.state := by
  have hfew' : Bytewise.FewLines source.toList := Nat.lt_sub_iff_add_lt.1 hfew
  have hstart := inUse_ofSource source preferences p
  exact ⟨hstart.intact hfew', hstart.trace hfew' hkeeps⟩

/-- Escaped characters of two bytes on a directive line, in a string, after a quote that is never closed
and in raw text, with a refused directive, a failed look and a way back. -/
theorem calls_never_crash_sample :
    let source := "#if \"\\é\" /* ü */ a\n\"\\é\" // ü\n'é \\é;\nß x"
    let lx := (Lexer.ofSource source ⟨true, false, false, true⟩).withPreprocessor
      (some (.scripted (.ofAnswers [.error "refused"])))
    let calls := [.op .peek, .op .peek, .op .save, .op .consume, .op .next, .op .peek, .op .line,
      .op (.rawText 'x' ⟨true, false⟩), .op .restore, .attach none, .op .consume]
    lx.keepsRules .start calls = true ∧
    (lx.trace calls).map (fun o => (o.result.isOk, o.state.cursor.position.offset))
      = [(false, 10), (true, 20), (true, 20), (true, 20), (true, 26), (false, 33), (true, 42), (true, 46),
        (true, 20), (true, 20), (true, 20)] ∧
    Bytewise.trace lx calls = .ok (lx.trace calls) ∧
    ∀ o ∈ lx.trace calls, o.crashed = false ∧ Intact source.toList o.state := by
  intro source lx calls
  have hkeeps : lx.keepsRules .start calls = true := by decide +kernel
  obtain ⟨-, hbytes, houtcomes⟩ := calls_never_crash ⟨true, false, false, true⟩ _ (by decide +kernel) hkeeps
  exact ⟨hkeeps, by decide +kernel, hbytes, houtcomes⟩

end HeaderLex
