import HeaderLex.Proofs.Backtracking

/-!
# What a recording keeps

While a lexer records, every token that is consumed is added to the recording, and going back to a
checkpoint cuts the recording to the length that it had there.  So the recording holds the tokens on
the path that was not given up.

* `Course`               a row of operations with pairs of checkpoints, as a tree;
* `Course.survivors`     the tokens consumed on it, without those that going back undid;
* `Lexer.Records`        what a row of operations does to the recording and to the checkpoints;
* `Course.records`       a course records its survivors, by induction on the tree;
* `recording_survives`   so does a course with open checkpoints, and a replay serves the survivors.
-/

namespace HeaderLex

/-- Operations that set and end no checkpoint, and touch the recording only by consuming a token. -/
def Op.isStep : Op → Bool
  | .save | .restore | .abandon | .startRecording | .record _ | .stopRecording => false
  | _ => true

/-- The token that an operation consumes, if it consumes one. -/
def Lexer.taken (lx : Lexer) : Op → List Token
  | .consume => (lx.current.map Peeked.token).toList
  | .next => lx.next.result.toOption.toList
  | _ => []

/-! ## courses -/

/-- A row of operations in which checkpoints are set and ended in pairs. -/
inductive Course where
  | done
  | step (op : Op) (isStep : op.isStep = true) (later : Course)
  /-- A checkpoint is set and ended, by going back to it or by forgetting it. -/
  | bracket (inner : Course) (goesBack : Bool) (later : Course)

/-- The operation that ends a checkpoint. -/
def Op.closing (goesBack : Bool) : Op := if goesBack then .restore else .abandon

namespace Course

def ops : Course → List Op
  | done => []
  | step op _ later => op :: later.ops
  | bracket inner goesBack later => .save :: (inner.ops ++ .closing goesBack :: later.ops)

/-- How many checkpoints are open at once. -/
def depth : Course → Nat
  | done => 0
  | step _ _ later => later.depth
  | bracket inner _ later => max (inner.depth + 1) later.depth

/-- The tokens that are consumed on a course, without those between a checkpoint and the way back to
it. -/
def survivors (lx : Lexer) : Course → List Token
  | done => []
  | step op _ later => lx.taken op ++ later.survivors (lx.apply op).state
  | bracket inner goesBack later =>
    (if goesBack then [] else inner.survivors lx.save.state) ++
      later.survivors ((lx.save.state.run inner.ops).apply (.closing goesBack)).state

end Course

/-- A course, and after it courses behind checkpoints that are not ended yet. -/
inductive OpenCourse where
  | closed (course : Course)
  | opened (course : Course) (later : OpenCourse)

namespace OpenCourse

def ops : OpenCourse → List Op
  | closed course => course.ops
  | opened course later => course.ops ++ .save :: later.ops

def depth : OpenCourse → Nat
  | closed course => course.depth
  | opened course later => max course.depth (later.depth + 1)

def survivors (lx : Lexer) : OpenCourse → List Token
  | closed course => course.survivors lx
  | opened course later => course.survivors lx ++ later.survivors (lx.run course.ops).save.state

end OpenCourse

/-! ## what is recorded -/

namespace Lexer

/-- From one lexer to a later one, tokens are added to the recording, and the checkpoints are the same
again. -/
structure Records (lx : Lexer) (ts : List Token) (lx' : Lexer) : Prop where
  recording : lx'.recording = lx.recording
  saved : lx'.saved = lx.saved
  recorded : lx'.recorded = lx.recorded ++ ts

variable {lx lx' lx'' : Lexer} {ts us : List Token}

theorem Records.refl (lx : Lexer) : lx.Records [] lx := ⟨rfl, rfl, (List.append_nil _).symm⟩

theorem Records.trans (h : lx.Records ts lx') (h' : lx'.Records us lx'') :
    lx.Records (ts ++ us) lx'' where
  recording := h'.recording.trans h.recording
  saved := h'.saved.trans h.saved
  recorded := by rw [h'.recorded, h.recorded, List.append_assoc]

theorem Records.peek (lx : Lexer) : lx.Records [] lx.peek.state := by
  cases hc : lx.current with
  | some p =>
    rw [peek_of_current hc]
    exact .refl lx
  | none =>
    have hledger := ledger_lexToken lx
    have htoken : lx.Records [] lx.lexToken.state :=
      ⟨congrArg Ledger.recording hledger, congrArg Ledger.saved hledger,
        (congrArg Ledger.recorded hledger).trans (List.append_nil _).symm⟩
    cases hr : lx.lexToken.result with
    | ok p =>
      rw [peek_of_lexToken hc hr]
      exact ⟨htoken.recording, htoken.saved, htoken.recorded⟩
    | error f =>
      rw [peek_of_error hc hr]
      exact htoken

theorem Records.unget (lx : Lexer) : lx.Records [] lx.unget := by
  unfold Lexer.unget
  split
  · exact ⟨rfl, rfl, (List.append_nil _).symm⟩
  · exact .refl lx

/-- Consuming a token adds it. -/
theorem Records.consumed (hrec : lx.recording = true) (t : Token) :
    lx.Records [t] (lx.consumed t) := ⟨rfl, rfl, if_pos hrec⟩

theorem Records.next (hrec : lx.recording = true) :
    lx.Records lx.next.result.toOption.toList lx.next.state := by
  have hpeek := Records.peek lx
  cases hr : lx.peek.result with
  | error f =>
    rw [next_of_error hr]
    exact hpeek
  | ok t =>
    rw [next_of_ok hr]
    exact hpeek.trans (.consumed (hpeek.recording.trans hrec) t)

/-- An operation adds the token that it consumes, whether it fails or not. -/
theorem Records.apply (hrec : lx.recording = true) {op : Op} (hop : op.isStep = true) :
    lx.Records (lx.taken op) (lx.apply op).state := by
  cases op with
  | peek => exact .peek lx
  | atEnd => exact .peek lx
  | next => exact .next hrec
  | consume =>
    show lx.Records (lx.current.map Peeked.token).toList lx.consume.state
    unfold consume
    cases hc : lx.current with
    | some p => exact .consumed hrec p.token
    | none => exact .refl lx
  | line =>
    obtain ⟨cursor, comments, hs⟩ := lx.line_state
    show lx.Records [] lx.line.state
    rw [hs]
    have hunget := Records.unget lx
    exact ⟨hunget.recording, hunget.saved, hunget.recorded⟩
  | rawText terminator options =>
    obtain ⟨cursor, hs⟩ := lx.rawText_state terminator options
    show lx.Records [] (lx.rawText terminator options).state
    rw [hs]
    have hunget := Records.unget lx
    exact ⟨hunget.recording, hunget.saved, hunget.recorded⟩
  | clearComments | disableComments | commitComments => exact ⟨rfl, rfl, (List.append_nil _).symm⟩
  | enableComments =>
    show lx.Records [] lx.enableComments.state
    unfold enableComments
    split
    · exact .refl lx
    · exact ⟨rfl, rfl, (List.append_nil _).symm⟩
  | _ => cases hop

/-! ## the two ends of a checkpoint -/

/-- Setting a checkpoint remembers how long the recording is. -/
theorem save_records (hfree : lx.saved.length < maxCheckpoints) :
    lx.save.state.recording = lx.recording ∧ lx.save.state.recorded = lx.recorded ∧
      lx.save.state.saved = lx.snapshot :: lx.saved := by
  rw [save_of_free hfree]
  exact ⟨rfl, rfl, rfl⟩

variable (hfree : lx.saved.length < maxCheckpoints) (h : lx.save.state.Records ts lx')
include hfree h

/-- Forgetting the checkpoint keeps what was recorded behind it. -/
theorem Records.abandoned : lx.Records ts lx'.abandon.state := by
  obtain ⟨hrecording, hrecorded, hsaved⟩ := save_records hfree
  have hstack := h.saved.trans hsaved
  unfold Lexer.abandon
  rw [hstack]
  exact ⟨h.recording.trans hrecording, rfl, by rw [← hrecorded]; exact h.recorded⟩

/-- Going back to the checkpoint cuts off what was recorded behind it. -/
theorem Records.restored : lx.Records [] lx'.restore.state := by
  obtain ⟨hrecording, hrecorded, hsaved⟩ := save_records hfree
  have hstack := h.saved.trans hsaved
  have hcut : lx'.recorded.take lx.recorded.length = lx.recorded ++ [] := by
    rw [h.recorded, hrecorded, List.take_left, List.append_nil]
  unfold Lexer.restore
  rw [hstack]
  exact ⟨h.recording.trans hrecording, rfl, hcut⟩

theorem Records.closed (goesBack : Bool) :
    lx.Records (if goesBack then [] else ts) (lx'.apply (.closing goesBack)).state := by
  cases goesBack with
  | true => exact Records.restored hfree h
  | false => exact Records.abandoned hfree h

end Lexer

/-! ## the recording of a course -/

theorem Lexer.run_bracket (lx : Lexer) (inner later : List Op) (close : Op) :
    lx.run (.save :: (inner ++ close :: later))
      = ((lx.save.state.run inner).apply close).state.run later := by
  show lx.save.state.run (inner ++ close :: later) = _
  rw [Lexer.run_append]
  rfl

/-- There is room for one more checkpoint, and behind it for those of a course. -/
theorem Lexer.room_behind {lx : Lexer} {depth : Nat}
    (hroom : lx.saved.length + (depth + 1) ≤ maxCheckpoints) :
    lx.saved.length < maxCheckpoints ∧ lx.save.state.saved.length + depth ≤ maxCheckpoints := by
  have hfree : lx.saved.length < maxCheckpoints := by omega
  refine ⟨hfree, ?_⟩
  rw [(Lexer.save_records hfree).2.2, List.length_cons]
  omega

/-- A course records its survivors. -/
theorem Course.records (c : Course) {lx : Lexer} (hrec : lx.recording = true)
    (hroom : lx.saved.length + c.depth ≤ maxCheckpoints) :
    lx.Records (c.survivors lx) (lx.run c.ops) := by
  induction c generalizing lx with
  | done => exact .refl lx
  | step op hop later ih =>
    have hstep := Lexer.Records.apply hrec hop
    exact hstep.trans (ih (hstep.recording.trans hrec) (by rw [hstep.saved]; exact hroom))
  | bracket inner goesBack later ihinner ihlater =>
    obtain ⟨hfree, hbehind⟩ := @Lexer.room_behind lx inner.depth
      (Nat.le_trans (Nat.add_le_add_left (Nat.le_max_left ..) _) hroom)
    have hinner := ihinner ((Lexer.save_records hfree).1.trans hrec) hbehind
    have hclosed := Lexer.Records.closed hfree hinner goesBack
    have hlater := ihlater (hclosed.recording.trans hrec) (by
      rw [hclosed.saved]
      exact Nat.le_trans (Nat.add_le_add_left (Nat.le_max_right ..) _) hroom)
    show lx.Records _ (lx.run (.save :: (inner.ops ++ .closing goesBack :: later.ops)))
    rw [Lexer.run_bracket]
    exact hclosed.trans hlater

/-- An open course records its survivors too. -/
theorem OpenCourse.recorded (c : OpenCourse) {lx : Lexer} (hrec : lx.recording = true)
    (hroom : lx.saved.length + c.depth ≤ maxCheckpoints) :
    (lx.run c.ops).recorded = lx.recorded ++ c.survivors lx := by
  induction c generalizing lx with
  | closed course => exact (course.records hrec hroom).recorded
  | opened course later ih =>
    have hcourse := course.records hrec
      (Nat.le_trans (Nat.add_le_add_left (Nat.le_max_left ..) _) hroom)
    obtain ⟨hfree, hbehind⟩ := @Lexer.room_behind (lx.run course.ops) later.depth (by
      rw [hcourse.saved]
      exact Nat.le_trans (Nat.add_le_add_left (Nat.le_max_right ..) _) hroom)
    obtain ⟨hrecording, hrecorded, -⟩ := Lexer.save_records hfree
    have hlater := ih ((hrecording.trans hcourse.recording).trans hrec) hbehind
    show (lx.run (course.ops ++ .save :: later.ops)).recorded
      = lx.recorded ++ (course.survivors lx ++ _)
    rw [Lexer.run_append, ← List.append_assoc, ← hcourse.recorded, ← hrecorded]
    exact hlater

/-! ## replaying -/

/-- So many tokens, one after the other. -/
def Parser.nextMany {υ : Type} : Nat → Parser υ (List Token)
  | 0 => pure []
  | n + 1 => do
    let t ← Parser.next
    let ts ← nextMany n
    return t :: ts

theorem Parser.next_replay {υ : Type} (r : Replay) (arena : Arena) (user : υ) :
    Parser.next ⟨.replay r, arena, user⟩ = .ok r.peek ⟨.replay r.consume, arena, user⟩ := rfl

theorem Parser.nextMany_succ {υ : Type} {s s' : Session υ} {t : Token} (n : Nat)
    (h : Parser.next s = .ok t s') :
    (nextMany (n + 1) s).result = (nextMany n s').result.map (t :: ·) := by
  have hnext : (Parser.next s).result = .ok t := congrArg Outcome.result h
  rw [nextMany, Operation.bind_of_ok hnext, h]
  show ((nextMany n >>= fun ts => pure (t :: ts) : Parser υ (List Token)) s').result = _
  cases hn : (nextMany n s').result with
  | error f =>
    rw [Operation.bind_of_error hn]
    rfl
  | ok ts =>
    rw [Operation.bind_of_ok hn]
    rfl

/-- A replay serves its tokens, and then its end mark for ever. -/
theorem Parser.nextMany_replay {υ : Type} (r : Replay) (arena : Arena) (user : υ) (n : Nat) :
    (nextMany n ⟨.replay r, arena, user⟩).result
      = .ok ((r.rest ++ List.replicate n r.endMark).take n) := by
  induction n generalizing r with
  | zero => rfl
  | succ n ih =>
    rw [nextMany_succ n (next_replay r arena user), ih r.consume]
    obtain ⟨rest, saved, endMark⟩ := r
    cases rest with
    | nil => rfl
    | cons t rest =>
      -- the one end mark more is beyond the tokens that are taken
      have hmore : (rest ++ List.replicate (n + 1) endMark).take n
          = (rest ++ List.replicate n endMark).take n := by
        rw [List.replicate_succ', ← List.append_assoc]
        exact List.take_append_of_le_length (by simp)
      show Except.ok (t :: (rest ++ List.replicate n endMark).take n)
        = .ok (t :: (rest ++ List.replicate (n + 1) endMark).take n)
      rw [hmore]

/-- A replay can be made with every kind of end mark. -/
theorem Replay.ofTokens_ok (tokens : List Token) {kind : TokenKind} (hkind : kind.isEnd = true) :
    Replay.ofTokens tokens kind
      = .ok ⟨tokens, [], ⟨kind, "", Replay.endPosition tokens, Replay.endPosition tokens⟩⟩ := by
  unfold Replay.ofTokens Token.endAt
  rw [hkind]
  rfl

/-- Recording keeps exactly the path that survives: whatever a lexer has recorded, with or without a
preprocessor, a course of operations, some of them failing, adds the tokens that are consumed on it,
without those between a checkpoint and the way back to it.  A replay of the recording serves these
tokens, and then a mark of the kind that was asked for, for ever. -/
theorem recording_survives {lx : Lexer} (hrec : lx.recording = true) (c : OpenCourse)
    (hroom : lx.saved.length + c.depth ≤ maxCheckpoints) :
    (lx.run c.ops).recorded = lx.recorded ++ c.survivors lx ∧
      ∀ kind : TokenKind, kind.isEnd = true → ∃ r last,
        Replay.ofTokens (lx.run c.ops).recorded kind = .ok r ∧ last.kind = kind ∧
        ∀ (υ : Type) (arena : Arena) (user : υ) (n : Nat),
          (Parser.nextMany n ⟨.replay r, arena, user⟩).result
            = .ok ((lx.recorded ++ c.survivors lx ++ List.replicate n last).take n) := by
  have hrecorded := c.recorded hrec hroom
  refine ⟨hrecorded, ?_⟩
  intro kind hkind
  rw [hrecorded]
  generalize lx.recorded ++ c.survivors lx = tokens
  let last : Token := ⟨kind, "", Replay.endPosition tokens, Replay.endPosition tokens⟩
  refine ⟨⟨tokens, [], last⟩, last, Replay.ofTokens_ok tokens hkind, rfl, ?_⟩
  exact fun υ arena user n => Parser.nextMany_replay ⟨tokens, [], last⟩ arena user n

/-- One token is recorded before the course begins.  On the course a consumption fails at once and a
look fails inside two checkpoints; a token across an excluded region is undone, and one is kept. -/
theorem recording_survives_sample :
    let lx := ((Lexer.ofSource "a b\n#if 0\nc\n#endif\nd 'e" ⟨true, false, false, true⟩).withPreprocessor
      (some (.conditional Conditional.standard))).run [.startRecording, .next]
    let undone : Course := .step .next rfl (.step .peek rfl .done)
    let kept : Course := .step .next rfl (.bracket undone true .done)
    let c : OpenCourse := .opened (.step .consume rfl (.bracket kept false .done))
      (.closed (.step .peek rfl .done))
    let a : Token := ⟨.identifier, "a", ⟨0, 1⟩, ⟨0, 1⟩⟩
    let b : Token := ⟨.identifier, "b", ⟨2, 1⟩, ⟨1, 1⟩⟩
    c.ops = [.consume, .save, .next, .save, .next, .peek, .restore, .abandon, .save, .peek] ∧
      lx.recording = true ∧ lx.saved.length + c.depth ≤ maxCheckpoints ∧
      (lx.run c.ops).recorded = [a, b] ∧ ∃ r last,
        Replay.ofTokens [a, b] .endOfDeclaration = .ok r ∧ last.kind = .endOfDeclaration ∧
        (Parser.nextMany 4 ⟨.replay r, Arena.empty, ()⟩).result = .ok [a, b, last, last] := by
  intro lx undone kept c a b
  have hrec : lx.recording = true := by decide +kernel
  have hroom : lx.saved.length + c.depth ≤ maxCheckpoints := by decide +kernel
  have htokens : lx.recorded ++ c.survivors lx = [a, b] := by decide +kernel
  obtain ⟨hrecorded, hreplay⟩ := recording_survives hrec c hroom
  obtain ⟨r, last, hr, hlast, hserved⟩ := hreplay .endOfDeclaration rfl
  rw [hrecorded, htokens] at hr
  refine ⟨rfl, hrec, hroom, hrecorded.trans htokens, r, last, hr, hlast, ?_⟩
  rw [hserved, htokens]
  rfl

end HeaderLex
