import HeaderLex.Proofs.Consumption
import HeaderLex.Proofs.Extent
import HeaderLex.Proofs.LexicalCauses

/-!
# The turns of skipping a declaration

A turn looks at one token: the declaration goes on, ends, or is refused.  What the state says of the
tokens taken so far is kept by every turn that goes on.

* `SkipState.turn`   a turn by the judgement of its token, and `turn_inl`, `turn_inr`, `turn_refused`,
                     `turn_refuses` how it ends;
* `InOwn`, `InBlock`   the token belongs to the declaration, or to the block behind a macro;
* `Reads`            the invariant, and `Reads.turn` that a turn keeps it;
* `Reads.finish`, `Reads.refused`   what it says at the last turn.
-/

namespace HeaderLex

open HeaderLex.Operation HeaderLex.Parser HeaderLex.Grammar

/-- Tokens are consumed by operations of the stream. -/
theorem Stream.Consumes.reaches {s s' : Stream} {ts : List Token} (h : s.Consumes ts s') :
    s.Reaches s' := by
  induction h with
  | refl s => exact .refl s
  | @look s t ht => exact s.reaches_peek
  | @take s t ht => exact s.reaches_peek.trans (Bookkeeping.consume.reaches _)
  | trans _ _ ih ih' => exact ih.trans ih'
  | @undone s s' ts _ _ ih =>
    exact ((Bookkeeping.save.reaches s).trans ih).trans (Bookkeeping.restore.reaches s')
  | @kept s s' ts _ _ ih =>
    exact ((Bookkeeping.save.reaches s).trans ih).trans (Bookkeeping.abandon.reaches s')

namespace Grammar

variable {υ : Type}

/-! ## one turn -/

/-- Who is warned neither fails nor touches the stream. -/
def Quiet (warn : Warning → Parser υ Unit) : Prop :=
  ∀ w x, (warn w x).result = .ok () ∧ (warn w x).state.stream = x.stream

namespace SkipState

/-- The state at the next token. -/
def onto (st : SkipState) (t : Token) : SkipState :=
  { st with
    token := t
    outcome := { st.outcome with tokensSkipped := st.outcome.tokensSkipped + 1 } }

/-- The state behind its token, with so many brackets open. -/
def past (st : SkipState) (depth : Nat) : SkipState :=
  { st with
    depth := depth
    outcome := { st.outcome with
      foundBody := st.outcome.foundBody || st.token.isMark st.brackets.1 } }

/-- What is done at a token, by its judgement. -/
def turn (st : SkipState) : Parser υ (SkipState ⊕ SkipOutcome) :=
  match judge st.brackets st.depth st.token with
  | .goesOn depth => skipOn (st.past depth)
  | .refused => refuse ⟨.unbalancedBracket st.brackets.2, st.token.start⟩
  | .closed => skipClosed { st with depth := 0 }
  | .stopped => pure (.inr st.outcome)

end SkipState

theorem skipTurn_eq (warn : Warning → Parser υ Unit) (st : SkipState) :
    skipTurn warn st = match skipWarning? st.token with
      | some w => warn w >>= fun _ => st.turn
      | _ => st.turn := by
  have hturn : (st.turn : Parser υ (SkipState ⊕ SkipOutcome)) =
      if st.token.isMark st.brackets.1 then
        skipOn { st with depth := st.depth + 1, outcome := { st.outcome with foundBody := true } }
      else if st.token.isMark st.brackets.2 then
        if st.depth = 0 then refuse ⟨.unbalancedBracket st.brackets.2, st.token.start⟩
        else if st.depth = 1 then skipClosed { st with depth := 0 }
        else skipOn { st with depth := st.depth - 1 }
      else if st.depth = 0 && st.token.isMark ';' then return .inr st.outcome
      else skipOn st := by
    obtain ⟨t, brackets, depth, o⟩ := st
    unfold SkipState.turn judge SkipState.past
    dsimp only
    cases t.isMark brackets.1 with
    | true => simp only [if_true, Bool.or_true]
    | false =>
      simp only [Bool.false_eq_true, if_false, Bool.or_false]
      by_cases hclose : t.isMark brackets.2 = true
      · by_cases hzero : depth = 0
        · simp only [if_pos hclose, if_pos hzero]
        · by_cases hone : depth = 1
          · simp only [if_pos hclose, if_neg hzero, if_pos hone]
          · simp only [if_pos hclose, if_neg hzero, if_neg hone]
      · by_cases hstop : (decide (depth = 0) && t.isMark ';') = true
        · simp only [if_neg hclose, if_pos hstop]
        · simp only [if_neg hclose, if_neg hstop]
  rw [hturn]
  rfl

/-- Apart from the warning a turn is what is done at the token. -/
theorem skipTurn_warned {warn : Warning → Parser υ Unit} (hwarn : Quiet warn) (st : SkipState)
    (x : Session υ) : ∃ y : Session υ, y.stream = x.stream ∧
      (skipTurn warn st x).result = (st.turn y).result ∧
      (skipTurn warn st x).state = (st.turn y).state := by
  rw [skipTurn_eq]
  cases skipWarning? st.token with
  | none => exact ⟨x, rfl, rfl, rfl⟩
  | some w =>
    obtain ⟨hok, hstream⟩ := hwarn w x
    refine ⟨(warn w x).state, hstream, ?_⟩
    dsimp only
    rw [bind_of_ok hok]
    exact ⟨rfl, rfl⟩

section

variable {st st' : SkipState} {x x' : Session υ} {a : SkipState ⊕ SkipOutcome} {o : SkipOutcome}

theorem skipOn_ends : (skipOn st).Ends x a x' ↔
    ∃ t, x.stream.peek.result = .ok t ∧
      { x with stream := x.stream.peek.state.consume.state } = x' ∧
      (t.isEnd = true ∧ st.depth = 0 ∧ a = .inr st.outcome ∨ t.isEnd = false ∧ a = .inl (st.onto t)) := by
  unfold skipOn
  rw [ends_bind]
  constructor
  · rintro ⟨t, y, hnext, h⟩
    obtain ⟨hpeek, rfl⟩ := next_ends.mp hnext
    refine ⟨t, hpeek, ?_⟩
    split at h
    · next hend =>
      split at h
      · cases h.1
      · next hdepth =>
        obtain ⟨rfl, rfl⟩ := ends_pure.mp h
        exact ⟨rfl, .inl ⟨hend, Nat.eq_zero_of_not_pos hdepth, rfl⟩⟩
    · next hend =>
      obtain ⟨rfl, rfl⟩ := ends_pure.mp h
      exact ⟨rfl, .inr ⟨eq_false_of_ne_true hend, rfl⟩⟩
  · rintro ⟨t, hpeek, rfl, h⟩
    refine ⟨t, _, next_ends.mpr ⟨hpeek, rfl⟩, ?_⟩
    rcases h with ⟨hend, hdepth, rfl⟩ | ⟨hend, rfl⟩
    · rw [if_pos hend, if_neg (by omega)]
      exact ends_pure.mpr ⟨rfl, rfl⟩
    · rw [if_neg (by rw [hend]; decide)]
      exact ends_pure.mpr ⟨rfl, rfl⟩

/-- A body in braces is begun, or else nothing is taken. -/
theorem skipClosed_ends (h : (skipClosed st).Ends x a x') :
    (x.stream.Consumes [] x'.stream ∧ a = .inr st.outcome) ∨
      ∃ t, st.brackets.1 = '(' ∧ st.outcome.macroStyle = true ∧ t.isMark '{' = true ∧
        x.stream.peek.result = .ok t ∧
        { x with stream := x.stream.peek.state.consume.state } = x' ∧
        a = .inl { st.onto t with brackets := ('{', '}') } := by
  unfold skipClosed at h
  split at h
  · next hstyle =>
    simp only [Bool.and_eq_true, beq_iff_eq] at hstyle
    obtain ⟨t, y, hlook, h⟩ := ends_bind.mp h
    obtain ⟨hpeek, rfl⟩ := peek_ends.mp hlook
    split at h
    · next hbrace =>
      obtain ⟨t', z, hnext, h⟩ := ends_bind.mp h
      obtain ⟨hagain, rfl⟩ := next_ends.mp hnext
      obtain ⟨rfl, rfl⟩ := ends_pure.mp h
      -- the look that found the brace is repeated where it is taken
      rw [Stream.peek_again hpeek] at hagain ⊢
      obtain rfl : t = t' := Except.ok.inj hagain
      exact .inr ⟨t, hstyle.1, hstyle.2, hbrace, hpeek, rfl, rfl⟩
    · obtain ⟨rfl, rfl⟩ := ends_pure.mp h
      exact .inl ⟨.look hpeek, rfl⟩
  · obtain ⟨rfl, rfl⟩ := ends_pure.mp h
    exact .inl ⟨.refl _, rfl⟩

/-- A turn that goes on has taken the next token. -/
theorem turn_inl (h : st.turn.Ends x (.inl st') x') : ∃ t, x.stream.peek.result = .ok t ∧
    { x with stream := x.stream.peek.state.consume.state } = x' ∧
    ((∃ depth, judge st.brackets st.depth st.token = .goesOn depth ∧ t.isEnd = false ∧
        st' = (st.past depth).onto t) ∨
      (judge st.brackets st.depth st.token = .closed ∧ st.brackets.1 = '(' ∧
        st.outcome.macroStyle = true ∧ t.isMark '{' = true ∧
        st' = { ({ st with depth := 0 } : SkipState).onto t with brackets := ('{', '}') })) := by
  unfold SkipState.turn at h
  split at h
  · next depth hjudge =>
    obtain ⟨t, hpeek, hstate, ⟨-, -, hst⟩ | ⟨hend, hst⟩⟩ := skipOn_ends.mp h
    · cases hst
    · exact ⟨t, hpeek, hstate, .inl ⟨depth, hjudge, hend, Sum.inl.inj hst⟩⟩
  · cases h.1
  · next hjudge =>
    obtain ⟨-, hst⟩ | ⟨t, hround, hstyle, hbrace, hpeek, hstate, hst⟩ := skipClosed_ends h
    · cases hst
    · exact ⟨t, hpeek, hstate, .inr ⟨hjudge, hround, hstyle, hbrace, Sum.inl.inj hst⟩⟩
  · cases h.1

/-- The last turn takes an end mark outside the brackets, or nothing at a token that ends the
declaration. -/
theorem turn_inr (h : st.turn.Ends x (.inr o) x') :
    (∃ t, judge st.brackets st.depth st.token = .goesOn 0 ∧ x.stream.peek.result = .ok t ∧
      { x with stream := x.stream.peek.state.consume.state } = x' ∧ t.isEnd = true ∧
      o = (st.past 0).outcome) ∨
    ((judge st.brackets st.depth st.token = .closed ∨ judge st.brackets st.depth st.token = .stopped) ∧
      x.stream.Consumes [] x'.stream ∧ o = st.outcome) := by
  unfold SkipState.turn at h
  split at h
  · next depth hjudge =>
    obtain ⟨t, hpeek, hstate, ⟨hend, hdepth, ho⟩ | ⟨-, ho⟩⟩ := skipOn_ends.mp h
    · obtain rfl : depth = 0 := hdepth
      exact .inl ⟨t, hjudge, hpeek, hstate, hend, Sum.inr.inj ho⟩
    · cases ho
  · cases h.1
  · next hjudge =>
    obtain ⟨hconsumes, ho⟩ | ⟨t, -, -, -, -, -, ho⟩ := skipClosed_ends h
    · exact .inr ⟨.inl hjudge, hconsumes, Sum.inr.inj ho⟩
    · cases ho
  · next hjudge =>
    obtain ⟨ho, rfl⟩ := ends_pure.mp h
    exact .inr ⟨.inr hjudge, .refl _, (Sum.inr.inj ho).symm⟩

theorem turn_refused (h : judge st.brackets st.depth st.token = .refused) :
    (st.turn x).result = .error (.source ⟨.unbalancedBracket st.brackets.2, st.token.start⟩) := by
  unfold SkipState.turn
  rw [h]
  rfl

/-- Nowhere else a bracket is unbalanced, unless a script says so. -/
theorem turn_refuses {c : Char} {p : Position}
    (hscript : ∀ place, ¬ MayRefuse x.stream.answers place ⟨.unbalancedBracket c, p⟩)
    (h : (st.turn x).result = .error (.source ⟨.unbalancedBracket c, p⟩)) :
    judge st.brackets st.depth st.token = .refused ∧ c = st.brackets.2 ∧ p = st.token.start := by
  have hon : ∀ st' : SkipState, (skipOn st' x).result ≠ .error (.source ⟨.unbalancedBracket c, p⟩) := by
    intro st' h
    rcases fails_bind.mp h with hnext | ⟨t, y, -, h⟩
    · exact Lexical.next.not_fails rfl hscript hnext
    · split at h
      · split at h <;> cases h
      · cases h
  have hclosed : ∀ st' : SkipState,
      (skipClosed st' x).result ≠ .error (.source ⟨.unbalancedBracket c, p⟩) := by
    intro st' h
    unfold skipClosed at h
    split at h
    · rcases fails_bind.mp h with hpeek | ⟨t, y, ⟨-, rfl⟩, h⟩
      · exact Lexical.peek.not_fails rfl hscript hpeek
      · have hlater := (Lexical.peek x).1.answers
        split at h
        · rcases fails_bind.mp h with hnext | ⟨t', z, -, h⟩
          · exact Lexical.next.not_fails rfl (fun q hq => hscript q (hq.mono hlater)) hnext
          · cases h
        · cases h
    · cases h
  unfold SkipState.turn at h
  cases hjudge : judge st.brackets st.depth st.token with
  | goesOn depth =>
    rw [hjudge] at h
    exact absurd h (hon _)
  | refused =>
    rw [hjudge] at h
    cases h
    exact ⟨rfl, rfl, rfl⟩
  | closed =>
    rw [hjudge] at h
    exact absurd h (hclosed _)
  | stopped =>
    rw [hjudge] at h
    cases h

end

/-! ## what the turns keep -/

/-- The state stands at a token of the declaration, behind those before it. -/
structure InOwn (first : Token) (taken : List Token) (st : SkipState) (before : List Token) :
    Prop where
  tokens : first :: taken = before ++ [st.token]
  brackets : st.brackets = bodyBrackets first
  running : Running (bodyBrackets first) before st.depth
  foundBody : st.outcome.foundBody = true ↔ ∃ t ∈ before, t.isMark (bodyBrackets first).1 = true

/-- The state stands at a token of the block behind a macro. -/
structure InBlock (first : Token) (taken : List Token) (st : SkipState) (own before : List Token) :
    Prop where
  tokens : first :: taken = own ++ (before ++ [st.token])
  brackets : st.brackets = ('{', '}')
  running : Running ('{', '}') before st.depth
  begins : ∃ t rest, before ++ [st.token] = t :: rest ∧ t.isMark '{' = true
  macroStyle : isMacroStyle first = true
  complete : Complete (bodyBrackets first) own
  closed : ∃ before t, own = before ++ [t] ∧ t.isMark ')' = true ∧ Stops (bodyBrackets first) before t
  foundBody : st.outcome.foundBody = true
  opened : ∃ t ∈ own, t.isMark (bodyBrackets first).1 = true

/-- What the state says of the tokens taken so far. -/
structure Reads (first : Token) (taken : List Token) (st : SkipState) : Prop where
  content : ∀ t ∈ taken, t.isEnd = false
  macroStyle : st.outcome.macroStyle = isMacroStyle first
  count : st.outcome.tokensSkipped = 1 + taken.length
  place : (∃ before, InOwn first taken st before) ∨ ∃ own before, InBlock first taken st own before

/-- The state before anything is taken. -/
def SkipState.begin (first : Token) : SkipState :=
  ⟨first, bodyBrackets first, 0, ⟨false, isMacroStyle first, 1⟩⟩

theorem inOwn_begin (first : Token) : InOwn first [] (.begin first) [] :=
  ⟨rfl, rfl, running_nil _, by simp [SkipState.begin]⟩

theorem reads_begin (first : Token) : Reads first [] (.begin first) where
  content := by simp
  macroStyle := rfl
  count := rfl
  place := .inl ⟨[], inOwn_begin first⟩

section

variable {first : Token} {taken before own : List Token} {st st' : SkipState} {x x' : Session υ}
  {o : SkipOutcome}

/-- Behind the first brace of a block there is an open one. -/
theorem InBlock.depth (h : InBlock first taken st own before) :
    st.depth ≠ 0 ∨ st.token.isMark '{' = true := by
  obtain ⟨t, rest, hbegin, ht⟩ := h.begins
  cases before with
  | nil =>
    obtain ⟨rfl, -⟩ := List.cons.inj hbegin
    exact .inr ht
  | cons u before =>
    obtain ⟨rfl, -⟩ := List.cons.inj hbegin
    exact .inl (h.running.inside ht)

theorem InOwn.judged (h : InOwn first taken st before) :
    (judge st.brackets st.depth st.token).Means (bodyBrackets first) before st.depth st.token := by
  rw [h.brackets]
  exact HeaderLex.judged (opening_ne_semicolon first) h.running.depth st.token

theorem InBlock.judged (h : InBlock first taken st own before) :
    (judge st.brackets st.depth st.token).Means ('{', '}') before st.depth st.token := by
  rw [h.brackets]
  exact HeaderLex.judged (by decide) h.running.depth st.token

/-- Whether the body was found, behind the token. -/
theorem InOwn.found (h : InOwn first taken st before) (depth : Nat) :
    (st.past depth).outcome.foundBody = true ↔
      ∃ t ∈ before ++ [st.token], t.isMark (bodyBrackets first).1 = true := by
  show (st.outcome.foundBody || st.token.isMark st.brackets.1) = true ↔ _
  rw [Bool.or_eq_true, h.foundBody, h.brackets]
  simp [or_and_right, exists_or]

/-- The same behind a token that opens no bracket. -/
theorem InOwn.found_of_mark (h : InOwn first taken st before) {c : Char}
    (hc : (bodyBrackets first).1 ≠ c) (hmark : st.token.isMark c = true) :
    st.outcome.foundBody = true ↔
      ∃ t ∈ before ++ [st.token], t.isMark (bodyBrackets first).1 = true := by
  have hopen : ¬ st.token.isMark (bodyBrackets first).1 = true :=
    fun hopen => hc (Token.eq_of_isMark hopen hmark)
  rw [h.foundBody]
  simp [hopen, or_and_right, exists_or]

/-- The declaration goes on at its next token. -/
theorem InOwn.onto (h : InOwn first taken st before) {depth : Nat}
    (hdepth : depthOf (bodyBrackets first) (before ++ [st.token]) = some depth)
    (hgo : ¬ Stops (bodyBrackets first) before st.token) (t : Token) :
    InOwn first (taken ++ [t]) ((st.past depth).onto t) (before ++ [st.token]) where
  tokens := by rw [← List.cons_append, h.tokens]; rfl
  brackets := h.brackets
  running := h.running.snoc hgo hdepth
  foundBody := h.found depth

/-- So does the block. -/
theorem InBlock.onto (h : InBlock first taken st own before) {depth : Nat}
    (hdepth : depthOf ('{', '}') (before ++ [st.token]) = some depth)
    (hgo : ¬ Stops ('{', '}') before st.token) (t : Token) :
    InBlock first (taken ++ [t]) ((st.past depth).onto t) own (before ++ [st.token]) where
  tokens := by rw [← List.cons_append, h.tokens, List.append_assoc]; rfl
  brackets := h.brackets
  running := h.running.snoc hgo hdepth
  begins := by
    obtain ⟨u, rest, hbegin, hu⟩ := h.begins
    exact ⟨u, rest ++ [t], congrArg (· ++ [t]) hbegin, hu⟩
  macroStyle := h.macroStyle
  complete := h.complete
  closed := h.closed
  foundBody := by
    show (st.outcome.foundBody || _) = true
    rw [h.foundBody, Bool.true_or]
  opened := h.opened

/-- A block is begun behind the closing parenthesis of a macro. -/
theorem InOwn.enter (h : InOwn first taken st before) (hstyle : isMacroStyle first = true)
    (hround : st.brackets.1 = '(')
    (hclosed : Judgement.closed.Means (bodyBrackets first) before st.depth st.token) {t : Token}
    (ht : t.isMark '{' = true) :
    InBlock first (taken ++ [t]) { ({ st with depth := 0 } : SkipState).onto t with brackets := ('{', '}') }
      (before ++ [st.token]) [] := by
  obtain ⟨hone, hclose, hdepth⟩ := hclosed
  have hpair : bodyBrackets first = ('(', ')') := by
    rw [h.brackets] at hround
    rcases bodyBrackets_cases first with hpair | hpair
    · exact hpair
    · rw [hpair] at hround
      cases hround
  have hopened : ∃ u ∈ before, u.isMark (bodyBrackets first).1 = true := by
    have hinside := h.running.depth
    rw [hone] at hinside
    exact opened_of_depthOf hinside
  exact {
    tokens := by rw [← List.cons_append, h.tokens]; rfl
    brackets := rfl
    running := running_nil _
    begins := ⟨t, [], rfl, ht⟩
    macroStyle := hstyle
    complete := h.running.complete hdepth
    closed := ⟨before, st.token, rfl, by rwa [hpair] at hclose, .inr ⟨hclose, hdepth⟩⟩
    foundBody := h.foundBody.mpr hopened
    opened := by
      obtain ⟨u, hu, hopen⟩ := hopened
      exact ⟨u, List.mem_append_left _ hu, hopen⟩ }

/-- One turn that goes on takes the token at which it leaves the state. -/
theorem Reads.turn (h : Reads first taken st) (hturn : st.turn.Ends x (.inl st') x') :
    x.stream.Takes [st'.token] x'.stream ∧ Reads first (taken ++ [st'.token]) st' := by
  obtain ⟨t, hpeek, rfl, hcase⟩ := turn_inl hturn
  obtain ⟨hcontent, hmacroStyle, hcount, hplace⟩ := h
  have hcount' : st.outcome.tokensSkipped + 1 = 1 + (taken ++ [t]).length := by
    rw [hcount, List.length_append]
    rfl
  have hcontents : t.isEnd = false → ∀ u ∈ taken ++ [t], u.isEnd = false := by
    intro ht u hu
    rcases List.mem_append.mp hu with hu | hu
    · exact hcontent u hu
    · rwa [List.mem_singleton.mp hu]
  rcases hcase with ⟨depth, hjudge, hend, rfl⟩ | ⟨hjudge, hround, hstyle, hbrace, rfl⟩
  · refine ⟨.one hpeek, hcontents hend, hmacroStyle, hcount', ?_⟩
    rcases hplace with ⟨before, hown⟩ | ⟨own, before, hblock⟩
    · have hmeans := hown.judged
      rw [hjudge] at hmeans
      exact .inl ⟨_, hown.onto hmeans.1 hmeans.2 t⟩
    · have hmeans := hblock.judged
      rw [hjudge] at hmeans
      exact .inr ⟨own, _, hblock.onto hmeans.1 hmeans.2 t⟩
  · refine ⟨.one hpeek, hcontents (Token.isEnd_of_isMark hbrace), hmacroStyle, hcount', ?_⟩
    rcases hplace with ⟨before, hown⟩ | ⟨own, before, hblock⟩
    · have hmeans := hown.judged
      rw [hjudge] at hmeans
      exact .inr ⟨_, [], hown.enter (hmacroStyle.symm.trans hstyle) hround hmeans hbrace⟩
    · -- behind a block no other begins
      rw [hblock.brackets] at hround
      cases hround

theorem filter_content (hcontent : ∀ t ∈ taken, t.isEnd = false) :
    taken.filter (!·.isEnd) = taken := by
  apply List.filter_eq_self.mpr
  intro t ht
  rw [hcontent t ht]
  rfl

/-- A declaration that ends at its token. -/
theorem InOwn.division (h : InOwn first taken st before) (hreads : Reads first taken st)
    (hdepth : depthOf (bodyBrackets first) (before ++ [st.token]) = some 0)
    (hstops : Stops (bodyBrackets first) before st.token)
    (hfound : st.outcome.foundBody = true ↔
      ∃ t ∈ before ++ [st.token], t.isMark (bodyBrackets first).1 = true) :
    Division first taken st.outcome (before ++ [st.token]) [] [] [] where
  parts := by rw [filter_content hreads.content, h.tokens]; simp
  complete := h.running.complete hdepth
  ends := .inl ⟨before, st.token, rfl, hstops⟩
  block := .inl rfl
  name := .inl rfl
  semicolons := by simp
  foundBody := hfound
  macroStyle := hreads.macroStyle
  tokensSkipped := by rw [filter_content hreads.content]; exact hreads.count

/-- A declaration that ends with the stream. -/
theorem InOwn.division_mark (h : InOwn first taken st before) (hreads : Reads first taken st)
    {mark : Token} (hmark : mark.isEnd = true)
    (hdepth : depthOf (bodyBrackets first) (before ++ [st.token]) = some 0) :
    Division first (taken ++ [mark]) (st.past 0).outcome (before ++ [st.token]) [] [] [] := by
  have hfilter : (taken ++ [mark]).filter (!·.isEnd) = taken := by
    simp [filter_content hreads.content, hmark]
  exact {
    parts := by rw [hfilter, h.tokens]; simp
    complete := h.running.complete hdepth
    ends := .inr ⟨mark, [], by rw [← List.cons_append, h.tokens], hmark⟩
    block := .inl rfl
    name := .inl rfl
    semicolons := by simp
    foundBody := h.found 0
    macroStyle := hreads.macroStyle
    tokensSkipped := by rw [hfilter]; exact hreads.count }

/-- A macro with a block that ends at its token. -/
theorem InBlock.division (h : InBlock first taken st own before) (hreads : Reads first taken st)
    (hdepth : depthOf ('{', '}') (before ++ [st.token]) = some 0) :
    Division first taken st.outcome own (before ++ [st.token]) [] [] := by
  obtain ⟨u, rest, hbegin, hu⟩ := h.begins
  obtain ⟨inner, t, hlast, hround, hstops⟩ := h.closed
  exact {
    parts := by rw [filter_content hreads.content, h.tokens]; simp
    complete := h.complete
    ends := .inl ⟨inner, t, hlast, hstops⟩
    block := .inr ⟨h.macroStyle, ⟨inner, t, hlast, hround⟩, ⟨[], by rw [h.tokens, List.append_nil]⟩,
      h.running.block hdepth hu hbegin⟩
    name := .inl rfl
    semicolons := by simp
    foundBody := iff_of_true h.foundBody h.opened
    macroStyle := hreads.macroStyle
    tokensSkipped := by rw [filter_content hreads.content]; exact hreads.count }

/-- At the last turn the declaration is complete, with the block of a macro.  Only an end mark is taken
then. -/
theorem Reads.finish (h : Reads first taken st) (hturn : st.turn.Ends x (.inr o) x') :
    ∃ more own block, x.stream.Consumes more x'.stream ∧ (∀ t ∈ more, t.isEnd = true) ∧
      Division first (taken ++ more) o own block [] [] := by
  rcases h.place with ⟨before, hown⟩ | ⟨own, before, hblock⟩
  · have hmeans := hown.judged
    obtain ⟨t, hjudge, hpeek, rfl, hend, rfl⟩ | ⟨hjudge | hjudge, hconsumes, rfl⟩ := turn_inr hturn <;>
      rw [hjudge] at hmeans
    · exact ⟨[t], _, [], .take hpeek, by simpa using hend, hown.division_mark h hend hmeans.1⟩
    · obtain ⟨-, hclose, hdepth⟩ := hmeans
      have hfound := hown.found_of_mark (opening_ne_closing first) hclose
      refine ⟨[], before ++ [st.token], [], hconsumes, by simp, ?_⟩
      rw [List.append_nil]
      exact hown.division h hdepth (.inr ⟨hclose, hdepth⟩) hfound
    · obtain ⟨hzero, hsemicolon, hdepth⟩ := hmeans
      have houtside := hown.running.depth
      rw [hzero] at houtside
      have hfound := hown.found_of_mark (opening_ne_semicolon first) hsemicolon
      refine ⟨[], before ++ [st.token], [], hconsumes, by simp, ?_⟩
      rw [List.append_nil]
      exact hown.division h hdepth (.inl ⟨houtside, hsemicolon⟩) hfound
  · -- a block is left by its last brace only
    have hmeans := hblock.judged
    obtain ⟨t, hjudge, -, -, -, -⟩ | ⟨hjudge | hjudge, hconsumes, rfl⟩ := turn_inr hturn <;>
      rw [hjudge] at hmeans
    · obtain ⟨u, rest, hbegin, hu⟩ := hblock.begins
      have hrunning := hblock.running.snoc hmeans.2 hmeans.1
      rw [hbegin] at hrunning
      exact absurd rfl (hrunning.inside hu)
    · refine ⟨[], own, before ++ [st.token], hconsumes, by simp, ?_⟩
      rw [List.append_nil]
      exact hblock.division h hmeans.2.2
    · rcases hblock.depth with hdepth | hopen
      · exact absurd hmeans.1 hdepth
      · cases Token.eq_of_isMark hopen hmeans.2.1

/-- Only a bracket of the declaration itself is found unbalanced. -/
theorem Reads.refused (h : Reads first taken st)
    (hjudge : judge st.brackets st.depth st.token = .refused) :
    ∃ before, InOwn first taken st before ∧ st.depth = 0 ∧
      st.token.isMark (bodyBrackets first).2 = true := by
  rcases h.place with ⟨before, hown⟩ | ⟨own, before, hblock⟩
  · have hmeans := hown.judged
    rw [hjudge] at hmeans
    exact ⟨before, hown, hmeans.1, hmeans.2.1⟩
  · have hmeans := hblock.judged
    rw [hjudge] at hmeans
    rcases hblock.depth with hdepth | hopen
    · exact absurd hmeans.1 hdepth
    · cases Token.eq_of_isMark hopen hmeans.2.1

end

end Grammar

end HeaderLex
