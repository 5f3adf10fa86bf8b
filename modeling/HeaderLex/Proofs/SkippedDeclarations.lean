import HeaderLex.Proofs.SkipTurns
import HeaderLex.Proofs.Stranding

/-!
# Skipped declarations

Skipping a declaration takes its tokens off the stream and stops at the end of it.  What is taken is
the declaration itself, the block of a macro, the name of an instance of a class, and semicolons, so
that something else comes next.  It fails with an unbalanced bracket where the declaration runs into
a bracket that is not open, and nowhere else.

* `RunsInto`          a declaration runs into a bracket that is not open;
* `skipBody_ends`, `skipBody_refuses_iff`   the turns of the loop, from what one turn keeps;
* `skipInstance_ends`, `skipSemicolons_ends`   what is taken behind it;
* `skipDeclaration_extent`   whole declarations.
-/

namespace HeaderLex

open HeaderLex.Operation HeaderLex.Parser HeaderLex.Grammar

namespace Grammar

variable {υ : Type}

/-! ## the body -/

/-- The declaration that begins with `first` runs over content tokens of the stream into the bracket
`c` at `p`, which closes one of its own brackets while none is open. -/
def RunsInto (first : Token) (s : Stream) (c : Char) (p : Position) : Prop :=
  ∃ taken s' before t, s.Takes taken s' ∧ (∀ u ∈ taken, u.isEnd = false) ∧
    first :: taken = before ++ [t] ∧ Running (bodyBrackets first) before 0 ∧
    t.isMark (bodyBrackets first).2 = true ∧ c = (bodyBrackets first).2 ∧ p = t.start

section

variable {first : Token} {warn : Warning → Parser υ Unit} (hwarn : Quiet warn) {x x' : Session υ}
include hwarn

theorem skipTurn_ends {st : SkipState} {a : SkipState ⊕ SkipOutcome}
    (h : (skipTurn warn st).Ends x a x') :
    ∃ y : Session υ, y.stream = x.stream ∧ st.turn.Ends y a x' := by
  obtain ⟨y, hstream, hresult, hstate⟩ := skipTurn_warned hwarn st x
  exact ⟨y, hstream, hresult.symm.trans h.1, hstate.symm.trans h.2⟩

/-- Every turn keeps what the state says of the tokens taken so far. -/
theorem reads_skipTurn {taken : List Token} {st st' : SkipState} (h : Reads first taken st)
    (hturn : (skipTurn warn st).Ends x (.inl st') x') :
    ∃ ts, x.stream.Takes ts x'.stream ∧ Reads first (taken ++ ts) st' := by
  obtain ⟨y, hstream, hy⟩ := skipTurn_ends hwarn hturn
  rw [← hstream]
  exact ⟨_, h.turn hy⟩

theorem skipBody_ends {o : SkipOutcome} (h : (skipBody first warn).Ends x o x') :
    ∃ taken own block, x.stream.Consumes taken x'.stream ∧ Division first taken o own block [] [] := by
  let Goes (taken : List Token) (st : SkipState) (_ : Session υ) : Prop := Reads first taken st
  have hbegin : Goes [] (.begin first) x := reads_begin first
  obtain ⟨ts, st, y, htaken, hreads, hlast⟩ :=
    repeatFor_ends (fun _ _ _ _ _ => reads_skipTurn hwarn) hbegin h
  obtain ⟨z, hstream, hz⟩ := skipTurn_ends hwarn hlast
  obtain ⟨more, own, block, hconsumes, -, hdivision⟩ := hreads.finish hz
  rw [hstream] at hconsumes
  exact ⟨ts ++ more, own, block, htaken.consumes.trans hconsumes, hdivision⟩

/-- A bracket that was not open is closed behind tokens on which the declaration runs. -/
theorem skipBody_refuses {c : Char} {p : Position}
    (hscript : ∀ place, ¬ MayRefuse x.stream.answers place ⟨.unbalancedBracket c, p⟩)
    (h : (skipBody first warn x).result = .error (.source ⟨.unbalancedBracket c, p⟩)) :
    RunsInto first x.stream c p := by
  let Goes (taken : List Token) (st : SkipState) (_ : Session υ) : Prop := Reads first taken st
  have hbegin : Goes [] (.begin first) x := reads_begin first
  obtain ⟨ts, st, y, htaken, hreads, hfails⟩ :=
    repeatFor_fails (fun _ _ _ _ _ => reads_skipTurn hwarn) hbegin h
  obtain ⟨z, hstream, hresult, -⟩ := skipTurn_warned hwarn st y
  have hlater : z.stream.answers ⊆ x.stream.answers := hstream ▸ htaken.consumes.reaches.answers
  obtain ⟨hjudge, hc, hp⟩ :=
    turn_refuses (fun q hq => hscript q (hq.mono hlater)) (hresult.symm.trans hfails)
  obtain ⟨before, hown, hdepth, hclose⟩ := hreads.refused hjudge
  have hrunning := hown.running
  rw [hdepth] at hrunning
  rw [hown.brackets] at hc
  exact ⟨ts, y.stream, before, st.token, htaken, hreads.content, hown.tokens, hrunning, hclose, hc, hp⟩

/-- While the declaration runs, a turn takes the next token. -/
theorem skipTurn_goesOn {taken before : List Token} {st : SkipState} (hown : InOwn first taken st before)
    {depth : Nat} (hrunning : Running (bodyBrackets first) (before ++ [st.token]) depth) {u : Token}
    (hpeek : x.stream.peek.result = .ok u) (hend : u.isEnd = false) :
    ∃ z, (skipTurn warn st).Ends x (.inl ((st.past depth).onto u)) z ∧
      z.stream = x.stream.peek.state.consume.state := by
  obtain ⟨y, hstream, hresult, hstate⟩ := skipTurn_warned hwarn st x
  have hjudge : judge st.brackets st.depth st.token = .goesOn depth := by
    rw [hown.brackets]
    exact judge_of_goesOn (opening_ne_semicolon first) hown.running.depth hrunning.depth
      (hrunning.goesOn before st.token [] rfl)
  rw [← hstream] at hpeek ⊢
  have hturn : st.turn.Ends y (.inl ((st.past depth).onto u))
      { y with stream := y.stream.peek.state.consume.state } := by
    unfold SkipState.turn
    rw [hjudge]
    exact skipOn_ends.mpr ⟨u, hpeek, rfl, .inr ⟨hend, rfl⟩⟩
  exact ⟨_, ⟨hresult.trans hturn.1, hstate.trans hturn.2⟩, rfl⟩

/-- While the declaration runs over tokens that can be taken, so do the turns; at a bracket that is not
open they end with an error. -/
theorem repeatFor_refuses {taken before ts mid : List Token} {st : SkipState} {t : Token} {s : Stream}
    {turns : Nat} (hown : InOwn first taken st before) (htakes : x.stream.Takes ts s)
    (hcontent : ∀ u ∈ ts, u.isEnd = false) (htokens : st.token :: ts = mid ++ [t])
    (hrunning : Running (bodyBrackets first) (before ++ mid) 0)
    (hclose : t.isMark (bodyBrackets first).2 = true) (hturns : ts.length < turns) :
    (repeatFor (skipTurn warn) turns st x).result
      = .error (.source ⟨.unbalancedBracket (bodyBrackets first).2, t.start⟩) := by
  induction ts generalizing taken before mid st x turns with
  | nil =>
    obtain ⟨turns, rfl⟩ := Nat.exists_eq_add_one_of_ne_zero (Nat.ne_of_gt hturns)
    obtain ⟨rfl, htoken⟩ := List.append_inj' (show [] ++ [st.token] = mid ++ [t] from htokens) rfl
    obtain rfl := List.singleton_inj.mp htoken
    rw [List.append_nil] at hrunning
    have hdepth : st.depth = 0 := Option.some.inj (hown.running.depth.symm.trans hrunning.depth)
    obtain ⟨y, -, hresult, -⟩ := skipTurn_warned hwarn st x
    apply fails_bind.mpr
    left
    rw [hresult, ← hown.brackets]
    apply turn_refused
    rw [hown.brackets, hdepth]
    exact judge_of_unopened (opening_ne_closing first) hclose
  | cons u ts ih =>
    obtain ⟨turns, rfl⟩ := Nat.exists_eq_add_one_of_ne_zero (Nat.ne_of_gt (Nat.zero_lt_of_lt hturns))
    obtain ⟨hend, hcontent⟩ := List.forall_mem_cons.mp hcontent
    cases htakes with
    | cons hpeek htakes =>
      cases mid with
      | nil => simp at htokens
      | cons v mid =>
        obtain ⟨rfl, hlater⟩ := List.cons.inj htokens
        rw [List.append_cons] at hrunning
        obtain ⟨depth, hbefore⟩ := hrunning.initial
        obtain ⟨z, hturn, hstream⟩ := skipTurn_goesOn hwarn hown hbefore hpeek hend
        apply fails_bind.mpr
        right
        refine ⟨_, z, hturn, ?_⟩
        rw [← hstream] at htakes
        have hgo := hbefore.goesOn before st.token [] rfl
        exact ih (hown.onto hbefore.depth hgo u) htakes hcontent hlater hrunning
          (Nat.lt_of_succ_lt_succ hturns)

/-- The body ends with an unbalanced bracket exactly where it runs into one. -/
theorem skipBody_refuses_iff (hsound : x.stream.Sound) {c : Char} {p : Position}
    (hscript : ∀ place, ¬ MayRefuse x.stream.answers place ⟨.unbalancedBracket c, p⟩) :
    (skipBody first warn x).result = .error (.source ⟨.unbalancedBracket c, p⟩) ↔
      RunsInto first x.stream c p := by
  constructor
  · exact skipBody_refuses hwarn hscript
  · rintro ⟨taken, s, before, t, htakes, hcontent, htokens, hrunning, hclose, rfl, rfl⟩
    exact repeatFor_refuses hwarn (inOwn_begin first) htakes hcontent htokens hrunning hclose
      (htakes.length_lt_budget hsound hcontent)

end

/-! ## behind the body -/

section

variable {x x' : Session υ}

/-- One turn over the semicolons. -/
def semicolonTurn (count : Nat) : Parser υ (Nat ⊕ Nat) := do
  if ← tryMark ';' then return .inl (count + 1) else return .inr count

theorem semicolonTurn_ends {count : Nat} {a : Nat ⊕ Nat} (h : (semicolonTurn count).Ends x a x') :
    ∃ t, x.stream.peek.result = .ok t ∧
      (t.isMark ';' = true ∧ a = .inl (count + 1) ∧ x'.stream = x.stream.peek.state.consume.state ∨
        t.isMark ';' = false ∧ a = .inr count ∧ x'.stream = x.stream.peek.state) := by
  obtain ⟨found, y, htry, h⟩ := ends_bind.mp h
  obtain ⟨t, hpeek, rfl, hstream⟩ := tryMark_ends htry
  refine ⟨t, hpeek, ?_⟩
  split at h
  · next hmark =>
    obtain ⟨rfl, rfl⟩ := ends_pure.mp h
    rw [if_pos hmark] at hstream
    exact .inl ⟨hmark, rfl, hstream⟩
  · next hmark =>
    obtain ⟨rfl, rfl⟩ := ends_pure.mp h
    rw [if_neg hmark] at hstream
    exact .inr ⟨eq_false_of_ne_true hmark, rfl, hstream⟩

/-- All semicolons are taken: another token comes next. -/
theorem skipSemicolons_ends {count n : Nat} (h : (skipSemicolons count).Ends x n x') :
    ∃ ts t, x.stream.Consumes ts x'.stream ∧ (∀ u ∈ ts, u.isMark ';' = true) ∧ n = count + ts.length ∧
      x'.stream.peek.result = .ok t ∧ t.isMark ';' = false := by
  let Counts (ts : List Token) (n : Nat) (_ : Session υ) : Prop :=
    (∀ u ∈ ts, u.isMark ';' = true) ∧ n = count + ts.length
  have hmore : ∀ ts n n' (x x' : Session υ), Counts ts n x → (semicolonTurn n).Ends x (.inl n') x' →
      ∃ us, x.stream.Takes us x'.stream ∧ Counts (ts ++ us) n' x' := by
    rintro ts n n' x x' ⟨hmarks, rfl⟩ hturn
    obtain ⟨t, hpeek, ⟨hmark, hn, hstream⟩ | ⟨-, hn, -⟩⟩ := semicolonTurn_ends hturn
    · rw [hstream]
      refine ⟨[t], .one hpeek, ?_, ?_⟩
      · intro u hu
        rcases List.mem_append.mp hu with hu | hu
        · exact hmarks u hu
        · rwa [List.mem_singleton.mp hu]
      · rw [Sum.inl.inj hn, List.length_append]
        rfl
    · cases hn
  have hbegin : Counts [] count x := ⟨by simp, rfl⟩
  obtain ⟨ts, n', y, htaken, ⟨hmarks, rfl⟩, hlast⟩ := repeatFor_ends hmore hbegin h
  obtain ⟨t, hpeek, ⟨-, hn, -⟩ | ⟨hmark, hn, hstream⟩⟩ := semicolonTurn_ends hlast
  · cases hn
  · refine ⟨ts, t, ?_, hmarks, Sum.inr.inj hn, ?_, hmark⟩
    · have hconsumes := htaken.consumes.trans (.look hpeek)
      rwa [List.append_nil, ← hstream] at hconsumes
    · rw [hstream, Stream.peek_again hpeek]
      rfl

/-- The name of an instance is taken with its semicolon, or else nothing is. -/
theorem skipInstance_ends {n : Nat} (h : skipInstance.Ends x n x') :
    ∃ ts, x.stream.Consumes ts x'.stream ∧ n = ts.length ∧
      (ts = [] ∨ ∃ t mark, ts = [t, mark] ∧ t.isIdentifier = true ∧ mark.isMark ';' = true) := by
  obtain ⟨⟨⟩, y, ⟨hsave, rfl⟩, h⟩ := ends_bind.mp h
  obtain ⟨name, y, hnext, h⟩ := ends_bind.mp h
  obtain ⟨hname, rfl⟩ := next_ends.mp hnext
  have hback : ∀ {z : Session υ} {us : List Token},
      (do Parser.restore; return 0 : Parser υ Nat).Ends z n x' →
      x.stream.save.state.Consumes us z.stream →
      ∃ ts, x.stream.Consumes ts x'.stream ∧ n = ts.length ∧
        (ts = [] ∨ ∃ t mark, ts = [t, mark] ∧ t.isIdentifier = true ∧ mark.isMark ';' = true) := by
    intro z us hz hus
    obtain ⟨-, w, ⟨-, rfl⟩, hw⟩ := ends_bind.mp hz
    obtain ⟨rfl, rfl⟩ := ends_pure.mp hw
    exact ⟨[], .undone hsave hus, rfl, .inl rfl⟩
  have htake : x.stream.save.state.Consumes [name] x.stream.save.state.peek.state.consume.state :=
    .take hname
  split at h
  · next hidentifier =>
    obtain ⟨mark, z, hlook, h⟩ := ends_bind.mp h
    obtain ⟨hmark, rfl⟩ := peek_ends.mp hlook
    split at h
    · next hsemicolon =>
      obtain ⟨⟨⟩, z, ⟨-, rfl⟩, h⟩ := ends_bind.mp h
      obtain ⟨⟨⟩, z, ⟨-, rfl⟩, h⟩ := ends_bind.mp h
      obtain ⟨rfl, rfl⟩ := ends_pure.mp h
      exact ⟨[name, mark], .kept hsave (htake.trans (.take hmark)), rfl,
        .inr ⟨name, mark, rfl, hidentifier, hsemicolon⟩⟩
    · exact hback h (htake.trans (.look hmark))
  · exact hback h htake

/-- What is taken behind the body are the name of an instance and semicolons. -/
theorem division_behind {first : Token} {taken own block name semicolons : List Token} {o : SkipOutcome}
    (h : Division first taken o own block [] [])
    (hname : name = [] ∨ isClassWord first = true ∧ o.foundBody = true ∧
      ∃ t mark, name = [t, mark] ∧ t.isIdentifier = true ∧ mark.isMark ';' = true)
    (hsemicolons : ∀ t ∈ semicolons, t.isMark ';' = true) :
    Division first (taken ++ name ++ semicolons)
      { o with tokensSkipped := o.tokensSkipped + name.length + semicolons.length }
      own block name semicolons := by
  have hnames : ∀ t ∈ name, t.isEnd = false := by
    rcases hname with rfl | ⟨-, -, t, mark, rfl, ht, hmark⟩
    · simp
    · simpa using ⟨Token.isEnd_of_isIdentifier ht, Token.isEnd_of_isMark hmark⟩
  have hfilter : (taken ++ name ++ semicolons).filter (!·.isEnd)
      = taken.filter (!·.isEnd) ++ name ++ semicolons := by
    rw [List.filter_append, List.filter_append, filter_content hnames,
      filter_content fun t ht => Token.isEnd_of_isMark (hsemicolons t ht)]
  exact {
    parts := by
      have hparts := h.parts
      rw [List.append_nil, List.append_nil] at hparts
      rw [hfilter, ← List.cons_append, ← List.cons_append, hparts]
    complete := h.complete
    ends := by
      refine h.ends.imp id ?_
      rintro ⟨mark, after, htokens, hmark⟩
      refine ⟨mark, after ++ (name ++ semicolons), ?_, hmark⟩
      rw [List.append_assoc, ← List.cons_append, htokens, List.append_assoc]
      rfl
    block := by
      refine h.block.imp id ?_
      rintro ⟨hstyle, hlast, ⟨after, htokens⟩, hblock⟩
      refine ⟨hstyle, hlast, ⟨after ++ (name ++ semicolons), ?_⟩, hblock⟩
      rw [List.append_assoc, ← List.cons_append, htokens, List.append_assoc, List.append_assoc]
    name := hname
    semicolons := hsemicolons
    foundBody := h.foundBody
    macroStyle := h.macroStyle
    tokensSkipped := by
      show o.tokensSkipped + name.length + semicolons.length = _
      rw [hfilter, List.length_append, List.length_append, h.tokensSkipped]
      omega }

end

/-! ## whole declarations -/

/-- What comes behind the name of an instance. -/
def skipRest (first : Token) (o : SkipOutcome) (taken : Nat) : Parser υ SkipOutcome := do
  let count ← skipSemicolons (o.tokensSkipped + taken)
  log (skipEvent first { o with tokensSkipped := count })
  return { o with tokensSkipped := count }

/-- What comes behind the body. -/
def skipBehind (first : Token) (o : SkipOutcome) : Parser υ SkipOutcome :=
  (if isClassWord first && o.foundBody then skipInstance else pure 0) >>= skipRest first o

theorem skipDeclaration_eq (first : Token) (warn : Warning → Parser υ Unit) :
    skipDeclaration first warn = skipBody first warn >>= skipBehind first := by
  unfold skipDeclaration
  apply congrArg (skipBody first warn >>= ·)
  funext o
  unfold skipBehind
  dsimp only
  split <;> rfl

/-- Behind a complete body the name of an instance is taken, and semicolons. -/
theorem skipBehind_ends {first : Token} {x x' : Session υ} {body o : SkipOutcome}
    {taken own block : List Token} (hdivision : Division first taken body own block [] [])
    (h : (skipBehind first body).Ends x o x') :
    ∃ name semicolons t, x.stream.Consumes (name ++ semicolons) x'.stream ∧
      Division first (taken ++ (name ++ semicolons)) o own block name semicolons ∧
      x'.stream.peek.result = .ok t ∧ t.isMark ';' = false := by
  obtain ⟨n, z, hinstance, h⟩ := ends_bind.mp h
  obtain ⟨count, w, hsemicolons, h⟩ := ends_bind.mp h
  obtain ⟨semicolons, t, hconsumes', hmarks, rfl, hpeek, ht⟩ := skipSemicolons_ends hsemicolons
  obtain ⟨-, v, ⟨-, rfl⟩, h⟩ := ends_bind.mp h
  obtain ⟨rfl, rfl⟩ := ends_pure.mp h
  obtain ⟨name, hconsumes, rfl, hname⟩ : ∃ name, x.stream.Consumes name z.stream ∧ n = name.length ∧
      (name = [] ∨ isClassWord first = true ∧ body.foundBody = true ∧
        ∃ t mark, name = [t, mark] ∧ t.isIdentifier = true ∧ mark.isMark ';' = true) := by
    split at hinstance
    · next hclass =>
      rw [Bool.and_eq_true] at hclass
      obtain ⟨name, hname, hn, hcases⟩ := skipInstance_ends hinstance
      exact ⟨name, hname, hn, hcases.imp id fun h => ⟨hclass.1, hclass.2, h⟩⟩
    · obtain ⟨rfl, rfl⟩ := ends_pure.mp hinstance
      exact ⟨[], .refl _, rfl, .inl rfl⟩
  have hbehind := division_behind hdivision hname hmarks
  rw [List.append_assoc] at hbehind
  exact ⟨name, semicolons, t, hconsumes.trans hconsumes', hbehind, hpeek, ht⟩

theorem skipDeclaration_ends {first : Token} {warn : Warning → Parser υ Unit} (hwarn : Quiet warn)
    {x x' : Session υ} {o : SkipOutcome} (h : (skipDeclaration first warn).Ends x o x') :
    ∃ taken own block name semicolons t, x.stream.Consumes taken x'.stream ∧
      Division first taken o own block name semicolons ∧
      x'.stream.peek.result = .ok t ∧ t.isMark ';' = false := by
  rw [skipDeclaration_eq] at h
  obtain ⟨body, y, hbody, h⟩ := ends_bind.mp h
  obtain ⟨taken, own, block, hconsumes, hdivision⟩ := skipBody_ends hwarn hbody
  obtain ⟨name, semicolons, t, hconsumes', hdivision', hpeek, ht⟩ := skipBehind_ends hdivision h
  exact ⟨taken ++ (name ++ semicolons), own, block, name, semicolons, t, hconsumes.trans hconsumes',
    hdivision', hpeek, ht⟩

/-- Behind the body nothing is found unbalanced. -/
theorem skipDeclaration_refuses {first : Token} {warn : Warning → Parser υ Unit} (hwarn : Quiet warn)
    {x : Session υ} {c : Char} {p : Position}
    (hscript : ∀ place, ¬ MayRefuse x.stream.answers place ⟨.unbalancedBracket c, p⟩) :
    (skipDeclaration first warn x).result = .error (.source ⟨.unbalancedBracket c, p⟩) ↔
      (skipBody first warn x).result = .error (.source ⟨.unbalancedBracket c, p⟩) := by
  have hrest : ∀ (o : SkipOutcome) (taken : Nat), Lexical (skipRest first o taken : Parser υ SkipOutcome) :=
    fun o taken => (Lexical.skipSemicolons _).bind fun _ => (Lexical.log _).bind fun _ => .pure _
  have hbehind : ∀ o : SkipOutcome, Lexical (skipBehind first o : Parser υ SkipOutcome) := by
    intro o
    unfold skipBehind
    split
    · exact Lexical.skipInstance.bind (hrest o)
    · exact (Lexical.pure 0).bind (hrest o)
  rw [skipDeclaration_eq]
  constructor
  · intro h
    rcases fails_bind.mp h with hbody | ⟨o, y, hends, h⟩
    · exact hbody
    · obtain ⟨taken, -, -, hconsumes, -⟩ := skipBody_ends hwarn hends
      have hlater := hconsumes.reaches.answers
      exact absurd h ((hbehind o).not_fails rfl fun q hq => hscript q (hq.mono hlater))
  · intro h
    exact fails_bind.mpr (.inl h)

/-- Skipping stops at the end of the declaration, on every lexer that stands in its source and every
replay, and with every first token.  A result means that `first` and the content tokens consumed are
the declaration in its brackets up to the first token that ends it, the block of a macro, the name of
an instance of a class and semicolons, counted one by one, and that no semicolon comes next.  A bracket
is reported as unbalanced exactly where it closes one of the declaration's own brackets while none is
open and nothing has ended the declaration, as long as this is not the error that a script answers on a
directive. -/
theorem skipDeclaration_extent (first : Token) {warn : Warning → Parser υ Unit} (hwarn : Quiet warn)
    (x : Session υ) (hsound : x.stream.Sound) :
    let r := skipDeclaration first warn x
    (∀ o, r.result = .ok o → ∃ taken own block name semicolons t,
      x.stream.Consumes taken r.state.stream ∧ Division first taken o own block name semicolons ∧
      r.state.stream.peek.result = .ok t ∧ t.isMark ';' = false) ∧
    ∀ c p, (∀ place, ¬ MayRefuse x.stream.answers place ⟨.unbalancedBracket c, p⟩) →
      (r.result = .error (.source ⟨.unbalancedBracket c, p⟩) ↔ RunsInto first x.stream c p) :=
  ⟨fun _ ho => skipDeclaration_ends hwarn ⟨ho, rfl⟩, fun _ _ hscript =>
    (skipDeclaration_refuses hwarn hscript).trans (skipBody_refuses_iff hwarn hsound hscript)⟩

/-- A macro with a block and two semicolons in a source, and a declaration with a brace too much in a
replay. -/
theorem skipDeclaration_extent_sample :
    let first : Token := ⟨.identifier, "IMPLEMENT_THING", ⟨0, 1⟩, ⟨0, 1⟩⟩
    let lx := (((Lexer.ofSource "IMPLEMENT_THING(Foo) \x7b return 1; \x7d ;; int y;"
      ⟨true, false, false, true⟩).withPreprocessor none).run [.next])
    let x : Session Unit := ⟨.live lx, .empty, ()⟩
    let r := skipDeclaration first logWarning x
    let word (text : String) : Token := ⟨.identifier, text, ⟨0, 1⟩, ⟨0, 1⟩⟩
    let mark (text : String) : Token := ⟨.symbol, text, ⟨0, 1⟩, ⟨0, 1⟩⟩
    let x' : Session Unit := ⟨.replay ⟨[word "F", mark "(", mark ")", mark "\x7d", word "int"], [],
      ⟨.endOfFile, "", ⟨0, 1⟩, ⟨0, 1⟩⟩⟩, .empty, ()⟩
    let r' := skipDeclaration (word "void") logWarning x'
    Quiet (logWarning : Warning → Parser Unit Unit) ∧ x.stream.Sound ∧ x'.stream.Sound ∧
      r.result = .ok ⟨true, true, 11⟩ ∧ (∃ taken own block name semicolons t,
        x.stream.Consumes taken r.state.stream ∧
        Division first taken ⟨true, true, 11⟩ own block name semicolons ∧
        r.state.stream.peek.result = .ok t ∧ t.isMark ';' = false) ∧
      r'.result = .error (.source ⟨.unbalancedBracket '}', ⟨0, 1⟩⟩) ∧
      RunsInto (word "void") x'.stream '}' ⟨0, 1⟩ := by
  intro first lx x r word mark x' r'
  have hwarn : Quiet (logWarning : Warning → Parser Unit Unit) := fun _ _ => ⟨rfl, rfl⟩
  have hsound : x.stream.Sound := Stream.sound_run _ _ none [.next]
  have hok : r.result = .ok ⟨true, true, 11⟩ := by decide +kernel
  have hbare : ∀ place, ¬ MayRefuse x'.stream.answers place ⟨.unbalancedBracket '}', ⟨0, 1⟩⟩ := by
    rintro place ⟨answer, hanswer, -⟩
    cases hanswer
  have hrefused : r'.result = .error (.source ⟨.unbalancedBracket '}', ⟨0, 1⟩⟩) := by decide +kernel
  exact ⟨hwarn, hsound, rfl, hok, (skipDeclaration_extent first hwarn x hsound).1 _ hok, hrefused,
    ((skipDeclaration_extent (word "void") hwarn x' rfl).2 '}' ⟨0, 1⟩ hbare).mp hrefused⟩

end Grammar

end HeaderLex
