import HeaderLex.Proofs.SkippedDeclarations

/-!
# Markup in skipped declarations

Markup gets lost when a declaration is skipped, so whoever skips is warned of it.  The warnings are
raised where the turns of the loop look at their tokens: one for every reflection macro in the
declaration and the block behind it, in order.  The name of an instance is taken without a look, so
there a macro gets lost unreported.

* `Notes`                 a sink that notes what it is warned of;
* `KeepsUser`             a parser that raises no warnings;
* `skipBody_notes`        the warnings of the loop are those of the tokens it looked at;
* `skipped_macros_reported_iff`   when exactly all skipped macros are reported.
-/

namespace HeaderLex

open HeaderLex.Operation HeaderLex.Parser HeaderLex.Grammar

/-- The token is the name of a reflection macro. -/
def Token.isReflectionMacro (t : Token) : Bool :=
  t.isIdentifier && Keyword.isReflectionMacro t.value

namespace Grammar

variable {υ α : Type}

/-! ## warnings and their sinks -/

/-- A sink that notes what it is warned of, and does nothing else to a session. -/
structure Notes (warn : Warning → Parser υ Unit) (noted : υ → List Warning) : Prop where
  quiet : Quiet warn
  adds : ∀ w x, noted (warn w x).state.user = noted x.user ++ [w]

/-- A list of warnings that each new one is put behind. -/
theorem notes_collect :
    Notes (fun w => Parser.modifyUser (· ++ [w]) : Warning → Parser (List Warning) Unit) id :=
  ⟨fun _ _ => ⟨rfl, rfl⟩, fun _ _ => rfl⟩

theorem skipWarning?_eq_none {t : Token} (h : t.isReflectionMacro = false) : skipWarning? t = none := by
  rw [skipWarning?, if_neg (by rw [← Token.isReflectionMacro, h]; decide)]

/-- The warnings that tokens with reflection macros among them call for: one for each, in order, at
its place. -/
def macroWarnings (ts : List Token) : List (Code × Position) :=
  (ts.filter Token.isReflectionMacro).map fun t => (Code.reflectionMacroSkipped, t.start)

theorem macroWarnings_eq_nil {ts : List Token} :
    macroWarnings ts = [] ↔ ∀ t ∈ ts, t.isReflectionMacro = false := by
  unfold macroWarnings
  rw [List.map_eq_nil_iff, List.filter_eq_nil_iff]
  simp only [Bool.not_eq_true]

/-- The warnings about tokens say where their reflection macros stand. -/
theorem skipWarnings_places (ts : List Token) :
    (ts.filterMap skipWarning?).map (fun w => (w.code, w.position)) =
      macroWarnings ts := by
  unfold macroWarnings
  induction ts with
  | nil => rfl
  | cons t ts ih =>
    by_cases ht : t.isReflectionMacro = true
    · have hwarning : skipWarning? t = some ⟨Code.reflectionMacroSkipped,
          s!"'{t.value}' ignored while skipping an unrecognized declaration", t.start⟩ := if_pos ht
      rw [List.filterMap_cons_some hwarning, List.filter_cons_of_pos ht, List.map_cons, List.map_cons, ih]
    · rw [List.filterMap_cons_none (skipWarning?_eq_none (eq_false_of_ne_true ht)),
        List.filter_cons_of_neg ht, ih]

/-- Only identifiers call for warnings. -/
theorem skipWarning?_other {t : Token} (h : ¬ t.isIdentifier = true) : skipWarning? t = none := by
  apply skipWarning?_eq_none
  rw [Token.isReflectionMacro, eq_false_of_ne_true h, Bool.false_and]

theorem skipWarning?_end {t : Token} (h : t.isEnd = true) : skipWarning? t = none := by
  apply skipWarning?_other
  intro hidentifier
  rw [Token.isEnd_of_isIdentifier hidentifier] at h
  cases h

theorem skipWarnings_content (ts : List Token) :
    (ts.filter (!·.isEnd)).filterMap skipWarning? = ts.filterMap skipWarning? := by
  induction ts with
  | nil => rfl
  | cons t ts ih =>
    by_cases ht : t.isEnd = true
    · rw [List.filterMap_cons_none (skipWarning?_end ht), ← ih,
        List.filter_cons_of_neg (by rw [ht]; decide)]
    · rw [List.filter_cons_of_pos (by rw [eq_false_of_ne_true ht]; rfl), List.filterMap_cons,
        List.filterMap_cons, ih]

/-! ## parsers that raise no warnings -/

/-- The parser leaves the caller's own state alone. -/
def KeepsUser (p : Parser υ α) : Prop := ∀ x, (p x).state.user = x.user

namespace KeepsUser

variable {β γ : Type}

theorem pure (a : α) : KeepsUser (Pure.pure a : Parser υ α) := fun _ => rfl

theorem refuse (e : SourceError) : KeepsUser (Operation.refuse e : Parser υ α) := fun _ => rfl

theorem onStream (f : Stream → Outcome Stream α) : KeepsUser (Parser.onStream f : Parser υ α) :=
  fun _ => rfl

theorem bind {p : Parser υ α} {f : α → Parser υ β} (hp : KeepsUser p) (hf : ∀ a, KeepsUser (f a)) :
    KeepsUser (p >>= f) := by
  intro x
  cases h : (p x).result with
  | ok a =>
    rw [bind_of_ok h]
    exact (hf a _).trans (hp x)
  | error e =>
    rw [bind_of_error h]
    exact hp x

theorem next : KeepsUser (Parser.next : Parser υ Token) :=
  bind (onStream _) fun _ => bind (onStream _) fun _ => pure _

theorem loop {body : β → Parser υ (β ⊕ γ)} (hbody : ∀ b, KeepsUser (body b)) (b : β) :
    KeepsUser (Parser.loop body b) := by
  have hturns : ∀ turns b, KeepsUser (repeatFor body turns b) := by
    intro turns
    induction turns with
    | zero => exact fun _ _ => rfl
    | succ turns ih =>
      intro b
      apply bind (hbody b)
      rintro (b' | c)
      · exact ih b'
      · exact pure c
  exact fun x => hturns _ b x

theorem skipOn (st : SkipState) : KeepsUser (Grammar.skipOn st : Parser υ (SkipState ⊕ SkipOutcome)) := by
  apply bind next
  intro t
  split
  · split
    · exact refuse _
    · exact pure _
  · exact pure _

theorem skipClosed (st : SkipState) :
    KeepsUser (Grammar.skipClosed st : Parser υ (SkipState ⊕ SkipOutcome)) := by
  unfold Grammar.skipClosed
  split
  · apply bind (onStream _)
    intro t
    split
    · exact bind next fun _ => pure _
    · exact pure _
  · exact pure _

theorem turn (st : SkipState) : KeepsUser (st.turn : Parser υ (SkipState ⊕ SkipOutcome)) := by
  unfold SkipState.turn
  split
  · exact skipOn _
  · exact refuse _
  · exact skipClosed _
  · exact pure _

theorem skipInstance : KeepsUser (Grammar.skipInstance : Parser υ Nat) := by
  apply bind (onStream _)
  intro _
  apply bind next
  intro name
  have hback : KeepsUser (do Parser.restore; return 0 : Parser υ Nat) :=
    bind (onStream _) fun _ => pure _
  split
  · apply bind (onStream _)
    intro t
    split
    · exact bind (onStream _) fun _ => bind (onStream _) fun _ => pure _
    · exact hback
  · exact hback

theorem tryMark (c : Char) : KeepsUser (Grammar.tryMark c : Parser υ Bool) := by
  apply bind _ fun _ => pure _
  apply bind (onStream _)
  intro t
  split
  · exact bind (onStream _) fun _ => pure _
  · exact pure _

theorem skipSemicolons (count : Nat) : KeepsUser (Grammar.skipSemicolons count : Parser υ Nat) := by
  apply loop
  intro count
  apply bind (tryMark ';')
  intro found
  split <;> exact pure _

theorem skipRest (first : Token) (o : SkipOutcome) (taken : Nat) :
    KeepsUser (Grammar.skipRest first o taken : Parser υ SkipOutcome) :=
  bind (skipSemicolons _) fun _ => bind (fun _ => rfl) fun _ => pure _

end KeepsUser

/-! ## the warnings of the loop -/

section

variable {first : Token} {warn : Warning → Parser υ Unit} {noted : υ → List Warning}
  (hnotes : Notes warn noted) {x x' : Session υ}
include hnotes

/-- A turn notes the warning about its token. -/
theorem skipTurn_notes (st : SkipState) (x : Session υ) :
    noted (skipTurn warn st x).state.user = noted x.user ++ (skipWarning? st.token).toList := by
  rw [skipTurn_eq]
  cases skipWarning? st.token with
  | none =>
    rw [Option.toList_none, List.append_nil]
    exact congrArg noted (KeepsUser.turn st x)
  | some w =>
    have hok := (hnotes.quiet w x).1
    dsimp only
    rw [bind_of_ok hok]
    show noted (st.turn (warn w x).state).state.user = _
    rw [KeepsUser.turn st (warn w x).state, hnotes.adds w x]
    rfl

/-- The loop has noted the warnings about the declaration and its block. -/
theorem skipBody_notes {o : SkipOutcome} (h : (skipBody first warn).Ends x o x') :
    ∃ taken own block, x.stream.Consumes taken x'.stream ∧ Division first taken o own block [] [] ∧
      noted x'.user = noted x.user ++ (own ++ block).filterMap skipWarning? := by
  -- what lies before the token of the state has been looked at
  let Goes (taken : List Token) (st : SkipState) (y : Session υ) : Prop :=
    Reads first taken st ∧ ∃ seen, first :: taken = seen ++ [st.token] ∧
      noted y.user = noted x.user ++ seen.filterMap skipWarning?
  have hlook : ∀ {seen taken st} {y y' : Session υ} {a}, first :: taken = seen ++ [st.token] →
      noted y.user = noted x.user ++ seen.filterMap skipWarning? → (skipTurn warn st).Ends y a y' →
      noted y'.user = noted x.user ++ (first :: taken).filterMap skipWarning? := by
    rintro seen taken st y y' a hseen hnoted ⟨-, rfl⟩
    rw [skipTurn_notes hnotes, hnoted, hseen, List.filterMap_append, List.append_assoc]
    cases hw : skipWarning? st.token <;> simp [hw]
  have hmore : ∀ taken st st' (y y' : Session υ), Goes taken st y →
      (skipTurn warn st).Ends y (.inl st') y' →
      ∃ ts, y.stream.Takes ts y'.stream ∧ Goes (taken ++ ts) st' y' := by
    rintro taken st st' y y' ⟨hreads, seen, hseen, hnoted⟩ hturn
    obtain ⟨z, hstream, hz⟩ := skipTurn_ends hnotes.quiet hturn
    obtain ⟨htakes, hreads'⟩ := hreads.turn hz
    rw [hstream] at htakes
    exact ⟨_, htakes, hreads', first :: taken, rfl, hlook hseen hnoted hturn⟩
  have hbegin : Goes [] (.begin first) x := ⟨reads_begin first, [], rfl, (List.append_nil _).symm⟩
  obtain ⟨ts, st, y, htaken, ⟨hreads, seen, hseen, hnoted⟩, hlast⟩ := repeatFor_ends hmore hbegin h
  obtain ⟨z, hstream, hz⟩ := skipTurn_ends hnotes.quiet hlast
  obtain ⟨more, own, block, hconsumes, hends, hdivision⟩ := hreads.finish hz
  rw [hstream] at hconsumes
  refine ⟨ts ++ more, own, block, htaken.consumes.trans hconsumes, hdivision, ?_⟩
  have hnone : more.filterMap skipWarning? = [] :=
    List.filterMap_eq_nil_iff.mpr fun t ht => skipWarning?_end (hends t ht)
  have hparts := hdivision.parts
  rw [List.append_nil, List.append_nil] at hparts
  rw [hlook hseen hnoted hlast, ← hparts, List.filterMap_cons, List.filterMap_cons,
    skipWarnings_content, List.nil_append, List.filterMap_append, hnone, List.append_nil]

end

/-! ## whole declarations -/

theorem skipWarning?_mark {t : Token} {c : Char} (h : t.isMark c = true) : skipWarning? t = none := by
  apply skipWarning?_other
  intro hidentifier
  simp only [Token.isMark, Token.isSymbol, Bool.and_eq_true, beq_iff_eq] at h
  simp only [Token.isIdentifier, beq_iff_eq] at hidentifier
  cases h.1.symm.trans hidentifier

/-- The warnings for all tokens of a declaration are those for the declaration and its block, and those
for the name of an instance. -/
theorem skipWarnings_division {first : Token} {taken own block name semicolons : List Token}
    {o : SkipOutcome} (h : Division first taken o own block name semicolons) :
    (first :: taken).filterMap skipWarning? =
      (own ++ block).filterMap skipWarning? ++ name.filterMap skipWarning? := by
  have hnone : semicolons.filterMap skipWarning? = [] :=
    List.filterMap_eq_nil_iff.mpr fun t ht => skipWarning?_mark (h.semicolons t ht)
  have hparts := congrArg (List.filterMap skipWarning?) h.parts
  rw [List.filterMap_append, List.filterMap_append, hnone, List.append_nil] at hparts
  rw [← hparts, List.filterMap_cons, List.filterMap_cons, skipWarnings_content]

theorem KeepsUser.skipBehind (first : Token) (o : SkipOutcome) :
    KeepsUser (Grammar.skipBehind first o : Parser υ SkipOutcome) := by
  unfold Grammar.skipBehind
  split
  · exact bind skipInstance fun _ => skipRest _ _ _
  · exact bind (pure 0) fun _ => skipRest _ _ _

/-- A result of skipping comes with the warnings, one each and in order, at the reflection macros of
the declaration and of the block behind it.  These are the macros of all tokens that are skipped
exactly if the name of an instance, where one is taken, holds none. -/
theorem skipped_macros_reported_iff (first : Token) {warn : Warning → Parser υ Unit}
    {noted : υ → List Warning} (hnotes : Notes warn noted) (x : Session υ) {o : SkipOutcome}
    (hok : (skipDeclaration first warn x).result = .ok o) :
    let r := skipDeclaration first warn x
    ∃ taken own block name semicolons raised, x.stream.Consumes taken r.state.stream ∧
      Division first taken o own block name semicolons ∧
      noted r.state.user = noted x.user ++ raised ∧
      raised.map (fun w => (w.code, w.position)) = macroWarnings (own ++ block) ∧
      (raised.map (fun w => (w.code, w.position)) = macroWarnings (first :: taken) ↔
        ∀ t ∈ name, t.isReflectionMacro = false) := by
  intro r
  have hends : (skipBody first warn >>= skipBehind first).Ends x o r.state := by
    rw [← skipDeclaration_eq]
    exact ⟨hok, rfl⟩
  obtain ⟨body, y, hbody, hbehind⟩ := ends_bind.mp hends
  obtain ⟨taken, own, block, hconsumes, hdivision, hnoted⟩ := skipBody_notes hnotes hbody
  obtain ⟨name, semicolons, t, hconsumes', hdivision', -, -⟩ := skipBehind_ends hdivision hbehind
  have huser : r.state.user = y.user := by
    rw [← hbehind.2]
    exact KeepsUser.skipBehind first body y
  refine ⟨_, own, block, name, semicolons, _, hconsumes.trans hconsumes', hdivision',
    huser ▸ hnoted, skipWarnings_places _, ?_⟩
  rw [← skipWarnings_places (first :: _), skipWarnings_division hdivision', List.map_append,
    List.self_eq_append_right, skipWarnings_places, macroWarnings_eq_nil]

/-- The macro behind a class body is skipped, and nobody is warned of it. -/
theorem skipped_macros_reported_sample :
    let first : Token := ⟨.identifier, "class", ⟨0, 1⟩, ⟨0, 1⟩⟩
    let lx := ((Lexer.ofSource "class X \x7b\x7d UCLASS;" ⟨true, false, false, true⟩).withPreprocessor
      none).run [.next, .startRecording]
    let warn : Warning → Parser (List Warning) Unit := fun w => Parser.modifyUser (· ++ [w])
    let x : Session (List Warning) := ⟨.live lx, .empty, []⟩
    let r := skipDeclaration first warn x
    Notes warn id ∧ r.result = .ok ⟨true, false, 6⟩ ∧
    ∃ taken own block name semicolons raised, x.stream.Consumes taken r.state.stream ∧
      Division first taken ⟨true, false, 6⟩ own block name semicolons ∧
      id r.state.user = id x.user ++ raised ∧ raised = [] ∧
      macroWarnings (first :: taken) = [(Code.reflectionMacroSkipped, ⟨11, 1⟩)] ∧
      ¬ ∀ t ∈ name, t.isReflectionMacro = false := by
  intro first lx warn x r
  have hok : r.result = .ok ⟨true, false, 6⟩ := ok_of_toOption (by decide +kernel)
  have huser : r.state.user = [] := by decide +kernel
  have hrecording : lx.recording = true := by decide +kernel
  have hbefore : lx.recorded = [] := by decide +kernel
  obtain ⟨taken, own, block, name, semicolons, raised, hconsumes, hdivision, hnoted, -, hexact⟩ :=
    skipped_macros_reported_iff first notes_collect x hok
  obtain rfl : raised = [] := (hnoted.symm.trans huser : id x.user ++ raised = [])
  obtain ⟨lx', hlive, hrecords⟩ := hconsumes.records rfl hrecording
  have hmacros : macroWarnings (first :: taken) = [(Code.reflectionMacroSkipped, ⟨11, 1⟩)] := by
    have hcomputed : macroWarnings (first :: r.state.stream.recorded)
        = [(Code.reflectionMacroSkipped, ⟨11, 1⟩)] := by
      decide +kernel
    have htaken : lx'.recorded = taken := by
      rw [hrecords.recorded, hbefore, List.nil_append]
    rw [hlive] at hcomputed
    rw [← htaken]
    exact hcomputed
  refine ⟨notes_collect, hok, taken, own, block, name, semicolons, [], hconsumes, hdivision, hnoted, rfl,
    hmacros, fun hnone => ?_⟩
  have hequal := hexact.mpr hnone
  rw [hmacros] at hequal
  cases hequal

end Grammar

end HeaderLex
