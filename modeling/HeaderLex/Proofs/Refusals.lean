import HeaderLex.Proofs.Run

/-!
# What a script may still refuse

Conditional compilation refuses a directive for what the directive says, where it stands.  A script may
refuse one with any error.  It uses up its answers one by one and never gets them back, so at every
moment the errors that it may still give are among those it could give at first.

* `MayRefuse`                        the errors among some answers;
* `Lexer.answers`, `Stream.answers`  the answers of a script that are left;
* `stable_answers`, `answers_run`, `Reaches.answers`   no look ahead and no operation adds one.
-/

namespace HeaderLex

/-- One of the answers refuses a directive at this place with this error. -/
def MayRefuse (answers : List ScriptAnswer) (place : Position) (e : SourceError) : Prop :=
  ∃ answer ∈ answers, answer place = .error e

theorem MayRefuse.mono {answers answers' : List ScriptAnswer} {place : Position} {e : SourceError}
    (h : MayRefuse answers place e) (hsub : answers ⊆ answers') : MayRefuse answers' place e := by
  obtain ⟨answer, hmem, herror⟩ := h
  exact ⟨answer, hsub hmem, herror⟩

/-- The prepared answers that are left. -/
def Preprocessor.answers : Preprocessor → List ScriptAnswer
  | conditional _ => []
  | scripted s => s.answers

theorem Preprocessor.answers_answer (p : Preprocessor) (d : Directive) (isIncluded : Bool) :
    (p.answer d isIncluded).2.answers ⊆ p.answers := by
  cases p with
  | conditional c => exact List.nil_subset _
  | scripted s =>
    show (s.answer d isIncluded).2.answers ⊆ s.answers
    unfold Script.answer
    dsimp only [Script.note]
    split
    · exact List.Subset.refl _
    · next answer rest hanswers =>
      rw [hanswers]
      exact List.subset_cons_self answer rest

namespace Lexer

def answers (lx : Lexer) : List ScriptAnswer :=
  match lx.preprocessor with
  | none => []
  | some p => p.answers

theorem answers_of_preprocessor {lx lx' : Lexer} (h : lx'.preprocessor = lx.preprocessor) :
    lx'.answers = lx.answers := by
  unfold answers
  rw [h]

/-- Checkpoints are noted by a script and bring no answer back. -/
theorem answers_of_map {lx lx' : Lexer} {f : Preprocessor → Preprocessor}
    (h : lx'.preprocessor = lx.preprocessor.map f) (hf : ∀ p, (f p).answers = p.answers) :
    lx'.answers = lx.answers := by
  unfold answers
  rw [h]
  cases lx.preprocessor with
  | none => rfl
  | some p => exact hf p

theorem answers_verdictAt (lx : Lexer) (unget : Position) (rest : List Char) (isIncluded : Bool) :
    (lx.verdictAt unget rest isIncluded).2.answers ⊆ lx.answers := by
  have hread : (lx.readDirective unget rest).2.preprocessor = lx.preprocessor := rfl
  unfold verdictAt askPreprocessor
  rw [hread]
  cases hp : lx.preprocessor with
  | none =>
    rw [answers_of_preprocessor (hread.trans hp |>.trans hp.symm)]
    exact List.Subset.refl _
  | some p =>
    unfold answers
    rw [hp]
    exact p.answers_answer _ isIncluded

/-- A look ahead uses answers up. -/
theorem stable_answers (answers : List ScriptAnswer) : Stable (fun lx => lx.answers ⊆ answers) where
  gap h := h
  lexeme {lx} unget h := answers_of_preprocessor (preprocessor_lexAt lx unget) ▸ h
  directive {lx} unget {rest} isIncluded h _ :=
    List.Subset.trans (lx.answers_verdictAt unget rest isIncluded) h
  line {lx} h := answers_of_preprocessor (preprocessor_skipLine lx) ▸ h
  notes _ _ h := h

theorem answers_peek (lx : Lexer) : lx.peek.state.answers ⊆ lx.answers := by
  have htoken := (stable_answers lx.answers).lexToken (List.Subset.refl _)
  cases hc : lx.current with
  | some p =>
    rw [peek_of_current hc]
    exact List.Subset.refl _
  | none =>
    cases hr : lx.lexToken.result with
    | ok p =>
      rw [peek_of_lexToken hc hr]
      exact htoken
    | error f =>
      rw [peek_of_error hc hr]
      exact htoken

theorem answers_apply (lx : Lexer) (op : Op) : (lx.apply op).state.answers ⊆ lx.answers := by
  cases hlook : op.isLook with
  | true =>
    have hpeek := lx.answers_peek
    obtain ⟨t, answer, -, -, hs | hs⟩ | ⟨f, -, -, hs⟩ := lx.apply_look hlook
    all_goals
      rw [hs]
      exact hpeek
  | false =>
    rw [show (lx.apply op).state.answers = lx.answers from ?_]
    · exact List.Subset.refl _
    · rcases lx.preprocessor_apply hlook with h | h | h | h
      · exact answers_of_preprocessor h
      · exact answers_of_map h fun p => by cases p <;> rfl
      · exact answers_of_map h fun p => by cases p <;> rfl
      · exact answers_of_map h fun p => by cases p <;> rfl

theorem answers_run (lx : Lexer) (ops : List Op) : (lx.run ops).answers ⊆ lx.answers :=
  @run_invariant (fun lx' => lx'.answers ⊆ lx.answers)
    (fun lx' op h => List.Subset.trans (lx'.answers_apply op) h) lx (List.Subset.refl _) ops

end Lexer

/-! ## streams -/

namespace Stream

def answers : Stream → List ScriptAnswer
  | live lx => lx.answers
  | replay _ => []

theorem Reaches.answers {s s' : Stream} (h : s.Reaches s') : s'.answers ⊆ s.answers := by
  cases s' with
  | replay r' => exact List.nil_subset _
  | live lx' =>
    cases s with
    | live lx =>
      obtain ⟨ops, rfl⟩ := h
      exact lx.answers_run ops
    | replay r => exact h.elim

end Stream

end HeaderLex
