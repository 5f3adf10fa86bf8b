import HeaderLex.Preprocessor.Conditional

/-!
# Preprocessors

A lexer hands its directives to a preprocessor: conditional compilation over known symbols, or a
script of prepared answers that also keeps a transcript of what it was asked.
-/

namespace HeaderLex

/-- One call that a script received. -/
inductive ScriptNote where
  | directive (name arguments : String) (isIncluded : Bool) (position : Position)
  | save
  | restore
  | abandon
deriving DecidableEq, Repr

/-- What a script says about a directive: a verdict or an error of any kind, which may depend on the
place of the directive. -/
abbrev ScriptAnswer := Position → Except SourceError Verdict

/-- A preprocessor with prepared answers.  When they are used up, every region is included. -/
structure Script where
  answers : List ScriptAnswer
  notes : Array ScriptNote

namespace Script

/-- A verdict, or the refusal of a directive where it stands. -/
def atDirective : Except String Verdict → ScriptAnswer
  | .ok verdict, _ => .ok verdict
  | .error message, place => .error ⟨.invalidDirective message, place⟩

/-- The script of some verdicts and refusals. -/
def ofAnswers (answers : List (Except String Verdict)) : Script := ⟨answers.map atDirective, #[]⟩

def note (s : Script) (n : ScriptNote) : Script := { s with notes := s.notes.push n }

def answer (s : Script) (d : Directive) (isIncluded : Bool) :
    Except SourceError Verdict × Script :=
  let s := s.note (.directive d.name d.arguments isIncluded d.position)
  match s.answers with
  | [] => (.ok ⟨.included, false⟩, s)
  | answer :: rest => (answer d.position, { s with answers := rest })

end Script

inductive Preprocessor where
  | conditional (c : Conditional)
  | scripted (s : Script)

namespace Preprocessor

/-- The verdict on a directive.  `isIncluded` is false while an excluded region is skipped. -/
def answer (p : Preprocessor) (d : Directive) (isIncluded : Bool) :
    Except SourceError Verdict × Preprocessor :=
  match p with
  | conditional c => let (r, c) := c.answer d isIncluded; (r, conditional c)
  | scripted s => let (r, s) := s.answer d isIncluded; (r, scripted s)

def save : Preprocessor → Preprocessor
  | conditional c => conditional c.save
  | scripted s => scripted (s.note .save)

def restore : Preprocessor → Preprocessor
  | conditional c => conditional c.restore
  | scripted s => scripted (s.note .restore)

def abandon : Preprocessor → Preprocessor
  | conditional c => conditional c.abandon
  | scripted s => scripted (s.note .abandon)

end Preprocessor

end HeaderLex
