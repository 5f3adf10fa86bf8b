import HeaderLex.Token.Basic

/-!
# Directives and verdicts

A directive is a line that begins with `#`.  A preprocessor answers it with a verdict on the
region that follows.
-/

namespace HeaderLex

structure Directive where
  /-- The `#` symbol. -/
  hash : Token
  /-- The word after `#`; empty for a line with nothing else. -/
  name : String
  /-- The rest of the line without comments and without blanks at its ends. -/
  arguments : String
deriving DecidableEq, Repr

def Directive.position (d : Directive) : Position := d.hash.start

/-- What happens to the lines after a directive. -/
inductive Region where
  | included
  /-- Left out, but searched for markup that would get lost. -/
  | scanned
  /-- Left out. -/
  | silent
deriving DecidableEq, Repr

namespace Region

def isIncluded : Region → Bool
  | included => true
  | _ => false

/-- The region under the negated condition; an undecided one stays undecided. -/
def inverted : Region → Region
  | included => silent
  | silent => included
  | scanned => scanned

end Region

structure Verdict where
  region : Region
  /-- Drop the comments collected before the directive. -/
  clearComments : Bool
deriving DecidableEq, Repr

end HeaderLex
