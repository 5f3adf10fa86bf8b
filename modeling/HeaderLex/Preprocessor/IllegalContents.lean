import HeaderLex.Diagnostic.SourceError
import HeaderLex.Keyword
import HeaderLex.Token.Basic

/-!
# Illegal contents of excluded regions

Markup and serialization functions behind an undecided condition would get lost, so the tokens of
such a region are searched for them.

The search for a serialization function runs over `void Serialize (` followed by `FArchive`,
`FStructuredArchiveRecord` or `FStructuredArchive :: FRecord`; the state is the matched part.
-/

namespace HeaderLex

/-- How much of a serialization function was seen. -/
inductive SerializeState where
  | start
  | sawVoid
  | sawSerialize
  | sawParen
  | sawArchive
  | sawScope
deriving DecidableEq, Repr

namespace SerializeState

/-- Where a matching token leads. -/
inductive Move where
  /-- The match goes on. -/
  | next (s : SerializeState)
  /-- The match is complete. -/
  | found
  /-- The token does not match. -/
  | mismatch
deriving DecidableEq, Repr

def move (s : SerializeState) (t : Token) : Move :=
  match s with
  | start => if t.isWord "void" then .next sawVoid else .mismatch
  | sawVoid => if t.isWord "Serialize" then .next sawSerialize else .mismatch
  | sawSerialize => if t.isMark '(' then .next sawParen else .mismatch
  | sawParen =>
    if t.isWord "FArchive" || t.isWord "FStructuredArchiveRecord" then .found
    else if t.isWord "FStructuredArchive" then .next sawArchive
    else .mismatch
  | sawArchive => if t.isOperator "::" then .next sawScope else .mismatch
  | sawScope => if t.isWord "FRecord" then .found else .mismatch

/-- Looks at one token of an excluded region.  After a mismatch the token may begin a new match;
after an error the search starts again. -/
def check (s : SerializeState) (t : Token) : Except SourceError Unit × SerializeState :=
  if t.isIdentifier && Keyword.isReflectionMacro t.value then
    (.error ⟨.illegalMacroInConditional t.value, t.start⟩, start)
  else
    match s.move t with
    | .next s => (.ok (), s)
    | .found => (.error ⟨.serializeInConditional, t.start⟩, start)
    | .mismatch => (.ok (), if t.isWord "void" then sawVoid else start)

end SerializeState

end HeaderLex
