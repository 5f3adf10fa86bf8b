import HeaderLex.Grammar.Single

/-!
# Skipping declarations

A declaration that is not understood is skipped as a whole: to the semicolon outside brackets that
ends it, or to the end of its body.  Markup inside it gets lost, so it is reported.
-/

namespace HeaderLex.Grammar

open HeaderLex.Operation HeaderLex.Parser

variable {υ : Type}

structure SkipOutcome where
  /-- The declaration had a body. -/
  foundBody : Bool
  macroStyle : Bool
  tokensSkipped : Nat
deriving DecidableEq, Repr

/-- The token begins a macro. -/
def isMacroStyle (t : Token) : Bool :=
  t.isIdentifier && Keyword.isMacroStyle t.value && !Keyword.plainMacros.contains t.value

/-- The brackets that hold the body of a declaration. -/
def bodyBrackets (first : Token) : Char × Char :=
  if isMacroStyle first || (first.isIdentifier && Keyword.parenWords.contains first.value) then
    ('(', ')')
  else ('{', '}')

/-- The token begins a class. -/
def isClassWord (t : Token) : Bool := t.isWord "class" || t.isWord "struct"

/-- The state of skipping: the token to look at, the brackets that count and how many are open. -/
structure SkipState where
  token : Token
  brackets : Char × Char
  depth : Nat
  outcome : SkipOutcome

/-- The warning about a token inside a skipped declaration, if it is markup. -/
def skipWarning? (t : Token) : Option Warning :=
  if t.isIdentifier && Keyword.isReflectionMacro t.value then
    some ⟨Code.reflectionMacroSkipped,
      s!"'{t.value}' ignored while skipping an unrecognized declaration", t.start⟩
  else none

/-- Goes on with the next token, which must not be an end mark inside brackets. -/
def skipOn (s : SkipState) : Parser υ (SkipState ⊕ SkipOutcome) := do
  let t ← next
  if t.isEnd then
    if 0 < s.depth then
      refuse ⟨.mismatchedDelimiters s.brackets.1.toString s.brackets.2.toString
        (some "skipped declaration"), t.start⟩
    else return .inr s.outcome
  else
    return .inl { s with
      token := t
      outcome := { s.outcome with tokensSkipped := s.outcome.tokensSkipped + 1 } }

/-- The bracket that closes the body was met.  A macro may have a body in braces after its
arguments. -/
def skipClosed (s : SkipState) : Parser υ (SkipState ⊕ SkipOutcome) := do
  if s.brackets.1 == '(' && s.outcome.macroStyle then
    if (← peek).isMark '{' then
      let t ← next
      return .inl { s with
        token := t
        brackets := ('{', '}')
        outcome := { s.outcome with tokensSkipped := s.outcome.tokensSkipped + 1 } }
  return .inr s.outcome

/-- Looks at one token of the declaration. -/
def skipTurn (warn : Warning → Parser υ Unit) (s : SkipState) :
    Parser υ (SkipState ⊕ SkipOutcome) := do
  if let some w := skipWarning? s.token then warn w
  if s.token.isMark s.brackets.1 then
    skipOn { s with depth := s.depth + 1, outcome := { s.outcome with foundBody := true } }
  else if s.token.isMark s.brackets.2 then
    if s.depth = 0 then refuse ⟨.unbalancedBracket s.brackets.2, s.token.start⟩
    else if s.depth = 1 then skipClosed { s with depth := 0 }
    else skipOn { s with depth := s.depth - 1 }
  else if s.depth = 0 && s.token.isMark ';' then return .inr s.outcome
  else skipOn s

/-- The name of an instance after a class body, with its semicolon: the number of tokens taken. -/
def skipInstance : Parser υ Nat := do
  save
  let name ← next
  if name.isIdentifier then
    if (← peek).isMark ';' then
      consume
      abandon
      return 2
  restore
  return 0

/-- Takes all semicolons that come next, counting them. -/
def skipSemicolons (count : Nat) : Parser υ Nat :=
  loop (fun count => do
    if ← tryMark ';' then return .inl (count + 1) else return .inr count) count

/-- Logged about a skipped declaration. -/
def skipEvent (first : Token) (o : SkipOutcome) : Event :=
  (Event.success Code.declarationSkipped "Skipped unrecognized declaration").withValues
    [("first", first.value), ("line", toString first.start.line),
      ("tokens", toString o.tokensSkipped), ("found_body", toString o.foundBody)]

/-- Skips the declaration that began with the consumed token `first`.  The next declaration stays in
the stream. -/
def skipDeclaration (first : Token) (warn : Warning → Parser υ Unit) : Parser υ SkipOutcome := do
  let o ← loop (skipTurn warn)
    ⟨first, bodyBrackets first, 0, ⟨false, isMacroStyle first, 1⟩⟩
  let taken ← if isClassWord first && o.foundBody then skipInstance else pure 0
  let count ← skipSemicolons (o.tokensSkipped + taken)
  let o := { o with tokensSkipped := count }
  log (skipEvent first o)
  return o

/-- Logs a warning. -/
def logWarning (w : Warning) : Parser υ Unit := log w.event

end HeaderLex.Grammar
