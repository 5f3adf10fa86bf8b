import HeaderLex.Position
import HeaderLex.Token.Kind

/-!
# Tokens

A token is a piece of source text with its kind, where it starts, and where the stream stood
before the gap in front of it, so that a look ahead can be undone.
-/

namespace HeaderLex

structure Token where
  kind : TokenKind
  /-- The source text; empty for end marks. -/
  value : String
  /-- Where the text starts. -/
  start : Position
  /-- Where the stream stood before the gap in front of the token. -/
  unget : Position
deriving DecidableEq, Repr

namespace Token

/-- The end mark of a kind at a position. -/
def endAt (kind : TokenKind) (p : Position) : Except Fault Token :=
  if kind.isEnd then .ok ⟨kind, "", p, p⟩ else .error .notAnEndKind

/-- The span of the token's text. -/
def span (t : Token) : Except Fault Span := Span.covering t.start t.value.toList

def isEnd (t : Token) : Bool := t.kind.isEnd

def isIdentifier (t : Token) : Bool := t.kind == .identifier

/-- The identifier `text`. -/
def isWord (t : Token) (text : String) : Bool := t.isIdentifier && t.value == text

def isSymbol (t : Token) : Bool := t.kind == .symbol

/-- The symbol of one character. -/
def isMark (t : Token) (c : Char) : Bool := t.isSymbol && t.value == c.toString

/-- The symbol `text`. -/
def isOperator (t : Token) (text : String) : Bool := t.isSymbol && t.value == text

/-- The identifier or symbol `text`. -/
def spells (t : Token) (text : String) : Bool :=
  (t.isIdentifier || t.isSymbol) && t.value == text

def isInteger (t : Token) : Bool := t.kind == .decimalConst || t.kind == .hexConst

def isFloat (t : Token) : Bool := t.kind == .floatConst

def isNumeric (t : Token) : Bool := t.isInteger || t.isFloat

def isString (t : Token) : Bool := t.kind == .stringConst

def isChar (t : Token) : Bool := t.kind == .charConst

/-- The token as messages show it: its text, or its end mark in angle brackets. -/
def render (t : Token) : String := if t.isEnd then s!"<{t.kind.describe}>" else t.value

end Token

end HeaderLex
