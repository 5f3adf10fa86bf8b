/-!
# Token kinds and character classes

* `TokenKind`         what a token is: one of four end marks, or a piece of content;
* `isNameStart`, `isNameChar`   the characters of identifiers, ASCII only.
-/

namespace HeaderLex

inductive TokenKind where
  | endOfFile
  | endOfDefault
  | endOfType
  | endOfDeclaration
  /-- The rest of a physical line. -/
  | line
  | identifier
  | symbol
  | floatConst
  | decimalConst
  | hexConst
  | charConst
  | stringConst
deriving DecidableEq, Repr

namespace TokenKind

/-- Kinds that mark the end of a stream and stand for no text. -/
def isEnd : TokenKind → Bool
  | endOfFile | endOfDefault | endOfType | endOfDeclaration => true
  | _ => false

/-- The kind in words, as messages use it. -/
def describe : TokenKind → String
  | endOfFile => "end of file"
  | endOfDefault => "end of default value"
  | endOfType => "end of type"
  | endOfDeclaration => "end of declaration"
  | line => "line"
  | identifier => "identifier"
  | symbol => "symbol"
  | floatConst => "float constant"
  | decimalConst => "decimal constant"
  | hexConst => "hex constant"
  | charConst => "character constant"
  | stringConst => "string constant"

/-- The kind as one word, as records use it. -/
def name : TokenKind → String
  | endOfFile => "EndOfFile"
  | endOfDefault => "EndOfDefault"
  | endOfType => "EndOfType"
  | endOfDeclaration => "EndOfDeclaration"
  | line => "Line"
  | identifier => "Identifier"
  | symbol => "Symbol"
  | floatConst => "FloatConst"
  | decimalConst => "DecimalConst"
  | hexConst => "HexConst"
  | charConst => "CharConst"
  | stringConst => "StringConst"

/-- Every kind, in the order of its declaration. -/
def all : List TokenKind :=
  [endOfFile, endOfDefault, endOfType, endOfDeclaration, line, identifier, symbol, floatConst,
    decimalConst, hexConst, charConst, stringConst]

def ofName? (s : String) : Option TokenKind := all.find? (·.name == s)

end TokenKind

/-- Letters and the underscore. -/
def isNameStart (c : Char) : Bool := c.isAlpha || c == '_'

/-- Letters, digits and the underscore. -/
def isNameChar (c : Char) : Bool := c.isAlphanum || c == '_'

end HeaderLex
