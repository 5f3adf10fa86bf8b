import HeaderLex.Settings.Preferences
import HeaderLex.Token.Basic

/-!
# Metrics of a lexer

Counts of consumed tokens, met comments and directives, and skipped regions.  Two of the counts are
kept only on request.
-/

namespace HeaderLex

structure Metrics where
  tokens : Nat
  identifiers : Nat
  symbols : Nat
  numbers : Nat
  texts : Nat
  comments : Nat
  directives : Nat
  regions : Nat
  byKind : List (TokenKind × Nat)
  bySymbol : List (String × Nat)
deriving DecidableEq, Repr

namespace Metrics

def zero : Metrics := ⟨0, 0, 0, 0, 0, 0, 0, 0, [], []⟩

/-- Adds one to the count of `key`. -/
def bump {α : Type} [DecidableEq α] (key : α) : List (α × Nat) → List (α × Nat)
  | [] => [(key, 1)]
  | (k, n) :: rest => if k = key then (k, n + 1) :: rest else (k, n) :: bump key rest

/-- Counts a consumed token by its class. -/
def countClass (m : Metrics) (t : Token) (p : LexicalPreferences) : Metrics :=
  match t.kind with
  | .identifier => { m with identifiers := m.identifiers + 1 }
  | .symbol =>
    { m with
      symbols := m.symbols + 1
      bySymbol := if p.symbolPatterns then bump t.value m.bySymbol else m.bySymbol }
  | .decimalConst | .hexConst | .floatConst => { m with numbers := m.numbers + 1 }
  | .stringConst | .charConst => { m with texts := m.texts + 1 }
  | _ => m

/-- Counts a consumed token. -/
def countToken (m : Metrics) (t : Token) (p : LexicalPreferences) : Metrics :=
  let m := { m with tokens := m.tokens + 1 }.countClass t p
  if p.detailedMetrics then { m with byKind := bump t.kind m.byKind } else m

end Metrics

end HeaderLex
