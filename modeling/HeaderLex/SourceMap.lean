import HeaderLex.Position
import HeaderLex.Text.Blank

/-!
# Source maps

A source map remembers where the lines of a source begin, so that a byte offset can be turned
into a line and a column when a diagnostic is written.

* `SourceMap.positionAt`   line of an offset, by binary search in the line starts;
* `SourceMap.columnAt`     column of an offset, counted in characters;
* `SourceMap.line?`        text of a line;
* `SourceMap.excerpt`      a message with the line it is about and a row of carets under it.
-/

namespace HeaderLex

structure SourceMap where
  source : List Char
  /-- Offsets at which lines begin, in increasing order. -/
  lineStarts : Array Nat

namespace SourceMap

/-- The offsets directly after the line feeds of a text that begins at `offset`. -/
def startsAfter (offset : Nat) : List Char → List Nat
  | [] => []
  | c :: cs =>
    let next := offset + c.utf8Size
    if c = '\n' then next :: startsAfter next cs else startsAfter next cs

def ofSource (source : String) : SourceMap :=
  let text := source.toList
  ⟨text, (0 :: startsAfter 0 text).toArray⟩

/-- How many of the sorted entries with indices in `lo ≤ i < hi` are at most `x`, plus `lo`: the
index of the first entry above `x`. -/
def upperBound (xs : Array Nat) (x lo hi : Nat) : Nat :=
  if lo < hi then
    let mid := lo + (hi - lo) / 2
    if xs.getD mid 0 ≤ x then upperBound xs x (mid + 1) hi else upperBound xs x lo mid
  else lo
termination_by hi - lo

/-- The position of a byte offset: its line is the last one that begins at or before it. -/
def positionAt (m : SourceMap) (offset : Nat) : Position :=
  ⟨offset, upperBound m.lineStarts offset 0 m.lineStarts.size % Position.lineBound⟩

/-- Column of a byte offset, counted in characters from 1. -/
def columnAt (m : SourceMap) (offset : Nat) : Except Fault Nat := do
  let line := (m.positionAt offset).line
  let lineStart := m.lineStarts.getD (line - 1) 0
  let text ← Text.slice m.source lineStart (min offset (Text.byteLength m.source))
  return text.length + 1

/-- The line with a given number, counted from 1, without carriage returns at its end. -/
def line? (m : SourceMap) (number : Nat) : Option (List Char) :=
  if number = 0 ∨ m.lineStarts.size < number then none
  else
    let start := m.lineStarts.getD (number - 1) 0
    let stop := if number < m.lineStarts.size then m.lineStarts.getD number 0 - 1
      else Text.byteLength m.source
    (Text.slice m.source start stop).toOption.map (Text.dropEndWhile (· == '\r'))

/-- A message with the line its span begins on and carets under the spanned characters. -/
def excerpt (m : SourceMap) (span : Span) (message : String) : Except Fault String := do
  let column ← m.columnAt span.start.offset
  let head := s!"Error: {message}\n  --> {span.start.line}:{column}\n"
  match m.line? span.start.line with
  | none => return head
  | some text =>
    let number := toString span.start.line
    let padding := String.ofList (List.replicate number.length ' ')
    let carets ←
      if span.start.line = span.stop.line then
        List.length <$> Text.slice m.source span.start.offset span.stop.offset
      else pure (text.length - (column - 1))
    return head ++ s!"   {padding} |\n{number} | " ++ String.ofList text ++ s!"\n   {padding} | " ++
      String.ofList (List.replicate (column - 1) ' ' ++ List.replicate (max carets 1) '^') ++ "\n"

end SourceMap

end HeaderLex
