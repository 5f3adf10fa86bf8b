import HeaderLex.Text.Utf8

/-!
# Positions and spans

A position is a byte offset with a line number; a span is a pair of positions.  Lines are 32-bit
and offsets 64-bit words, so moving a position forward can overflow.

* `Position.advance`   the position after a text;
* `Span.covering`      the span of a text that begins at a position;
* `Span.slice`         the text under a span.
-/

namespace HeaderLex

structure Position where
  /-- Bytes before this position. -/
  offset : Nat
  /-- Line number, counted from 1. -/
  line : Nat
deriving DecidableEq, Repr, Inhabited

namespace Position

/-- The beginning of a source: offset 0 on line 1. -/
def start : Position := ⟨0, 1⟩

/-- The first value beyond a line number. -/
def lineBound : Nat := Nat.pow 2 32

/-- The first value beyond an offset. -/
def offsetBound : Nat := Nat.pow 2 64

/-- The position after `text`: every byte counts, every line feed begins a line. -/
def advance (p : Position) (text : List Char) : Except Fault Position :=
  let offset := p.offset + Text.byteLength text
  let line := p.line + Text.newlines text % lineBound
  if offset < offsetBound ∧ line < lineBound then .ok ⟨offset, line⟩ else .error .overflow

/-- Positions are ordered by offset, then by line. -/
def compare (p q : Position) : Ordering :=
  (Ord.compare p.offset q.offset).then (Ord.compare p.line q.line)

def render (p : Position) : String := s!"line {p.line} (offset {p.offset})"

end Position

structure Span where
  /-- First position of the span. -/
  start : Position
  /-- First position after the span. -/
  stop : Position
deriving DecidableEq, Repr, Inhabited

namespace Span

/-- A span between two positions that are in order. -/
def between (start stop : Position) : Except Fault Span :=
  if start.offset ≤ stop.offset then .ok ⟨start, stop⟩ else .error .reversedSpan

/-- The span of `text` when it begins at `start`. -/
def covering (start : Position) (text : List Char) : Except Fault Span := do
  between start (← start.advance text)

/-- The empty span at a position. -/
def emptyAt (p : Position) : Span := ⟨p, p⟩

/-- The smallest span over two spans. -/
def merge (a b : Span) : Span where
  start := if a.start.offset < b.start.offset then a.start else b.start
  stop := if a.stop.offset > b.stop.offset then a.stop else b.stop

/-- Bytes under the span. -/
def length (s : Span) : Except Fault Nat :=
  if s.start.offset ≤ s.stop.offset then .ok (s.stop.offset - s.start.offset)
  else .error .overflow

def isEmpty (s : Span) : Bool := s.start.offset == s.stop.offset

def contains (s : Span) (p : Position) : Bool :=
  decide (s.start.offset ≤ p.offset) && decide (p.offset < s.stop.offset)

/-- The text under the span. -/
def slice (s : Span) (text : List Char) : Except Fault (List Char) :=
  Text.slice text s.start.offset s.stop.offset

/-- Offsets within one line, else the two lines. -/
def render (s : Span) : String :=
  if s.start.line = s.stop.line then s!"{s.start.line}:{s.start.offset}-{s.stop.offset}"
  else s!"{s.start.line}-{s.stop.line}"

end Span

end HeaderLex
