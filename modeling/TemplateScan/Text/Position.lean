/-! # Positions and spans — places in a document

    A position is what a person reads: a line and a column, both counted from one, the column in
    characters.  A span is what a program uses: the byte offsets of a region, together with the
    position of its start. -/

namespace TemplateScan.Text

/-- A place in a document as a line and a column, both counted from one. -/
structure Position where
  line : Nat
  column : Nat
deriving DecidableEq, Repr

/-- A region of a document: the byte offsets `[start, stop)` and the position of its start. -/
structure Span where
  start : Nat
  stop : Nat
  line : Nat
  column : Nat
deriving DecidableEq, Repr

namespace Span

/-- The span of the bytes `[start, stop)` that starts at the given position. -/
def ofPosition (position : Position) (start stop : Nat) : Span :=
  ⟨start, stop, position.line, position.column⟩

/-- The position where the span starts. -/
def position (s : Span) : Position :=
  ⟨s.line, s.column⟩

/-- The number of bytes covered. -/
def length (s : Span) : Nat :=
  s.stop - s.start

/-- No byte is covered. -/
def isEmpty (s : Span) : Bool :=
  s.start == s.stop

end Span

end TemplateScan.Text
