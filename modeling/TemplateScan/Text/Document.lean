import TemplateScan.Text.Lines
import TemplateScan.Text.Position

/-! # Documents — a text with its line table

    Everything that is asked of a whole text by byte offset: its size, a slice of it, and the line
    and column of a place in it.  A question comes in two forms.  The plain one is total: an offset
    inside a character stands for the end of that character, one beyond the end for the end.  The
    one marked `?` refuses an offset that is not a boundary between characters. -/

namespace TemplateScan.Text

/-- A text together with the table of its line starts. -/
structure Document where
  chars : List Char
  lines : LineTable chars

namespace Document

/-- The document that holds the given text. -/
def ofString (text : String) : Document where
  chars := text.toList
  lines := .ofText text.toList

/-- The number of bytes of the text. -/
def size (d : Document) : Nat :=
  byteSize d.chars

/-- The whole text. -/
def text (d : Document) : String :=
  String.ofList d.chars

-- ── slices ───────────────────────────────────────────────────────────────────────

/-- The text between two offsets. -/
def between (d : Document) (start stop : Nat) : List Char :=
  (splitAtByte (stop - start) (dropBytes start d.chars)).1

/-- The text between two offsets, when both are boundaries and in order. -/
def slice? (d : Document) (start stop : Nat) : Option (List Char) :=
  if start ≤ stop ∧ IsBoundary start d.chars ∧ IsBoundary stop d.chars then
    some (d.between start stop)
  else none

-- ── positions ────────────────────────────────────────────────────────────────────

/-- The line and column of an offset; beyond the end it stands for the end. -/
def position (d : Document) (offset : Nat) : Position :=
  let offset := min offset d.size
  let line := d.lines.lineAt offset
  ⟨line, (d.between (d.lines.startOf line) offset).length + 1⟩

/-- The line and column of an offset that is not inside a character. -/
def position? (d : Document) (offset : Nat) : Option Position :=
  if IsBoundary (min offset d.size) d.chars then some (d.position offset) else none

/-- The span between two offsets. -/
def spanOf (d : Document) (start stop : Nat) : Span :=
  .ofPosition (d.position start) start stop

/-- The span between two offsets, the first of which is not inside a character. -/
def spanOf? (d : Document) (start stop : Nat) : Option Span :=
  (d.position? start).map (.ofPosition · start stop)

end Document

end TemplateScan.Text
