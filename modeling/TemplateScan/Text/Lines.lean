import TemplateScan.Text.Extent

/-! # Line tables — from byte offsets to line numbers

    A line ends at its line feed and nowhere else.  `lineStarts` lists the byte offsets at which
    the lines of a text start, the first line included; after a final line feed one more, empty
    line starts at the end of the text.

    A `LineTable` keeps that list as an array, built once, and finds the line of an offset by
    halving the part of the table that can still hold it (`LineTable.lineAt`). -/

namespace TemplateScan.Text

-- ── where lines start ────────────────────────────────────────────────────────────

/-- The offsets just after each line feed of a text that itself starts at `offset`. -/
def breaksFrom : (offset : Nat) → List Char → List Nat
  | _, [] => []
  | offset, c :: cs =>
      let next := offset + c.utf8Size
      if c = '\n' then next :: breaksFrom next cs else breaksFrom next cs

/-- The byte offsets at which the lines of a text start. -/
def lineStarts (text : List Char) : List Nat :=
  0 :: breaksFrom 0 text

-- ── the table ────────────────────────────────────────────────────────────────────

/-- The line starts of `text`, ready for searching. -/
structure LineTable (text : List Char) where
  starts : Array Nat
  starts_eq : starts = (lineStarts text).toArray

namespace LineTable

/-- The table of a text. -/
def ofText (text : List Char) : LineTable text where
  starts := (lineStarts text).toArray
  starts_eq := rfl

/-- How many of the ascending `starts` are at most `offset`, given that the ones below `low` are
    and the ones from `high` on are not.  Each of the `steps` halves the range in between. -/
def countUpTo (starts : Array Nat) (offset : Nat) : (steps low high : Nat) → Nat
  | 0, low, _ => low
  | steps + 1, low, high =>
      if low < high then
        let middle := (low + high) / 2
        if starts.getD middle 0 ≤ offset then countUpTo starts offset steps (middle + 1) high
        else countUpTo starts offset steps low middle
      else low

variable {text : List Char}

/-- The number of the line that holds `offset`, counted from one. -/
def lineAt (table : LineTable text) (offset : Nat) : Nat :=
  countUpTo table.starts offset table.starts.size 0 table.starts.size

/-- The byte offset at which a line starts; lines are counted from one. -/
def startOf (table : LineTable text) (line : Nat) : Nat :=
  table.starts.getD (line - 1) 0

end LineTable

end TemplateScan.Text
