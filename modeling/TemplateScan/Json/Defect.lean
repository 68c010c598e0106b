/-! # Defects — the ways in which a text fails to be what is expected -/

namespace TemplateScan.Json

/-- Why a text cannot be read. -/
inductive Defect where
  /-- The text ends too early. -/
  | cutShort
  /-- The text is not JSON. -/
  | malformed
  /-- The text is JSON so far, but not the value that is expected. -/
  | mismatched
deriving DecidableEq, Repr

/-- The answer of a reader: a value, or the first defect of the text. -/
abbrev Decoded (α : Type) := Except Defect α

end TemplateScan.Json
