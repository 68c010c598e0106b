import TemplateScan.Dialect.Basic
import TemplateScan.Dialect.Names
import TemplateScan.Json.Printer

/-! # Writing — a dialect as text

    Every record becomes an object with all its fields, in a fixed order; every table becomes an
    object with its names, in their order, as keys. -/

namespace TemplateScan

open Json

-- ── rules ────────────────────────────────────────────────────────────────────────

/-- A modifier as a value. -/
def TagParameter.toValue (p : TagParameter) : Value :=
  .object [("name", .string p.name), ("value", .bool p.takesValue)]

/-- A tag rule as a value. -/
def TagRule.toValue (t : TagRule) : Value :=
  .object [
    ("kind", .string t.kind.name),
    ("block", .bool t.block),
    ("singular", .bool t.singular),
    ("arguments", .bool t.arguments),
    ("parents", .ofTexts t.parents),
    ("parameters", .array (t.parameters.map (·.toValue))),
    ("language", .ofText? (t.language.map (·.name))),
    ("description", .ofText? t.description)]

/-- An argument rule as a value. -/
def ArgumentRule.toValue (a : ArgumentRule) : Value :=
  .object [
    ("kind", .string a.kind.name),
    ("accepts", .ofTexts (a.accepted.map (·.name))),
    ("required", .bool a.required)]

/-- A filter rule as a value. -/
def FilterRule.toValue (f : FilterRule) : Value :=
  .object [
    ("arguments", .array (f.arguments.map (·.toValue))),
    ("description", .ofText? f.description)]

-- ── schemas ──────────────────────────────────────────────────────────────────────

namespace Shape

mutual

/-- A shape as a value. -/
def toValue : Shape → Value
  | .unchecked description =>
      .object [("properties", .null), ("description", .ofText? description)]
  | .checked properties description =>
      .object [("properties", .object (propertyValues properties)),
        ("description", .ofText? description)]

/-- The properties of an object as the members of a value. -/
def propertyValues : List (String × Shape) → List (String × Value)
  | [] => []
  | (name, shape) :: properties => (name, toValue shape) :: propertyValues properties

end

end Shape

-- ── dialects ─────────────────────────────────────────────────────────────────────

/-- A table as a value. -/
def Table.toValue {α : Type} (entryValue : α → Value) (t : Table α) : Value :=
  .object (t.entries.map fun entry => (entry.1, entryValue entry.2))

namespace Dialect

/-- A dialect as a value. -/
def toValue (d : Dialect) : Value :=
  .object [
    ("tags", d.tags.toValue (·.toValue)),
    ("filters", d.filters.toValue (·.toValue)),
    ("objects", d.objects.toValue (·.shape.toValue)),
    ("associates", .ofTexts d.associates)]

/-- A dialect as text. -/
def write (d : Dialect) : String :=
  String.ofList d.toValue.print

end Dialect

end TemplateScan
