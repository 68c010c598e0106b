import TemplateScan.Dialect.Rule
import TemplateScan.Dialect.Schema

/-! # Dialects — the tags, filters and objects of a template language

    A dialect is plain data: a table of tag rules, a table of filter rules, a table of object
    schemas, and the names of the HTML elements that are tracked together with the tags.  It is
    built up entry by entry, or by laying one dialect over another (`Dialect.overlay`), in which
    case the entries of the upper one win.

    A dialect is **sound** when every tag that a placement rule names is itself a tag of the
    dialect; `Dialect.strayParent?` finds the first name for which that fails. -/

namespace TemplateScan

/-- The tags, filters, objects and tracked HTML elements of a template language. -/
structure Dialect where
  tags : Table TagRule := ∅
  filters : Table FilterRule := ∅
  objects : Table Schema := ∅
  /-- The names of the HTML elements that are tracked. -/
  associates : List String := []
deriving DecidableEq

namespace Dialect

/-- The dialect in which every name is unknown. -/
def empty : Dialect := {}

instance : EmptyCollection Dialect := ⟨empty⟩
instance : Inhabited Dialect := ⟨empty⟩

-- ── building ─────────────────────────────────────────────────────────────────────

/-- The dialect with a rule for one more tag. -/
def withTag (d : Dialect) (name : String) (rule : TagRule) : Dialect :=
  { d with tags := d.tags.insert name rule }

/-- The dialect with a rule for one more filter. -/
def withFilter (d : Dialect) (name : String) (rule : FilterRule) : Dialect :=
  { d with filters := d.filters.insert name rule }

/-- The dialect with a schema for one more object. -/
def withObject (d : Dialect) (name : String) (schema : Schema) : Dialect :=
  { d with objects := d.objects.insert name schema }

/-- The dialect with one more tracked HTML element. -/
def withAssociate (d : Dialect) (name : String) : Dialect :=
  { d with associates := d.associates ++ [name] }

/-- The list with one more name, unless it is there already. -/
def addNew (names : List String) (name : String) : List String :=
  if names.contains name then names else names ++ [name]

/-- The dialect with another laid over it: the entries of the other one win, and its associates
    are appended unless they are listed already. -/
def overlay (d other : Dialect) : Dialect where
  tags := d.tags.overlay other.tags
  filters := d.filters.overlay other.filters
  objects := d.objects.overlay other.objects
  associates := other.associates.foldl addNew d.associates

-- ── soundness ────────────────────────────────────────────────────────────────────

/-- Every tag named by a placement rule is a tag of the dialect. -/
def Sound (d : Dialect) : Prop :=
  ∀ entry ∈ d.tags.entries, ∀ parent ∈ entry.2.parents, d.tags.contains parent = true

/-- The first tag, in the order of names, whose rule names a parent that is no tag of the
    dialect, together with the first such parent in its list. -/
def strayParent? (d : Dialect) : Option (String × String) :=
  d.tags.entries.findSome? fun entry =>
    (entry.2.parents.find? fun parent => !d.tags.contains parent).map fun parent =>
      (entry.1, parent)

/-- A dialect is sound exactly when no stray parent is found. -/
theorem strayParent?_eq_none_iff {d : Dialect} : d.strayParent? = none ↔ d.Sound := by
  simp [strayParent?, Sound]

end Dialect

end TemplateScan
