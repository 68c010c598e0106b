import TemplateScan.Dialect.Basic

/-! # Lookups — a dialect with the entries last asked for

    Names are looked up one at a time, in the category that is expected at that moment, and
    questions are then asked about the entry found.  So a lookup holds three slots beside its
    dialect: the current tag, the current filter with the argument reached in it, and the object
    reached by the property path walked so far.  The slots are independent of each other. -/

namespace TemplateScan

/-- The category of name expected next. -/
inductive Expect where
  | tag
  | object
  | filter
deriving DecidableEq, Repr, Inhabited

/-- A dialect with the current tag, filter, argument and object. -/
structure Lookup where
  dialect : Dialect
  expect : Expect := .tag
  /-- The current tag with its name. -/
  tag : Option (String × TagRule) := none
  filter : Option FilterRule := none
  /-- The place of the current argument in the current filter. -/
  argumentIndex : Nat := 0
  /-- The object reached by the property path, while the path is checked. -/
  object : Option Schema := none

/-- A lookup in which nothing has been asked yet. -/
def Dialect.lookup (d : Dialect) : Lookup where
  dialect := d

namespace Lookup

/-- Expect names of the given category from now on. -/
def setExpect (l : Lookup) (expect : Expect) : Lookup :=
  { l with expect }

-- ── names ────────────────────────────────────────────────────────────────────────

/-- Look a name up in the expected category; an unknown name empties the slot. -/
def resolve (l : Lookup) (name : String) : Lookup :=
  match l.expect with
  | .tag => { l with tag := (l.dialect.tags.get? name).map fun rule => (name, rule) }
  | .object => { l with object := l.dialect.objects.get? name }
  | .filter => { l with filter := l.dialect.filters.get? name, argumentIndex := 0 }

/-- The dialect has the name in the expected category. -/
def isKnown (l : Lookup) (name : String) : Bool :=
  match l.expect with
  | .tag => l.dialect.tags.contains name
  | .object => l.dialect.objects.contains name
  | .filter => l.dialect.filters.contains name

/-- The rule of the current tag. -/
def tagRule? (l : Lookup) : Option TagRule :=
  l.tag.map (·.2)

/-- The name of the current tag. -/
def tagName? (l : Lookup) : Option String :=
  l.tag.map (·.1)

-- ── filter arguments ─────────────────────────────────────────────────────────────

/-- The rule of the current argument. -/
def argument? (l : Lookup) : Option ArgumentRule :=
  l.filter.bind (·.arguments[l.argumentIndex]?)

/-- No argument follows the current one. -/
def isLastArgument (l : Lookup) : Bool :=
  l.filter.all fun filter => filter.arguments.length ≤ l.argumentIndex + 1

/-- Go on to the next argument, unless the current one is the last. -/
def nextArgument (l : Lookup) : Lookup :=
  if l.isLastArgument then l else { l with argumentIndex := l.argumentIndex + 1 }

/-- Forget the current filter. -/
def resetFilter (l : Lookup) : Lookup :=
  { l with filter := none, argumentIndex := 0 }

-- ── property paths ───────────────────────────────────────────────────────────────

/-- The properties of every array, which are never checked. -/
def arrayProperties : List String :=
  ["size", "first", "last"]

/-- What the current object says of a property. -/
def answer (l : Lookup) (name : String) : PropertyAnswer :=
  match l.object with
  | none => .unchecked
  | some schema => if arrayProperties.contains name then .unchecked else schema.lookup name

/-- Whether the current object has a property; `none` when the path is not checked. -/
def hasProperty? (l : Lookup) (name : String) : Option Bool :=
  match l.answer name with
  | .unchecked => none
  | .absent => some false
  | .present _ => some true

/-- Go on to a property of the current object; the rest of the path is no longer checked when
    the object does not say what the property is. -/
def enterProperty (l : Lookup) (name : String) : Lookup :=
  match l.answer name with
  | .present schema => { l with object := some schema }
  | _ => { l with object := none }

/-- Going on to a property changes nothing but the object. -/
theorem enterProperty_eq (l : Lookup) (name : String) :
    ∃ object, l.enterProperty name = { l with object } := by
  rw [enterProperty]
  split <;> exact ⟨_, rfl⟩

/-- Check the property path no longer. -/
def releaseObject (l : Lookup) : Lookup :=
  { l with object := none }

-- ── tracked HTML elements ────────────────────────────────────────────────────────

/-- Some HTML elements are tracked. -/
def hasAssociates (l : Lookup) : Bool :=
  !l.dialect.associates.isEmpty

/-- The HTML element of the given name is tracked, whatever the case of its ASCII letters. -/
def isAssociate (l : Lookup) (name : String) : Bool :=
  l.dialect.associates.any fun associate =>
    associate.toList.map Char.toLower == name.toList.map Char.toLower

end Lookup

end TemplateScan
