import TemplateScan.Table

/-! # Schemas — what is known of an object and its properties

    An object is either **unchecked**, so that every property name is accepted, or **checked**, and
    then only the properties listed for it exist, each with a schema of its own.

    A `Shape` is such a description with its properties in any order; a `Schema` is one in which
    they ascend by name at every level (`Shape.Ordered`), so that equal schemas are equal values. -/

namespace TemplateScan

-- ── shapes ───────────────────────────────────────────────────────────────────────

/-- What is known of an object, its properties in the order given. -/
inductive Shape where
  /-- Any property may be asked for. -/
  | unchecked (description : Option String)
  /-- Only the listed properties exist. -/
  | checked (properties : List (String × Shape)) (description : Option String)
deriving Repr

namespace Shape

instance : Inhabited Shape := ⟨.unchecked none⟩

mutual

/-- Equality of shapes is decidable. -/
def decEq : (a b : Shape) → Decidable (a = b)
  | .unchecked d, .unchecked e =>
      if h : d = e then isTrue (h ▸ rfl) else isFalse fun k => h (Shape.unchecked.inj k)
  | .checked ps d, .checked qs e =>
      match decEqProperties ps qs with
      | isTrue hp =>
          if h : d = e then isTrue (hp ▸ h ▸ rfl) else isFalse fun k => h (Shape.checked.inj k).2
      | isFalse hp => isFalse fun k => hp (Shape.checked.inj k).1
  | .unchecked _, .checked _ _ => isFalse nofun
  | .checked _ _, .unchecked _ => isFalse nofun

/-- Equality of lists of properties is decidable. -/
def decEqProperties : (a b : List (String × Shape)) → Decidable (a = b)
  | [], [] => isTrue rfl
  | [], _ :: _ => isFalse nofun
  | _ :: _, [] => isFalse nofun
  | (j, s) :: ps, (k, t) :: qs =>
      if hk : j = k then
        match decEq s t with
        | isTrue hs =>
            match decEqProperties ps qs with
            | isTrue hp => isTrue (hk ▸ hs ▸ hp ▸ rfl)
            | isFalse hp => isFalse fun e => hp (List.cons.inj e).2
        | isFalse hs => isFalse fun e => hs (Prod.mk.inj (List.cons.inj e).1).2
      else isFalse fun e => hk (Prod.mk.inj (List.cons.inj e).1).1

end

instance : DecidableEq Shape := decEq

/-- The properties ascend by name, at every level. -/
inductive Ordered : Shape → Prop where
  | unchecked (description : Option String) : Ordered (.unchecked description)
  | checked {properties : List (String × Shape)} {description : Option String}
      (ascending : Entries.Ascending properties)
      (each : ∀ property ∈ properties, Ordered property.2) :
      Ordered (.checked properties description)

/-- The listed properties of a checked object. -/
def properties? : Shape → Option (List (String × Shape))
  | .unchecked _ => none
  | .checked properties _ => some properties

/-- The text that describes the object. -/
def description? : Shape → Option String
  | .unchecked description => description
  | .checked _ description => description

end Shape

/-- The value found under a key is one of the entries. -/
theorem Entries.mem_of_get? {α : Type} {key : String} {value : α} {entries : List (String × α)}
    (h : Entries.get? key entries = some value) : (key, value) ∈ entries := by
  induction entries with
  | nil => exact nomatch h
  | cons hd tl ih =>
      obtain ⟨k, v⟩ := hd
      simp only [Entries.get?] at h
      split at h
      · next hk =>
          obtain rfl := Option.some.inj h
          exact hk ▸ List.mem_cons_self ..
      · exact List.mem_cons_of_mem _ (ih h)

-- ── schemas ──────────────────────────────────────────────────────────────────────

/-- What is known of an object, with the properties of every level in order. -/
structure Schema where
  shape : Shape
  ordered : shape.Ordered
deriving DecidableEq

/-- The answer to the question for a property. -/
inductive PropertyAnswer where
  /-- The object is unchecked. -/
  | unchecked
  /-- The object has no such property. -/
  | absent
  /-- The object has the property, with this schema. -/
  | present (schema : Schema)
deriving DecidableEq

namespace Schema

/-- The schema of an object about which nothing is known. -/
def any : Schema where
  shape := .unchecked none
  ordered := .unchecked none

instance : Inhabited Schema := ⟨any⟩

/-- The schema of an object with the given properties. -/
def ofTable (properties : Table Schema) (description : Option String) : Schema where
  shape := .checked (properties.entries.map fun e => (e.1, e.2.shape)) description
  ordered := by
    refine .checked ?_ fun p hp => ?_
    · exact List.Pairwise.map _ (fun _ _ h => h) properties.ascending
    · obtain ⟨e, -, rfl⟩ := List.mem_map.mp hp
      exact e.2.ordered

/-- The schema of an object with the given properties, about which nothing more is known. -/
def withNames (names : List String) : Schema :=
  ofTable (.ofList (names.map fun name => (name, any))) none

/-- The same schema with one more property, which replaces one of the same name. -/
def withProperty (s : Schema) (name : String) (property : Schema) : Schema where
  shape := .checked (Entries.insert name property.shape (s.shape.properties?.getD []))
    s.shape.description?
  ordered := by
    obtain ⟨shape, ordered⟩ := s
    cases ordered with
    | unchecked description =>
        refine .checked (Entries.ascending_insert _ _ Entries.ascending_nil) fun p hp => ?_
        rcases Entries.mem_insert hp with rfl | hp
        · exact property.ordered
        · exact nomatch hp
    | checked ascending each =>
        refine .checked (Entries.ascending_insert _ _ ascending) fun p hp => ?_
        rcases Entries.mem_insert hp with rfl | hp
        · exact property.ordered
        · exact each p hp

/-- The property of the given name. -/
def lookup (s : Schema) (name : String) : PropertyAnswer :=
  match s with
  | ⟨.unchecked _, _⟩ => .unchecked
  | ⟨.checked properties _, ordered⟩ =>
      match h : Entries.get? name properties with
      | none => .absent
      | some shape =>
          .present ⟨shape, by cases ordered with
            | checked _ each => exact each _ (Entries.mem_of_get? h)⟩

end Schema

end TemplateScan
