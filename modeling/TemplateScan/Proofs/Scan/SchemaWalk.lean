import TemplateScan.Dialect.Lookup
import TemplateScan.Proofs.Scan.Expression

/-! # Schema walks — a path against what is known of the object at its head

    A walk follows the names of a path through the shapes that a dialect declares.  At each name it
    goes on with what is known of that property, which may be nothing, and it reports a name that a
    checked object does not have.  A path that stands as a key has a walk of its own.

    The walk is about paths and shapes alone: it knows of no slots, brackets or phases.

    * **`walkName`** — one name; **`kind_walkName`**, **`known_walkName`** — a lookup answers alike.
    * **`Path.reports`** — what the walk along a path reports.
    * **`Path.checked`** — the tokens of the path, in which the reported names are faults;
      **`Path.faults_checked`** — and no others are. -/

namespace TemplateScan

-- ── one name ─────────────────────────────────────────────────────────────────────

/-- What a walk does at the name of a property. -/
inductive WalkStep where
  /-- It goes on with what is known of the property. -/
  | enter (known : Option Shape)
  /-- It reports the name, and nothing is known from there on. -/
  | report

namespace WalkStep

/-- What is known after the name. -/
def known : WalkStep → Option Shape
  | .enter known => known
  | .report => none

/-- The given text, if it is reported. -/
def reports (text : List Char) : WalkStep → List (List Char)
  | .enter _ => []
  | .report => [text]

/-- The kind of token that the name is. -/
def kind (declared : TokenKind) : WalkStep → TokenKind
  | .enter _ => declared
  | .report => .invalid .unknownProperty

end WalkStep

/-- One name of a walk, by what is known of the object whose property is named. -/
def walkName (known : Option Shape) (name : List Char) : WalkStep :=
  match known with
  | none => .enter none
  | some object =>
      if String.ofList name ∈ ["size", "first", "last"] then .enter none
      else match object.properties? with
      | none => .enter none
      | some declared =>
        match Entries.get? (String.ofList name) declared with
        | some property => .enter (some property)
        | none => .report

/-- What a dialect with the given objects knows of a name at the head of a path. -/
def Ident.shapeIn (objects : Table Schema) (head : Ident) : Option Shape :=
  (objects.get? (String.ofList head.text)).map Schema.shape

/-- The kind of token that a name at the head of a path is. -/
def Ident.kindIn (objects : Table Schema) (head : Ident) (bare : TokenKind) : TokenKind :=
  if (head.shapeIn objects).isSome then .object else bare

-- ── the walk ─────────────────────────────────────────────────────────────────────

namespace Path

variable (objects : Table Schema)

/-- The names that the walk reports, in the order in which they stand. -/
def reports : Path → Option Shape → List (List Char)
  | .nil, _ => []
  | .property name next, known =>
      let step := walkName known name.text
      step.reports name.text ++ next.reports step.known
  | .key string _ next, known =>
      let step := walkName known string.body
      step.reports string.text ++ next.reports step.known
  | .index _ next, _ => next.reports none
  | .path head inner next, _ =>
      inner.reports (head.shapeIn objects) ++ next.reports none

/-- The tokens of a path, in which the names that the walk reports are faults. -/
def checked : Path → Option Shape → List Lexeme
  | .nil, _ => []
  | .property name next, known =>
      let step := walkName known name.text
      ⟨.dot, ['.']⟩ :: ⟨step.kind .property, name.text⟩ :: next.checked step.known
  | .key string _ next, known =>
      let step := walkName known string.body
      ⟨.openBracket, ['[']⟩ :: ⟨step.kind .propertyString, string.text⟩ ::
        ⟨.closeBracket, [']']⟩ :: next.checked step.known
  | .index number next, _ =>
      ⟨.openBracket, ['[']⟩ :: ⟨.propertyNumber, number.text⟩ :: ⟨.closeBracket, [']']⟩ ::
        next.checked none
  | .path head inner next, _ =>
      ⟨.openBracket, ['[']⟩ :: ⟨head.kindIn objects .variableName, head.text⟩ ::
        (inner.checked (head.shapeIn objects) ++ ⟨.closeBracket, [']']⟩ :: next.checked none)

/-- What is known where the path ends. -/
def knownAtEnd : Path → Option Shape → Option Shape
  | .nil, known => known
  | .property name next, known => next.knownAtEnd (walkName known name.text).known
  | .key string _ next, known => next.knownAtEnd (walkName known string.body).known
  | .index _ next, _ | .path _ _ next, _ => next.knownAtEnd none

end Path

namespace Value

variable (objects : Table Schema)

/-- The names that the walk from the head of a value reports. -/
def reports : Value → List (List Char)
  | .path head _ p => p.reports objects (head.shapeIn objects)
  | _ => []

/-- The tokens of a value, in which the names reported are faults; the kind of a name that is no
    object depends on where the value stands. -/
def checked (bare : TokenKind) : Value → List Lexeme
  | .path head _ p =>
      ⟨head.kindIn objects bare, head.text⟩ :: p.checked objects (head.shapeIn objects)
  | v => v.lexemes bare

/-- What is known of the object reached once a value has been taken. -/
def knownAtEnd (known : Option Shape) : Value → Option Shape
  | .path head _ p => p.knownAtEnd (head.shapeIn objects)
  | _ => known

end Value

section Walks

variable {objects : Table Schema}

theorem faults_walkStep (step : WalkStep) {declared : TokenKind} (h : declared.fault? = none)
    (text : List Char) :
    (Lexeme.fault? ⟨step.kind declared, text⟩).toList =
      (step.reports text).map (Fault.unknownProperty, ·) := by
  cases step with
  | enter known =>
      show ((declared.fault?).map (·, text)).toList = []
      rw [h]
      rfl
  | report => rfl

theorem fault?_kindIn (head : Ident) {bare : TokenKind} (h : bare.fault? = none) :
    (head.kindIn objects bare).fault? = none := by
  rw [Ident.kindIn]
  split
  · rfl
  · exact h

/-- The faults among the tokens of a path are the names that the walk reports. -/
theorem Path.faults_checked (p : Path) (known : Option Shape) :
    (p.checked objects known).filterMap Lexeme.fault? =
      (p.reports objects known).map (Fault.unknownProperty, ·) := by
  induction p generalizing known with
  | nil => rfl
  | property name next ih =>
      rw [checked, reports, faults_cons, faults_cons, ih, faults_walkStep _ rfl, List.map_append]
      rfl
  | key string _ next ih =>
      rw [checked, reports, faults_cons, faults_cons, faults_cons, ih, faults_walkStep _ rfl,
        List.map_append]
      rfl
  | index number next ih =>
      rw [checked, reports, faults_cons, faults_cons, faults_cons, ih]
      rfl
  | path head inner next ihInner ihNext =>
      have hhead : (Lexeme.fault? ⟨head.kindIn objects .variableName, head.text⟩) = none := by
        rw [Lexeme.fault?, fault?_kindIn head rfl]
        rfl
      rw [checked, reports, faults_cons, faults_cons, List.filterMap_append, faults_cons, ihInner,
        ihNext, hhead, List.map_append]
      rfl

/-- The faults among the tokens of a value are the names that the walk reports. -/
theorem Value.faults_checked (v : Value) {bare : TokenKind} (h : bare.fault? = none) :
    (v.checked objects bare).filterMap Lexeme.fault? =
      (v.reports objects).map (Fault.unknownProperty, ·) := by
  cases v with
  | path head _ p =>
      have hhead : Lexeme.fault? ⟨head.kindIn objects bare, head.text⟩ = none := by
        rw [Lexeme.fault?, fault?_kindIn head h]
        rfl
      rw [checked, List.filterMap_cons_none hhead, Path.faults_checked, reports]
  | string _ | number _ | boolean _ => rfl

-- ── without objects ──────────────────────────────────────────────────────────────

/-- Where nothing is known, a walk through no objects reports nothing. -/
theorem Path.checked_empty (p : Path) : p.checked ∅ none = p.lexemes := by
  induction p with
  | nil => rfl
  | property name next ih => exact congrArg (_ :: _ :: ·) ih
  | key string _ next ih => exact congrArg (_ :: _ :: _ :: ·) ih
  | index number next ih => exact congrArg (_ :: _ :: _ :: ·) ih
  | path head inner next ihInner ihNext =>
      show _ :: _ :: (inner.checked ∅ none ++ _ :: next.checked ∅ none) = _
      rw [ihInner, ihNext]
      rfl

theorem Path.knownAtEnd_none (p : Path) : p.knownAtEnd none = none := by
  induction p with
  | nil => rfl
  | property _ _ ih | key _ _ _ ih | index _ _ ih => exact ih
  | path _ _ _ _ ih => exact ih

theorem Value.checked_empty (v : Value) (bare : TokenKind) : v.checked ∅ bare = v.lexemes bare := by
  cases v with
  | path head _ p => exact congrArg (_ :: ·) p.checked_empty
  | string _ | number _ | boolean _ => rfl

theorem Value.knownAtEnd_empty (v : Value) : v.knownAtEnd ∅ none = none := by
  cases v with
  | path head _ p => exact p.knownAtEnd_none
  | string _ | number _ | boolean _ => rfl

end Walks

-- ── lookups ──────────────────────────────────────────────────────────────────────

/-- A checked object has the properties that are listed for it, and no others. -/
theorem Schema.lookup_checked {properties : List (String × Shape)} {description : Option String}
    (ordered : (Shape.checked properties description).Ordered) (name : String) :
    (Entries.get? name properties = none ∧ lookup ⟨.checked properties description, ordered⟩ name =
        .absent) ∨
      ∃ property : Schema, Entries.get? name properties = some property.shape ∧
        lookup ⟨.checked properties description, ordered⟩ name = .present property := by
  simp only [lookup]
  split
  · next hget => exact .inl ⟨hget, rfl⟩
  · next shape hget => exact .inr ⟨_, hget, rfl⟩

/-- What a lookup knows of the object reached. -/
def Lookup.known (l : Lookup) : Option Shape :=
  l.object.map Schema.shape

/-- What a lookup answers about a property is what the walk finds at its name. -/
theorem walkName_eq (l : Lookup) (name : List Char) :
    walkName l.known name = match l.answer (String.ofList name) with
      | .unchecked => .enter none
      | .absent => .report
      | .present property => .enter (some property.shape) := by
  rw [Lookup.known, Lookup.answer]
  cases l.object with
  | none => rfl
  | some schema =>
      obtain ⟨shape, ordered⟩ := schema
      rw [Option.map_some, walkName]
      by_cases hmem : String.ofList name ∈ ["size", "first", "last"]
      · have harray : Lookup.arrayProperties.contains (String.ofList name) = true :=
          List.contains_iff_mem.mpr hmem
        simp only [if_pos hmem, harray, if_true]
      · have harray : Lookup.arrayProperties.contains (String.ofList name) = false := by
          rw [Bool.eq_false_iff, ne_eq, List.contains_iff_mem]
          exact hmem
        simp only [if_neg hmem, harray, Bool.false_eq_true, if_false]
        cases shape with
        | unchecked description => rfl
        | checked properties description =>
            rcases Schema.lookup_checked ordered (String.ofList name) with
              ⟨hget, hlookup⟩ | ⟨property, hget, hlookup⟩ <;>
              simp only [hlookup, Shape.properties?, hget]

/-- A property is an unknown one exactly when the walk reports its name. -/
theorem kind_walkName (l : Lookup) (name : List Char) (declared : TokenKind) :
    (if l.hasProperty? (String.ofList name) = some false then .invalid .unknownProperty
      else declared) = (walkName l.known name).kind declared := by
  rw [walkName_eq, Lookup.hasProperty?]
  cases l.answer (String.ofList name) <;> rfl

/-- The object that a lookup goes on to is the one that the walk goes on with. -/
theorem known_walkName (l : Lookup) (name : List Char) :
    (l.enterProperty (String.ofList name)).known = (walkName l.known name).known := by
  rw [walkName_eq, Lookup.enterProperty]
  cases l.answer (String.ofList name) <;> rfl

end TemplateScan
