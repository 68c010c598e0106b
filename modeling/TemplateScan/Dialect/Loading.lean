import TemplateScan.Dialect.Basic
import TemplateScan.Dialect.Names
import TemplateScan.Json.Decoder

/-! # Loading — a dialect from text

    Every record may leave out its members, which then are as in the empty record; only a modifier
    must have its name.  Unknown members are passed over.  A dialect that has been read to its end
    must be sound: a placement rule may name no tag that the dialect does not have. -/

namespace TemplateScan

open Json

-- ── faults ───────────────────────────────────────────────────────────────────────

/-- Why a dialect cannot be loaded. -/
inductive LoadFault where
  /-- The text is not the description of a dialect. -/
  | defective (defect : Defect)
  /-- The rule of a tag names a parent that is no tag. -/
  | strayParent (tag parent : String)
deriving DecidableEq, Repr

/-- The wording of a fault in the rules; a defect of the text is only named. -/
def LoadFault.message? : LoadFault → Option String
  | .defective _ => none
  | .strayParent tag parent =>
      some ("Tag '" ++ tag ++ "' lists unknown parent '" ++ parent ++ "'")

namespace Dialect

open Decoder

/-- The levels of arrays and objects that the description of a dialect may have. -/
def maxLevels : Nat := 127

-- ── rules ────────────────────────────────────────────────────────────────────────

/-- A modifier that is being put together; it may still lack its name. -/
structure ParameterDraft where
  name : Option String := none
  takesValue : Bool := false

/-- The members of a modifier. -/
def parameterMembers (levels : Nat) : Members ParameterDraft where
  names := ["name", "value"]
  assign name value draft := match name with
    | "name" => do pure { draft with name := ← text levels value }
    | "value" => do pure { draft with takesValue := ← bool levels value }
    | _ => pure draft

/-- A modifier, which must have a name. -/
def parameter : Decoder TagParameter := fun levels outline => do
  let draft ← record parameterMembers {} levels outline
  match draft.name with
  | some name => .ok ⟨name, draft.takesValue⟩
  | none => .error .mismatched

/-- The members of a tag rule. -/
def tagMembers (levels : Nat) : Members TagRule where
  names := ["kind", "block", "singular", "arguments", "parents", "parameters", "language",
    "description"]
  assign name value rule := match name with
    | "kind" => do pure { rule with kind := ← variant TagKind.ofName? levels value }
    | "block" => do pure { rule with block := ← bool levels value }
    | "singular" => do pure { rule with singular := ← bool levels value }
    | "arguments" => do pure { rule with arguments := ← bool levels value }
    | "parents" => do pure { rule with parents := ← list text levels value }
    | "parameters" => do pure { rule with parameters := ← list parameter levels value }
    | "language" => do
        pure { rule with language := ← option (variant Language.ofName?) levels value }
    | "description" => do pure { rule with description := ← option text levels value }
    | _ => pure rule

/-- A tag rule. -/
def tagRule : Decoder TagRule :=
  record tagMembers {}

/-- The members of an argument rule. -/
def argumentMembers (levels : Nat) : Members ArgumentRule where
  names := ["kind", "accepts", "required"]
  assign name value rule := match name with
    | "kind" => do pure { rule with kind := ← variant ArgumentKind.ofName? levels value }
    | "accepts" => do pure { rule with accepted := ← list (variant ValueType.ofName?) levels value }
    | "required" => do pure { rule with required := ← bool levels value }
    | _ => pure rule

/-- An argument rule. -/
def argumentRule : Decoder ArgumentRule :=
  record argumentMembers {}

/-- The members of a filter rule. -/
def filterMembers (levels : Nat) : Members FilterRule where
  names := ["arguments", "description"]
  assign name value rule := match name with
    | "arguments" => do pure { rule with arguments := ← list argumentRule levels value }
    | "description" => do pure { rule with description := ← option text levels value }
    | _ => pure rule

/-- A filter rule. -/
def filterRule : Decoder FilterRule :=
  record filterMembers {}

-- ── schemas ──────────────────────────────────────────────────────────────────────

/-- A schema that is being put together. -/
structure SchemaDraft where
  properties : Option (Table Schema) := none
  description : Option String := none

/-- The schema that has been put together. -/
def SchemaDraft.schema (draft : SchemaDraft) : Schema :=
  match draft.properties with
  | none => ⟨.unchecked draft.description, .unchecked _⟩
  | some properties => .ofTable properties draft.description

/-- The members of a schema, given how its properties are read. -/
def schemaMembers (properties : Decoder (Table Schema)) (levels : Nat) : Members SchemaDraft where
  names := ["properties", "description"]
  assign name value draft := match name with
    | "properties" => do pure { draft with properties := ← option properties levels value }
    | "description" => do pure { draft with description := ← option text levels value }
    | _ => pure draft

/-- A schema; those of its properties have two levels less. -/
def schema : Decoder Schema
  | levels + 2, outline =>
      (record (schemaMembers (table fun _ property => schema levels property)) {} (levels + 2)
        outline).map (·.schema)
  | levels, outline =>
      (record (schemaMembers (table fun _ _ => .error .malformed)) {} levels outline).map
        (·.schema)

-- ── dialects ─────────────────────────────────────────────────────────────────────

/-- The members of a dialect. -/
def dialectMembers (levels : Nat) : Members Dialect where
  names := ["tags", "filters", "objects", "associates"]
  assign name value d := match name with
    | "tags" => do pure { d with tags := ← table tagRule levels value }
    | "filters" => do pure { d with filters := ← table filterRule levels value }
    | "objects" => do pure { d with objects := ← table schema levels value }
    | "associates" => do pure { d with associates := ← list text levels value }
    | _ => pure d

/-- A dialect, sound or not. -/
def decoder : Decoder Dialect :=
  record dialectMembers .empty

/-- The dialect that a text describes, sound or not. -/
def decode (text : List Char) : Decoded Dialect := do
  let (root, rest) := outline text
  let dialect ← decoder maxLevels root
  if rest.isEmpty then pure dialect else .error .malformed

/-- The dialect that a text describes, if it is sound. -/
def load (text : String) : Except LoadFault Dialect :=
  match decode text.toList with
  | .error defect => .error (.defective defect)
  | .ok dialect =>
      match dialect.strayParent? with
      | some (tag, parent) => .error (.strayParent tag parent)
      | none => .ok dialect

end Dialect

end TemplateScan
