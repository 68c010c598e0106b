import TemplateScan.Json.Outline
import TemplateScan.Table

/-! # Decoders — from outlines to data

    A decoder answers with a value or with the first defect of the text, from left to right.  So an
    array or object is read up to its end before its ending is looked at, and a broken part is met
    exactly when everything before it has been accepted.

    Arrays and objects may be nested only so deep; the number a decoder is given is the number of
    levels that are left.  A part that is passed over (`skip`) may be nested at will.

    * `list`, `table` — arrays and objects whose items are all alike.
    * `option` — a value or `null`.
    * `variant` — one of several names.
    * `record` — an object with known members, or an array with their values in order. -/

namespace TemplateScan.Json

-- ── defects ──────────────────────────────────────────────────────────────────────

namespace Broken

/-- The defect met when the part is to be kept. -/
def kept : Broken → Defect
  | .string lone defect => if lone then .malformed else defect
  | .number atEnd => if atEnd then .cutShort else .malformed
  | .bool defect | .null defect => defect
  | .stray => .malformed

/-- The defect met when the part is passed over. -/
def skipped : Broken → Defect
  | .string _ defect => defect
  | .bool defect | .null defect => defect
  | _ => .malformed

/-- The defect met when a name is needed. -/
def asVariant : Broken → Defect
  | .string lone defect => kept (.string lone defect)
  | _ => .malformed

end Broken

/-- The defect of something that is found in place of punctuation. -/
def misplacedDefect : (found : Option Lexeme) → Defect
  | none => .cutShort
  | some _ => .malformed

/-- The defect of something that is found in place of a key. -/
def keyDefect (brokenDefect : Broken → Defect) : (found : Option Lexeme) → Defect
  | none => .cutShort
  | some (.broken (.string lone defect)) => brokenDefect (.string lone defect)
  | some _ => .malformed

/-- The defect met when the outline is a value, but not of the type that is needed. -/
def Outline.mismatch : Outline → Defect
  | .string (some _) => .mismatched
  | .string none => .malformed
  | .number inRange => if inRange then .mismatched else .malformed
  | .bool _ | .null | .array _ _ | .object _ _ => .mismatched
  | .broken what => what.kept
  | .missing => .cutShort

/-- The defect met when a name is needed and something else is found. -/
def Outline.notVariant : Outline → Defect
  | .broken what => what.asVariant
  | .missing => .cutShort
  | _ => .malformed

/-- The defect of something that is found where the name of an option is needed as a key. -/
def nameDefect : (found : Option Lexeme) → Defect
  | none => .cutShort
  | some lexeme =>
      match lexeme with
      | .number inRange => (Outline.number inRange).mismatch
      | .bool _ | .null | .string _ | .openArray | .openObject => .mismatched
      | .broken what => what.kept
      | _ => .malformed

-- ── endings ──────────────────────────────────────────────────────────────────────

/-- An array must be closed. -/
def ArrayEnding.check : ArrayEnding → Decoded Unit
  | .closed => .ok ()
  | .noSeparator found => .error (misplacedDefect found)

/-- An object must be closed. -/
def ObjectEnding.check (brokenDefect : Broken → Defect) : ObjectEnding → Decoded Unit
  | .closed => .ok ()
  | .noSeparator found => .error (misplacedDefect found)
  | .noKey found => .error (keyDefect brokenDefect found)
  | .noColon _ found => .error (misplacedDefect found)

/-- A key that is kept must have a text. -/
def keptKey : Key → Decoded String
  | some text => .ok text
  | none => .error .malformed

/-- An object whose keys are all kept must be closed; a key without a colon is looked at first. -/
def ObjectEnding.checkKept (ending : ObjectEnding) (checkKey : String → Decoded Unit) :
    Decoded Unit := do
  if let .noColon key _ := ending then
    checkKey (← keptKey key)
  ending.check Broken.kept

-- ── passing over a part ──────────────────────────────────────────────────────────

namespace Outline

mutual

/-- Pass over a value, which must be JSON. -/
def skip : Outline → Decoded Unit
  | .array items ending => do
      skipItems items
      ending.check
  | .object members ending => do
      skipMembers members
      ending.check Broken.skipped
  | .broken what => .error what.skipped
  | .missing => .error .cutShort
  | _ => .ok ()

/-- Pass over the items of an array. -/
def skipItems : List Outline → Decoded Unit
  | [] => .ok ()
  | item :: items => do
      skip item
      skipItems items

/-- Pass over the members of an object. -/
def skipMembers : List (Key × Outline) → Decoded Unit
  | [] => .ok ()
  | (_, value) :: members => do
      skip value
      skipMembers members

end

end Outline

-- ── decoders ─────────────────────────────────────────────────────────────────────

/-- Reads an outline, with a number of levels left for arrays and objects. -/
abbrev Decoder (α : Type) := Nat → Outline → Decoded α

namespace Decoder

variable {α σ : Type}

/-- A truth value. -/
def bool : Decoder Bool
  | _, .bool value => .ok value
  | _, other => .error other.mismatch

/-- A string. -/
def text : Decoder String
  | _, .string (some text) => .ok text
  | _, other => .error other.mismatch

/-- A value, or `null`, which whatever begins like it must be. -/
def option (value : Decoder α) : Decoder (Option α)
  | _, .null => .ok none
  | _, .broken (.null defect) => .error defect
  | levels, other => (value levels other).map some

/-- An array of values. -/
def list (item : Decoder α) : Decoder (List α)
  | 0, .array _ _ => .error .malformed
  | levels + 1, .array items ending => do
      let values ← items.mapM (item levels)
      ending.check
      pure values
  | _, other => .error other.mismatch

/-- The entries of an object. -/
def entries (value : Outline → Decoded α) : List (Key × Outline) → Decoded (List (String × α))
  | [] => .ok []
  | (key, outline) :: members => do
      let key ← keptKey key
      let value' ← value outline
      let rest ← entries value members
      pure ((key, value') :: rest)

/-- An object as a table; of several members with one key the last counts. -/
def table (value : Decoder α) : Decoder (Table α)
  | 0, .object _ _ => .error .malformed
  | levels + 1, .object members ending => do
      let entries ← entries (value levels) members
      ending.checkKept fun _ => .ok ()
      pure (.ofList entries)
  | _, other => .error other.mismatch

-- ── names ────────────────────────────────────────────────────────────────────────

/-- The option with the given name. -/
def named (ofName? : String → Option α) (key : Key) : Decoded α := do
  match ofName? (← keptKey key) with
  | some value => .ok value
  | none => .error .mismatched

/-- Only `null` may stand beside the name of an option. -/
def unit : Outline → Decoded Unit
  | .null => .ok ()
  | other => .error other.mismatch

/-- A name, as a string or as the only key of an object with the value `null`. -/
def variant (ofName? : String → Option α) : Decoder α
  | _, .string key => named ofName? key
  | 0, .object _ _ => .error .malformed
  | _ + 1, .object [] ending =>
      match ending with
      | .closed | .noSeparator _ => .error .malformed
      | .noKey found => .error (nameDefect found)
      | .noColon key found => do
          discard (named ofName? key)
          .error (misplacedDefect found)
  | _ + 1, .object ((key, value) :: members) ending => do
      let option ← named ofName? key
      unit value
      match members, ending with
      | [], .closed => pure option
      | [], .noSeparator found => .error (misplacedDefect found)
      | _, _ => .error .malformed
  | _, other => .error other.notVariant

-- ── records ──────────────────────────────────────────────────────────────────────

/-- What is known of a kind of record: its members in order, and how each of them is read into a
    record that is being put together. -/
structure Members (σ : Type) where
  names : List String
  assign : String → Outline → σ → Decoded σ

/-- A member that is known may not have been seen before. -/
def checkSeen (m : Members σ) (seen : List String) (name : String) : Decoded Unit :=
  if m.names.contains name && seen.contains name then .error .mismatched else .ok ()

/-- Read the members of an object; unknown ones are passed over. -/
def readMembers (m : Members σ) :
    (seen : List String) → List (Key × Outline) → σ → Decoded (List String × σ)
  | seen, [], record => .ok (seen, record)
  | seen, (key, value) :: members, record => do
      let name ← keptKey key
      checkSeen m seen name
      if m.names.contains name then
        let record ← m.assign name value record
        readMembers m (name :: seen) members record
      else
        value.skip
        readMembers m seen members record

/-- Read the items of an array as the members with the given names. -/
def readItems (m : Members σ) : (names : List String) → List Outline → σ → Decoded σ
  | _, [], record => .ok record
  | [], _ :: _, _ => .error .malformed
  | name :: names, item :: items, record => do
      let record ← m.assign name item record
      readItems m names items record

/-- A record, as an object or as an array of the values of its members; what is not given is as in
    `start`. -/
def record (members : (levels : Nat) → Members σ) (start : σ) : Decoder σ
  | 0, .array _ _ => .error .malformed
  | 0, .object _ _ => .error .malformed
  | levels + 1, .array items ending => do
      let m := members levels
      let record ← readItems m m.names items start
      ending.check
      pure record
  | levels + 1, .object outlines ending => do
      let m := members levels
      let (seen, record) ← readMembers m [] outlines start
      ending.checkKept (checkSeen m seen)
      pure record
  | _, other => .error other.mismatch

end Decoder

end TemplateScan.Json
