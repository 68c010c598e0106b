import TemplateScan.Scan.Assignment
import TemplateScan.Scan.Path

/-! # Names of tags — what kind of tag has been opened

    After the open delimiter, and a trim dash directly behind it, an output tag goes on with its
    value.  In a statement tag the name decides: `end` and a name closes the nearest block of that
    name; a name that the grammar knows begins a tag whose category says how it goes on; any other
    name leads to the end of the tag. -/

namespace TemplateScan.Machine

open Text

variable {γ : Type} [Grammar γ]

-- ── end tags ─────────────────────────────────────────────────────────────────────

/-- The name of the block that an end tag of the given name closes. -/
def closedName? (name : List Char) : Option (List Char) :=
  match name with
  | 'e' :: 'n' :: 'd' :: block => if block.isEmpty then none else some block
  | _ => none

/-- Take the name of an end tag, and with it the whole tag so far, and close its block. -/
def takeEndTag (m : Machine γ) (name block : List Char) : Reply γ where
  event := .token .endTag
  extent := .takeFrom m.tag.start name.length
  machine := { m with
    phase := .close true
    pair := (m.blocks.nearest? (String.ofList block)).map Block.node
    blocks := m.blocks.close (String.ofList block) }

-- ── start tags ───────────────────────────────────────────────────────────────────

/-- The token of a tag of the current category, and the phase in which the tag goes on. -/
def identity (m : Machine γ) : TokenKind × Phase :=
  if Grammar.isSingular m.grammar then (.singularTag, .skipRest)
  else match (Grammar.kind? m.grammar).getD .other with
  | .comment => (.comment, .skipRest)
  | .raw => (.startTag, .skipRest)
  | .embedded => (.embeddedTag, .embedded)
  | .control => (.control, .control .start)
  | .iteration => (.iteration, .loop .variableName)
  | .assignment => (.assignment, .assignment .name)
  | .output => (.startTag, .outputValue)
  | .inclusion | .other =>
      (.startTag, if Grammar.hasArguments m.grammar then .skipRest else .close false)

/-- The kind of token that the body of the current tag becomes, when it is passed over. -/
def bodyKind? (m : Machine γ) : Option TokenKind :=
  if Grammar.isSingular m.grammar then none
  else match (Grammar.kind? m.grammar).getD .other with
  | .comment => some .comment
  | .raw => some .rawBody
  | .embedded => some (.embeddedBody (Grammar.language? m.grammar))
  | _ => none

/-- The current tag stands where its rule does not allow it. -/
def isMisplaced (m : Machine γ) : Bool :=
  Grammar.hasPlacement m.grammar && !Grammar.allowsParent m.grammar m.blocks.parent?

/-- The block that the current tag opens. -/
def openedBlock (m : Machine γ) (name : List Char) (d : Document) : Block where
  name := String.ofList name
  node := m.tag.node
  span := d.spanOf m.tag.start (m.tag.start + m.tag.form.opener.length)

/-- Take the name of a tag that the grammar knows. -/
def takeStartTag (m : Machine γ) (name : List Char) (d : Document) : Reply γ :=
  let (kind, phase) := m.identity
  { m with
    blocks := if Grammar.isBlock m.grammar then m.blocks.push (m.openedBlock name d) else m.blocks
    body := (m.bodyKind?.map (Body.mk name)).or m.body }
  |>.emit (if m.isMisplaced then .invalid .misplacedTag else kind) name.length phase

/-- One step where the name of a statement tag is expected. -/
def stepTagName (m : Machine γ) (r : Reader) : Reply γ :=
  if atClose m.tag.form r.rest then m.reportHere .missingTagName (.close false)
  else if r.rest.head? = some '#' then
    m.emit .comment (recoveryEnd m.tag.form r.rest) (.close false)
  else match identifier? r.rest with
  | none => m.recover .invalidTagName r.rest
  | some name =>
      let grammar := Grammar.setExpect m.grammar .tag
      let known := Grammar.knows grammar (String.ofList name)
      let m := { m with grammar := Grammar.resolve grammar (String.ofList name) }
      if known then m.takeStartTag name r.document
      else m.emit .unknownTag name.length .unknownTag

/-- One step after the open delimiter. -/
def stepOpened (m : Machine γ) (r : Reader) : Reply γ :=
  if r.offset = m.tag.start + m.tag.form.opener.length ∧ r.rest.head? = some '-' then
    m.emit .trimLeft 1 .opened
  else match m.tag.form with
  | .output => m.emit .outputTag 0 .outputValue
  | .statement =>
    match identifier? r.rest with
    | some name =>
        match closedName? name with
        | some block => m.takeEndTag name block
        | none => m.stepTagName r
    | none => m.stepTagName r

/-- One step before the value of an output tag. -/
def stepOutputValue (m : Machine γ) (rest : List Char) : Reply γ :=
  m.expectValue .missingTagName .object .filters rest

/-- One step after the name of an embedded tag. -/
def stepEmbedded (m : Machine γ) (rest : List Char) : Reply γ :=
  if Grammar.hasArguments m.grammar then m.skipRest rest else m.close false rest

end TemplateScan.Machine
