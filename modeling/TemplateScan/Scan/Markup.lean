import TemplateScan.Scan.Literal

/-! # Markup — the attributes of a tracked HTML element

    Between the name of an element and the bracket that ends it stand attributes: a name, and
    perhaps an equals sign and a value.  A tag of the template may begin anywhere among them; what
    follows that tag is literal text again. -/

namespace TemplateScan.Machine

open Text

variable {γ : Type} [Grammar γ]

/-- The characters, beside blanks, at which the name of an attribute ends. -/
def attributeEnds : List Char :=
  ['=', '>', '/', '"', '\'', '{']

/-- A character that the name of an attribute may hold. -/
def isAttributeChar (c : Char) : Bool :=
  !isBlank c && !attributeEnds.contains c

/-- The open blocks without the innermost one. -/
def closeInnermost (blocks : Blocks) : Blocks :=
  match blocks.parent? with
  | some name => blocks.close name
  | none => blocks

/-- One step where an attribute, or the end of the markup, is expected. -/
def stepAttributeName (m : Machine γ) (r : Reader) : Reply γ :=
  if r.isNext ['>'] then m.emit .markupClose 1 .literal
  else if r.isNext ['/', '>'] then
    { m with blocks := closeInnermost m.blocks }.emit .markupClose 2 .literal
  else if startsWithOpener r.rest then { m with phase := .literal }.stepLiteral r
  else
    let name := r.rest.takeWhile isAttributeChar
    if name.isEmpty then m.emit .cancelled 1 .literal
    else m.emit .attributeName name.length (.markup .attributeOperator)

/-- One step after the name of an attribute. -/
def stepAttributeOperator (m : Machine γ) (r : Reader) : Reply γ :=
  if r.isNext ['='] then m.emit .attributeOperator 1 (.markup .attributeValue)
  else m.stepAttributeName r

/-- The value without quotes that the text begins with. -/
def bareValue (text : List Char) : List Char :=
  beforeStops openers (text.takeWhile fun c => !isBlank c && c != '>')

/-- One step where the value of an attribute is expected. -/
def stepAttributeValue (m : Machine γ) (r : Reader) : Reply γ :=
  match quoted? openers r.rest with
  | some (.closed quote body) =>
      m.emit .attributeValue (Quoted.closed quote body).text.length (.markup .attributeName)
  | some (.unclosed quote body) =>
      let length := (Quoted.unclosed quote body).text.length
      m.emit (if startsWithOpener (r.rest.drop length) then .attributeValue else .cancelled)
        length .literal
  | none =>
      let value := bareValue r.rest
      if value.isEmpty then m.stepAttributeName r
      else m.emit .attributeValue value.length (.markup .attributeName)

/-- One step after the name of an element that ends. -/
def stepCloseName (m : Machine γ) (r : Reader) : Reply γ :=
  if r.isNext ['>'] then m.emit .endMarkupClose 1 .literal
  else m.emit .cancelled 0 .literal

/-- One step in the markup of an element. -/
def stepMarkup (m : Machine γ) (phase : MarkupPhase) (r : Reader) : Reply γ :=
  match phase with
  | .attributeName => m.stepAttributeName r
  | .attributeOperator => m.stepAttributeOperator r
  | .attributeValue => m.stepAttributeValue r
  | .closeName => m.stepCloseName r

end TemplateScan.Machine
