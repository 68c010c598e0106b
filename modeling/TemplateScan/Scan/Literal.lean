import TemplateScan.Scan.Machine

/-! # Literal text — what stands between the tags

    Outside tags the scanner passes over text up to the next character that may begin something: a
    brace, or an angle bracket when HTML elements are tracked.

    The body of a comment, a raw block or an embedded tag is passed over as a whole, up to the open
    delimiter of its end tag. -/

namespace TemplateScan.Machine

open Text

variable {γ : Type} [Grammar γ]

-- ── bodies ───────────────────────────────────────────────────────────────────────

/-- The text begins with the end tag of a body, trim dashes and blanks included. -/
def startsEndTag (name text : List Char) : Bool :=
  let opener := TagForm.opener .statement
  opener.isPrefixOf text &&
    startsWithWord ("end".toList ++ name)
      (trimStart ((text.drop opener.length).dropWhile (· == '-')))

/-- The place of the first end tag of the given name. -/
def endTagAt? (name : List Char) : List Char → Option Nat
  | [] => none
  | c :: cs =>
      if startsEndTag name (c :: cs) then some 0 else (endTagAt? name cs).map (· + 1)

/-- One step over the body of a tag; an empty body is not a token. -/
def stepBody (m : Machine γ) (body : Body) (rest : List Char) : Reply γ :=
  match endTagAt? body.name rest with
  | some n =>
      ⟨if n = 0 then .text else .token body.kind, .take n,
        { m with phase := .literal, body := none }⟩
  | none => ⟨.token body.kind, .take rest.length, { m with phase := .literal }⟩

-- ── markup ───────────────────────────────────────────────────────────────────────

/-- The name under which an HTML element is kept among the open blocks. -/
def elementKey (name : List Char) : String :=
  String.ofList ('<' :: name.map Char.toLower ++ ['>'])

/-- One step over the name of an HTML element that begins; `length` counts the bracket, too. -/
def stepElement (m : Machine γ) (name : List Char) (r : Reader) : Reply γ :=
  let length := 1 + name.length
  if Grammar.isAssociate m.grammar (String.ofList name) then
    let span := r.document.spanOf r.offset (r.offsetAt length)
    { m with
      blocks := m.blocks.push ⟨elementKey name, m.nodes, span⟩
      nodes := m.nodes + 1 }
    |>.emit .markupName length (.markup .attributeName)
  else m.emit .cancelled length .literal

/-- One step over the name of an HTML element that ends. -/
def stepEndElement (m : Machine γ) (name : List Char) : Reply γ :=
  let length := 2 + name.length
  if Grammar.isAssociate m.grammar (String.ofList name) then
    { m with
      pair := (m.blocks.nearest? (elementKey name)).map Block.node
      blocks := m.blocks.close (elementKey name) }
    |>.emit .endMarkupName length (.markup .closeName)
  else m.emit .cancelled length .literal

-- ── text ─────────────────────────────────────────────────────────────────────────

/-- A character at which literal text is interrupted. -/
def interrupts (associates : Bool) (c : Char) : Bool :=
  c == '{' || (associates && c == '<')

/-- The number of characters passed over as literal text. -/
def literalLength (associates : Bool) (rest : List Char) : Nat :=
  1 + (rest.tail.takeWhile fun c => !interrupts associates c).length

/-- One step over literal text. -/
def passText (m : Machine γ) (rest : List Char) : Reply γ where
  event := .text
  extent := .take (literalLength (Grammar.hasAssociates m.grammar) rest)
  machine := { m with phase := .literal }

/-- One step over text in which HTML elements are tracked. -/
def stepMarkupText (m : Machine γ) (r : Reader) : Reply γ :=
  match r.rest with
  | '<' :: '/' :: tail =>
      match identifier? tail with
      | some name => m.stepEndElement name
      | none => m.passText r.rest
  | '<' :: tail =>
      match identifier? tail with
      | some name => m.stepElement name r
      | none => m.passText r.rest
  | _ => m.passText r.rest

/-- One step outside tags. -/
def stepLiteral (m : Machine γ) (r : Reader) : Reply γ :=
  match m.body with
  | some body => m.stepBody body r.rest
  | none =>
    if r.isNext (TagForm.opener .output) then m.openTag .output r.offset
    else if r.isNext (TagForm.opener .statement) then m.openTag .statement r.offset
    else if Grammar.hasAssociates m.grammar then m.stepMarkupText r
    else m.passText r.rest

end TemplateScan.Machine
