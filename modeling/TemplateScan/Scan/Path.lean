import TemplateScan.Scan.Control
import TemplateScan.Scan.Filter
import TemplateScan.Scan.Loop

/-! # Paths — from an object to its properties

    A path goes on with a dot and a name, or with a key in brackets: a string, a number, or a path
    of its own.  The properties named are checked as long as the grammar knows the object; a number
    or a path as a key ends the checking.  Where the path ends, things go on as its `Resume`
    says. -/

namespace TemplateScan.Machine

open Text

variable {γ : Type} [Grammar γ]

/-- The machine with the object path no longer checked. -/
def releaseObject (m : Machine γ) : Machine γ :=
  { m with grammar := Grammar.releaseObject m.grammar }

/-- One step after a value or path that has ended. -/
def stepResume (m : Machine γ) (resume : Resume) (rest : List Char) : Reply γ :=
  match resume with
  | .filters => m.stepPipe rest
  | .condition => m.stepOperator rest
  | .parameters => m.stepParameter rest
  | .arguments => m.stepSeparator rest

/-- Take a property as a token of the given kind, or report that the object does not have it. -/
def takeProperty (m : Machine γ) (name : List Char) (kind : TokenKind) (length : Nat)
    (phase : Phase) : Reply γ :=
  let known := Grammar.hasProperty? m.grammar (String.ofList name)
  { m with grammar := Grammar.enterProperty m.grammar (String.ofList name) }.emit
    (if known = some false then .invalid .unknownProperty else kind) length phase

-- ── steps ────────────────────────────────────────────────────────────────────────

/-- One step after the key in a bracket. -/
def stepKeyEnd (m : Machine γ) (resume : Resume) (rest : List Char) : Reply γ :=
  if rest.head? = some ']' then
    match m.brackets.innermost? with
    | none => m.recover .invalidCharacter rest
    | some bracket =>
        let m := if bracket.dynamic then m.releaseObject else m
        { m with brackets := m.brackets.pop }.emit .closeBracket 1 (.path .member resume)
  else if atClose m.tag.form rest || (tagEnd? m.tag.form rest).isNone then m.close false rest
  else m.recover .invalidProperty rest

/-- One step where the path may go on. -/
def stepMember (m : Machine γ) (resume : Resume) (r : Reader) : Reply γ :=
  match r.rest with
  | '.' :: tail =>
      if startsIdentifier tail then m.emit .dot 1 (.path .dot resume)
      else if tail.head? = some '.' then m.recover .invalidCharacter r.rest
      else m.recover .missingProperty r.rest
  | '[' :: _ =>
      { m with brackets := m.brackets.push r.offset }.emit .openBracket 1 (.path .key resume)
  | rest =>
      if !m.brackets.isEmpty then m.stepKeyEnd resume rest
      else if rest.head? = some ']' then m.recover .invalidCharacter rest
      else m.releaseObject.stepResume resume rest

/-- One step after a dot. -/
def stepDot (m : Machine γ) (resume : Resume) (rest : List Char) : Reply γ :=
  match identifier? rest with
  | some name => m.takeProperty name .property name.length (.path .member resume)
  | none => m.recover .missingProperty rest

/-- One step after an opening bracket. -/
def stepKey (m : Machine γ) (resume : Resume) (rest : List Char) : Reply γ :=
  if rest.head? = some ']' then m.reportHere .missingProperty (.path .keyEnd resume)
  else if atClose m.tag.form rest then m.reportHere .missingProperty (.close false)
  else match quoted? m.tag.form.stringStops rest with
  | some (.closed quote body) =>
      let length := (Quoted.closed quote body).text.length
      if body.isEmpty then m.report .missingProperty length (.path .keyEnd resume)
      else m.takeProperty body .propertyString length (.path .keyEnd resume)
  | some (.unclosed quote body) =>
      m.report .missingQuotation (Quoted.unclosed quote body).text.length (.close false)
  | none =>
    let m := m.releaseObject
    match number? rest with
    | some (_, digits) => m.emit .propertyNumber digits.length (.path .keyEnd resume)
    | none =>
      match identifier? rest with
      | some name =>
          { m with brackets := m.brackets.markDynamic }.beginPath name
            (m.referenceKind name .variableName) resume
      | none => m.unexpected rest

/-- One step in a path. -/
def stepPath (m : Machine γ) (phase : PathPhase) (resume : Resume) (r : Reader) : Reply γ :=
  match phase with
  | .member => m.stepMember resume r
  | .dot => m.stepDot resume r.rest
  | .key => m.stepKey resume r.rest
  | .keyEnd => m.stepKeyEnd resume r.rest

end TemplateScan.Machine
