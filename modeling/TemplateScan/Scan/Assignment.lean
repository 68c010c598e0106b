import TemplateScan.Scan.Value

/-! # Assignments — a name, and perhaps a value for it

    A tag that takes arguments and opens no block must give the value; any other assignment tag
    may leave it out. -/

namespace TemplateScan.Machine

open Text

variable {γ : Type} [Grammar γ]

/-- One step where the name is expected. -/
def stepAssignedName (m : Machine γ) (rest : List Char) : Reply γ :=
  match identifier? rest with
  | some name => m.emit .assignedName name.length (.assignment .operator)
  | none =>
      if atClose m.tag.form rest then m.reportHere .invalidObjectName (.close false)
      else m.recover .invalidObjectName rest

/-- The assignment must give a value. -/
def mustAssign (m : Machine γ) : Bool :=
  Grammar.hasArguments m.grammar && !Grammar.isBlock m.grammar

/-- One step after the name. -/
def stepAssignmentOperator (m : Machine γ) (rest : List Char) : Reply γ :=
  if rest.head? = some '=' then m.emit .assignmentOperator 1 (.assignment .value)
  else if atClose m.tag.form rest then
    if m.mustAssign then m.reportHere .missingAssignment (.close false)
    else m.close false rest
  else m.recover .invalidOperator rest

/-- One step in an assignment. -/
def stepAssignment (m : Machine γ) (phase : AssignmentPhase) (rest : List Char) : Reply γ :=
  match phase with
  | .name => m.stepAssignedName rest
  | .operator => m.stepAssignmentOperator rest
  | .value => m.expectValue .missingAssignment .variableName .filters rest

end TemplateScan.Machine
