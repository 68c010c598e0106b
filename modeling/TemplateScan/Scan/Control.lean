import TemplateScan.Scan.Value

/-! # Conditions — values joined by operators

    After the name of a control tag that takes arguments comes a condition: values, with an
    operator or a comma between each two of them. -/

namespace TemplateScan.Machine

open Text

variable {γ : Type} [Grammar γ]

/-- The comparisons, a longer one before those it begins with. -/
def comparisons : List (List Char) :=
  ["==".toList, "!=".toList, "<>".toList, ">=".toList, "<=".toList, ">".toList, "<".toList]

/-- The operators that are words. -/
def operatorWords : List (List Char) :=
  ["contains".toList, "and".toList, "or".toList]

/-- The operator that the text begins with. -/
def operator? (text : List Char) : Option (List Char) :=
  (comparisons.find? (·.isPrefixOf text)).or (operatorWords.find? (startsWithWord · text))

/-- One step where a value of the condition is expected. -/
def stepCondition (m : Machine γ) (rest : List Char) : Reply γ :=
  m.expectValue .missingCondition .variableName .condition rest

/-- One step after a value of the condition. -/
def stepOperator (m : Machine γ) (rest : List Char) : Reply γ :=
  if atClose m.tag.form rest then m.close false rest
  else match operator? rest with
  | some operator => m.emit .controlOperator operator.length (.control .condition)
  | none =>
      if rest.head? = some ',' then m.emit .separator 1 (.control .condition)
      else m.recover .invalidOperator rest

/-- One step in a control tag. -/
def stepControl (m : Machine γ) (phase : ControlPhase) (rest : List Char) : Reply γ :=
  match phase with
  | .start =>
      if Grammar.hasArguments m.grammar then m.stepCondition rest else m.close false rest
  | .condition => m.stepCondition rest
  | .operator => m.stepOperator rest

end TemplateScan.Machine
