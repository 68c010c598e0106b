import TemplateScan.Dialect.Rule

/-! # Faults — what can be wrong with a tag, and how it is said -/

namespace TemplateScan

/-- The ways in which a tag can break the rules. -/
inductive Fault where
  | missingEndTag
  | invalidCharacter
  | invalidCharacters
  | missingQuotation
  | invalidTagName
  | invalidObjectName
  /-- A loop without the name of its variable. -/
  | missingLoopVariable
  /-- A loop without its collection. -/
  | missingCollection
  | invalidOperator
  | misplacedTag
  | missingCondition
  | unexpectedArguments
  /-- An argument of a type that the filter does not accept there. -/
  | rejected (value : ValueType)
  | missingColon
  | missingArgument
  | missingSeparator
  | missingFilter
  | unknownFilter
  | missingProperty
  | invalidProperty
  | missingBracket
  /-- Blanks between a trim dash and the close delimiter. -/
  | blankAfterTrim
  | missingClose
  | unknownProperty
  | missingTagName
  | missingAssignment
  | unknownParameter
  | missingParameterValue
deriving DecidableEq, Repr

/-- The wording of a fault. -/
def Fault.message : Fault → String
  | .missingEndTag => "Missing end tag"
  | .invalidCharacter => "Invalid character"
  | .invalidCharacters => "Invalid characters"
  | .missingQuotation => "Missing closing quotation"
  | .invalidTagName => "Invalid tag name"
  | .invalidObjectName => "Invalid object name"
  | .missingLoopVariable => "Missing iteration iteree"
  | .missingCollection => "Missing iteration array"
  | .invalidOperator => "Invalid operator"
  | .misplacedTag => "Tag is not allowed here"
  | .missingCondition => "Missing condition"
  | .unexpectedArguments => "Filter does not accept arguments"
  | .rejected .string => "Argument does not accept a string"
  | .rejected .float => "Argument does not accept a number"
  | .rejected .integer => "Argument does not accept an integer"
  | .rejected .boolean => "Argument does not accept a boolean"
  | .rejected .reference => "Argument does not accept a variable"
  | .missingColon => "Missing colon"
  | .missingArgument => "Missing filter argument"
  | .missingSeparator => "Missing filter argument separator"
  | .missingFilter => "Missing filter"
  | .unknownFilter => "Unknown filter"
  | .missingProperty => "Missing property"
  | .invalidProperty => "Invalid property"
  | .missingBracket => "Missing closing bracket"
  | .blankAfterTrim => "Whitespace is not allowed after a trim dash"
  | .missingClose => "Missing close delimiter"
  | .unknownProperty => "Unknown property"
  | .missingTagName => "Missing tag name"
  | .missingAssignment => "Missing assignment value"
  | .unknownParameter => "Unknown parameter"
  | .missingParameterValue => "Missing parameter value"

end TemplateScan
