/-! # Phases — what may come next

    The scanner is always in exactly one phase: in literal text, in the markup of a tracked HTML
    element, or at some point of a tag.  Each part of the language of tags has phases of its own. -/

namespace TemplateScan

/-- Where the scanner is in the markup of an HTML element. -/
inductive MarkupPhase where
  | attributeName
  | attributeOperator
  | attributeValue
  /-- After the name of an end tag. -/
  | closeName
deriving DecidableEq, Repr

/-- Where the scanner is in a loop. -/
inductive LoopPhase where
  | variableName
  | operator
  | collection
  | parameter
  | parameterValue
deriving DecidableEq, Repr

/-- Where the scanner is in an assignment. -/
inductive AssignmentPhase where
  | name
  | operator
  | value
deriving DecidableEq, Repr

/-- Where the scanner is in a condition. -/
inductive ControlPhase where
  | start
  | condition
  | operator
deriving DecidableEq, Repr

/-- Where the scanner is in a path into an object. -/
inductive PathPhase where
  /-- After a name, a property or a closing bracket. -/
  | member
  /-- After a dot. -/
  | dot
  /-- After an opening bracket. -/
  | key
  /-- After the key in a bracket. -/
  | keyEnd
deriving DecidableEq, Repr

/-- Where the scanner is in a list of filters. -/
inductive FilterPhase where
  /-- Where a filter may be added. -/
  | pipe
  | name
  | colon
  | argument
  | separator
deriving DecidableEq, Repr

/-- What goes on once a value, or the path that it begins, has ended. -/
inductive Resume where
  /-- Filters may follow. -/
  | filters
  /-- An operator of a condition may follow. -/
  | condition
  /-- Modifiers of a loop may follow. -/
  | parameters
  /-- More arguments of a filter may follow. -/
  | arguments
deriving DecidableEq, Repr

/-- What may come next. -/
inductive Phase where
  /-- Text outside tags. -/
  | literal
  /-- After the open delimiter of a tag. -/
  | opened
  /-- Before the value of an output tag. -/
  | outputValue
  /-- After the name of a tag that the dialect does not know. -/
  | unknownTag
  | markup (phase : MarkupPhase)
  | loop (phase : LoopPhase)
  | assignment (phase : AssignmentPhase)
  | control (phase : ControlPhase)
  /-- After the name of an embedded tag. -/
  | embedded
  | path (phase : PathPhase) (resume : Resume)
  | filter (phase : FilterPhase)
  /-- Before the part of a tag that is passed over. -/
  | skipRest
  /-- Before the close delimiter, of an end tag or of another tag. -/
  | close (ending : Bool)
deriving DecidableEq, Repr

/-- The phase in which things go on after a value. -/
def Resume.phase : Resume → Phase
  | .filters => .filter .pipe
  | .condition => .control .operator
  | .parameters => .loop .parameter
  | .arguments => .filter .separator

/-- The scanner is inside a tag. -/
def Phase.inTag : Phase → Bool
  | .literal | .markup _ => false
  | _ => true

end TemplateScan
