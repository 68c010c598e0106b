import TemplateScan.Fault
import TemplateScan.Text.Document

/-! # Tokens — what the scanner finds, and where

    A token is a kind and a span.  A fault inside a tag is a token too: its kind is `invalid`, and
    it carries the fault, so a token has a fault exactly when its kind is `invalid`. -/

namespace TemplateScan

open Text

/-- The kinds of token. -/
inductive TokenKind where
  -- the delimiters of a tag
  | openDelimiter
  | closeDelimiter
  /-- The close delimiter of an end tag. -/
  | endDelimiter
  | trimLeft
  | trimRight
  -- the identity of a tag
  /-- An empty mark at the value of an output tag. -/
  | outputTag
  | startTag
  /-- An end tag, from its open delimiter to the end of its name. -/
  | endTag
  | singularTag
  | unknownTag
  | comment
  | rawBody
  | embeddedTag
  /-- The body of an embedded tag, in the language given by its rule. -/
  | embeddedBody (language : Option Language)
  -- conditions
  | control
  | controlOperator
  -- loops
  | iteration
  | loopVariable
  | loopOperator
  | collection
  | parameter
  | parameterValue
  -- assignments
  | assignment
  | assignedName
  | assignmentOperator
  -- values
  | string
  | number
  | integer
  | float
  | boolean
  | variableName
  | object
  | property
  | propertyString
  | propertyNumber
  | dot
  | openBracket
  | closeBracket
  -- filters
  | pipe
  | filterName
  | colon
  | separator
  -- markup
  | markupName
  | attributeName
  | attributeOperator
  | attributeValue
  | markupClose
  | endMarkupName
  | endMarkupClose
  /-- Markup that is passed over after all. -/
  | cancelled
  -- white space
  | spacing
  | lineBreak
  -- recovery
  /-- A part of a tag that is passed over without being scanned. -/
  | skipped
  | invalid (fault : Fault)
deriving DecidableEq, Repr

/-- The fault that a kind of token carries. -/
def TokenKind.fault? : TokenKind → Option Fault
  | .invalid fault => some fault
  | _ => none

/-- A kind and a place. -/
structure Token where
  kind : TokenKind
  span : Span
deriving DecidableEq, Repr

namespace Token

/-- The fault that the token carries. -/
def fault? (t : Token) : Option Fault :=
  t.kind.fault?

/-- The text of the token in its document. -/
def text? (t : Token) (d : Document) : Option (List Char) :=
  d.slice? t.span.start t.span.stop

end Token

/-- The report of a tag that was opened and never closed. -/
structure Notice where
  /-- The name of the tag. -/
  tag : String
  /-- From the start of the tag to the end of the document. -/
  span : Span
deriving DecidableEq, Repr

namespace Notice

/-- The fault reported. -/
def fault (_ : Notice) : Fault :=
  .missingEndTag

/-- The wording of the report. -/
def message (n : Notice) : String :=
  n.fault.message ++ " for '" ++ n.tag ++ "' opened at line " ++ toString n.span.line ++
    ", column " ++ toString n.span.column

end Notice

end TemplateScan
