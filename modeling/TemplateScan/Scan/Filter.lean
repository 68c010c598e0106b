import TemplateScan.Scan.Value

/-! # Filters — the list of filters after a value

    A filter is a pipe and a name; after a colon its arguments follow, separated by commas.  The
    arguments are checked one by one against those that the grammar declares: the type of each
    value, that no more are given than declared, and that none is left out that must be given.
    Arguments that are written by name are passed over. -/

namespace TemplateScan.Machine

open Text

variable {γ : Type} [Grammar γ]

/-- One step where a filter may be added. -/
def stepPipe (m : Machine γ) (rest : List Char) : Reply γ :=
  if rest.head? = some '|' then m.emit .pipe 1 (.filter .name)
  else if atClose m.tag.form rest then m.close false rest
  else m.unexpected rest

/-- One step where the name of a filter is expected. -/
def stepFilterName (m : Machine γ) (rest : List Char) : Reply γ :=
  match identifier? rest with
  | some name =>
      let grammar := Grammar.setExpect m.grammar .filter
      let known := Grammar.knows grammar (String.ofList name)
      let m := { m with grammar := Grammar.resolve grammar (String.ofList name) }
      if known then m.emit .filterName name.length (.filter .colon)
      else m.report .unknownFilter name.length .skipRest
  | none =>
      if atClose m.tag.form rest then m.reportHere .missingFilter (.close false)
      else m.recover .missingFilter rest

/-- The machine with the current filter forgotten. -/
def forgetFilter (m : Machine γ) : Machine γ :=
  { m with grammar := Grammar.resetFilter m.grammar }

/-- One step after the name of a filter. -/
def stepColon (m : Machine γ) (rest : List Char) : Reply γ :=
  if rest.head? = some ':' then
    if Grammar.filterTakesArguments m.grammar then m.emit .colon 1 (.filter .argument)
    else m.recover .unexpectedArguments rest
  else if Grammar.filterRequiresArguments m.grammar then
    m.forgetFilter.reportHere .missingColon (.filter .pipe)
  else m.forgetFilter.stepPipe rest

-- ── arguments ────────────────────────────────────────────────────────────────────

/-- Take an argument of the given type, or report that the filter does not accept it. -/
def acceptArgument (m : Machine γ) (value : ValueType) (kind : TokenKind) (length : Nat) :
    Reply γ :=
  m.emit (if Grammar.accepts m.grammar value then kind else .invalid (.rejected value)) length
    (.filter .separator)

/-- Take a name as an argument, or report that the filter does not accept it. -/
def acceptReference (m : Machine γ) (name : List Char) : Reply γ :=
  if Grammar.accepts m.grammar .reference then
    m.beginPath name (m.referenceKind name .variableName) .arguments
  else m.report (.rejected .reference) name.length (.filter .separator)

/-- One step where the value of an argument is expected. -/
def stepArgumentValue (m : Machine γ) (rest : List Char) : Reply γ :=
  if atClose m.tag.form rest then m.forgetFilter.reportHere .missingArgument (.close false)
  else if rest.head? = some '|' then m.forgetFilter.reportHere .missingArgument (.filter .pipe)
  else match quoted? m.tag.form.stringStops rest with
  | some (.closed quote body) =>
      m.acceptArgument .string .string (Quoted.closed quote body).text.length
  | some (.unclosed quote body) =>
      m.report .missingQuotation (Quoted.unclosed quote body).text.length (.close false)
  | none =>
    match number? rest with
    | some (.integer, digits) => m.acceptArgument .integer .integer digits.length
    | some (.float, digits) => m.acceptArgument .float .float digits.length
    | none =>
      match boolean? rest with
      | some word => m.acceptArgument .boolean .boolean word.length
      | none =>
        match identifier? rest with
        | some name => m.acceptReference name
        | none => m.unexpected rest

/-- One step after the colon or a comma. -/
def stepArgument (m : Machine γ) (rest : List Char) : Reply γ :=
  match Grammar.argumentKind? m.grammar with
  | some .named => m.skipRest rest
  | some _ => m.stepArgumentValue rest
  | none => m.close false rest

/-- The current argument may be repeated at will. -/
def inSpread (m : Machine γ) : Bool :=
  Grammar.argumentKind? m.grammar == some .spread

/-- The machine with the next argument of the filter as the current one. -/
def nextArgument (m : Machine γ) : Machine γ :=
  { m with grammar := Grammar.nextArgument m.grammar }

/-- One step after an argument. -/
def stepSeparator (m : Machine γ) (rest : List Char) : Reply γ :=
  if rest.head? = some ',' then
    if m.inSpread then m.emit .separator 1 (.filter .argument)
    else if Grammar.isLast m.grammar then m.recover .invalidCharacter rest
    else m.nextArgument.emit .separator 1 (.filter .argument)
  else if atClose m.tag.form rest || rest.head? = some '|' then
    if m.inSpread || Grammar.isLast m.grammar then m.forgetFilter.stepPipe rest
    else if Grammar.hasNext m.grammar && Grammar.isRequired m.nextArgument.grammar then
      m.nextArgument.forgetFilter.reportHere .missingArgument (.filter .pipe)
    else m.nextArgument.forgetFilter.stepPipe rest
  else match tagEnd? m.tag.form rest with
  | none => m.close false rest
  | some _ => m.recover .missingSeparator rest

/-- One step in a list of filters. -/
def stepFilter (m : Machine γ) (phase : FilterPhase) (rest : List Char) : Reply γ :=
  match phase with
  | .pipe => m.stepPipe rest
  | .name => m.stepFilterName rest
  | .colon => m.stepColon rest
  | .argument => m.stepArgument rest
  | .separator => m.stepSeparator rest

end TemplateScan.Machine
