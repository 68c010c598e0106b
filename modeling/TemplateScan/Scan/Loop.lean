import TemplateScan.Scan.Value

/-! # Loops — a variable, a collection, and modifiers

    A loop names its variable, then `in`, then the collection: a path into an object or a range in
    parentheses.  Modifiers follow, each one that the tag declares; those that take a value are
    followed by a colon and a number or a path. -/

namespace TemplateScan.Machine

open Text

variable {γ : Type} [Grammar γ]

-- ── ranges ───────────────────────────────────────────────────────────────────────

/-- The number written by decimal digits. -/
def digitsValue (digits : List Char) : Nat :=
  digits.foldl (fun n c => n * 10 + (c.toNat - '0'.toNat)) 0

/-- The text is an integer, perhaps signed, that fits in 64 bits. -/
def isInteger64 (text : List Char) : Bool :=
  let (magnitude, limit) := match text with
    | '-' :: digits => (digits, Nat.pow 2 63)
    | '+' :: digits => (digits, Nat.pow 2 63 - 1)
    | digits => (digits, Nat.pow 2 63 - 1)
  !magnitude.isEmpty && magnitude.all Char.isDigit && decide (digitsValue magnitude ≤ limit)

/-- The text is made of the characters of names and of dots, and begins like a name. -/
def isDottedName (text : List Char) : Bool :=
  startsIdentifier text && text.all fun c => isIdentifierChar c || c == '.'

/-- The text can bound a range. -/
def isRangeBound (text : List Char) : Bool :=
  isInteger64 text || isDottedName text

/-- The text is a range: two bounds with two dots between them, perhaps among blanks. -/
def isRange (text : List Char) : Bool :=
  match indexOf? ['.', '.'] text with
  | some i => isRangeBound (trim (text.take i)) && isRangeBound (trim (text.drop (i + 2)))
  | none => false

/-- One step over a collection that begins with a parenthesis. -/
def stepRange (m : Machine γ) (rest : List Char) : Reply γ :=
  match indexBefore? [')'] m.tag.form.stringStops rest with
  | some i =>
      let inner := (rest.take i).drop 1
      if isRange (trim inner) then m.emit .collection (i + 1) (.loop .parameter)
      else m.report .invalidCharacters (i + 1) (.loop .parameter)
  | none => m.recover .missingCollection rest

-- ── steps ────────────────────────────────────────────────────────────────────────

/-- One step where the variable is expected. -/
def stepLoopVariable (m : Machine γ) (rest : List Char) : Reply γ :=
  match identifier? rest with
  | some name => m.emit .loopVariable name.length (.loop .operator)
  | none =>
      if atClose m.tag.form rest then m.reportHere .missingLoopVariable (.close false)
      else m.recover .missingLoopVariable rest

/-- One step where `in` is expected. -/
def stepLoopOperator (m : Machine γ) (rest : List Char) : Reply γ :=
  if startsWithWord ['i', 'n'] rest then m.emit .loopOperator 2 (.loop .collection)
  else if atClose m.tag.form rest then m.reportHere .invalidOperator (.close false)
  else m.recover .invalidOperator rest

/-- One step where the collection is expected. -/
def stepCollection (m : Machine γ) (rest : List Char) : Reply γ :=
  if atClose m.tag.form rest then m.reportHere .missingCollection (.close false)
  else if rest.head? = some '(' then m.stepRange rest
  else match identifier? rest with
  | some name => m.beginPath name .collection .parameters
  | none => m.recover .missingCollection rest

/-- One step where a modifier may follow. -/
def stepParameter (m : Machine γ) (rest : List Char) : Reply γ :=
  if atClose m.tag.form rest then m.close false rest
  else match identifier? rest with
  | some name =>
      match Grammar.parameter? m.grammar (String.ofList name) with
      | some true => m.emit .parameter name.length (.loop .parameterValue)
      | some false => m.emit .parameter name.length (.loop .parameter)
      | none => m.report .unknownParameter name.length (.loop .parameter)
  | none => m.unexpected rest

/-- The last character before the cursor that is not blank is a colon. -/
def afterColon (r : Reader) : Bool :=
  (r.behind.dropWhile isBlank).head? == some ':'

/-- One step after a modifier that takes a value. -/
def stepParameterValue (m : Machine γ) (r : Reader) : Reply γ :=
  if r.rest.head? = some ':' then m.emit .colon 1 (.loop .parameterValue)
  else if atClose m.tag.form r.rest then m.reportHere .missingParameterValue (.close false)
  else if !afterColon r then m.recover .missingColon r.rest
  else match number? r.rest with
  | some (_, digits) => m.emit .parameterValue digits.length (.loop .parameter)
  | none =>
    match identifier? r.rest with
    | some name => m.beginPath name .parameterValue .parameters
    | none => m.recover .missingParameterValue r.rest

/-- One step in a loop. -/
def stepLoop (m : Machine γ) (phase : LoopPhase) (r : Reader) : Reply γ :=
  match phase with
  | .variableName => m.stepLoopVariable r.rest
  | .operator => m.stepLoopOperator r.rest
  | .collection => m.stepCollection r.rest
  | .parameter => m.stepParameter r.rest
  | .parameterValue => m.stepParameterValue r

end TemplateScan.Machine
