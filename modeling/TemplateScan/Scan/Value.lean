import TemplateScan.Scan.Closing

/-! # Values — strings, numbers, booleans, and the names that begin a path

    A value stands in an output tag, on the right of an assignment, and in a condition.  A name
    begins a path into an object: it is an `object` token when the grammar knows it, and otherwise
    whatever kind the place asks for. -/

namespace TemplateScan.Machine

open Text

variable {γ : Type} [Grammar γ]

/-- The words that stand for a truth value. -/
def booleans : List (List Char) :=
  ["true".toList, "false".toList]

/-- The truth value that the text begins with. -/
def boolean? (text : List Char) : Option (List Char) :=
  booleans.find? (startsWithWord · text)

-- ── names ────────────────────────────────────────────────────────────────────────

/-- The grammar, once the name of an object has been resolved. -/
def resolveObject (m : Machine γ) (name : List Char) : γ :=
  Grammar.resolve (Grammar.setExpect m.grammar .object) (String.ofList name)

/-- The kind of a name: an object when the grammar knows it, otherwise as given. -/
def referenceKind (m : Machine γ) (name : List Char) (bare : TokenKind) : TokenKind :=
  if Grammar.knows (Grammar.setExpect m.grammar .object) (String.ofList name) then .object
  else bare

/-- Begin a path with the name that comes next, as a token of the given kind. -/
def beginPath (m : Machine γ) (name : List Char) (kind : TokenKind) (resume : Resume) :
    Reply γ :=
  { m with grammar := m.resolveObject name }.emit kind name.length (.path .member resume)

-- ── values ───────────────────────────────────────────────────────────────────────

/-- The step over a value, if one comes next. -/
def value? (m : Machine γ) (bare : TokenKind) (resume : Resume) (rest : List Char) :
    Option (Reply γ) :=
  match quoted? m.tag.form.stringStops rest with
  | some (.closed quote body) =>
      some (m.emit .string (Quoted.closed quote body).text.length resume.phase)
  | some (.unclosed quote body) =>
      some (m.report .missingQuotation (Quoted.unclosed quote body).text.length (.close false))
  | none =>
    match number? rest with
    | some (_, digits) => some (m.emit .number digits.length resume.phase)
    | none =>
      match boolean? rest with
      | some word => some (m.emit .boolean word.length resume.phase)
      | none => (identifier? rest).map fun name =>
          m.beginPath name (m.referenceKind name bare) resume

/-- One step where a value is expected; at the end of the tag the given fault is reported. -/
def expectValue (m : Machine γ) (missing : Fault) (bare : TokenKind) (resume : Resume)
    (rest : List Char) : Reply γ :=
  if atClose m.tag.form rest then m.reportHere missing (.close false)
  else (m.value? bare resume rest).getD (m.unexpected rest)

end TemplateScan.Machine
