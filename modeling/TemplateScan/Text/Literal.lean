import TemplateScan.Text.Search

/-! # Literals — the words, numbers and strings a text can begin with

    Each reader looks at the start of a text and answers with the literal found there, or with
    `none`.

    * `identifier?` — a letter or underscore, then letters, digits, `_`, `-` and `?`.
    * `number?` — an optional minus, digits, and a fraction when a digit follows the point.
    * `quoted?` — a string in single or double quotes, unterminated when no closing quote comes
      before the first of the given stops. -/

namespace TemplateScan.Text

-- ── identifiers ──────────────────────────────────────────────────────────────────

/-- An ASCII letter or an underscore. -/
def isIdentifierStart (c : Char) : Bool :=
  c.isAlpha || c == '_'

/-- An ASCII letter or digit, an underscore, a dash or a question mark. -/
def isIdentifierChar (c : Char) : Bool :=
  c.isAlphanum || c == '_' || c == '-' || c == '?'

/-- An identifier may go on with any character it may start with. -/
theorem isIdentifierChar_of_isIdentifierStart {c : Char} (h : isIdentifierStart c = true) :
    isIdentifierChar c = true := by
  simp only [isIdentifierStart, isIdentifierChar, Char.isAlphanum, Bool.or_eq_true] at h ⊢
  rcases h with h | h <;> simp [h]

/-- The text begins with a character that may start an identifier. -/
def startsIdentifier (text : List Char) : Bool :=
  text.head?.any isIdentifierStart

/-- The text begins with a character that may continue an identifier. -/
def continuesIdentifier (text : List Char) : Bool :=
  text.head?.any isIdentifierChar

/-- The identifier that the text begins with. -/
def identifier? (text : List Char) : Option (List Char) :=
  if startsIdentifier text then some (text.takeWhile isIdentifierChar) else none

/-- The text begins with the given word, and the word ends there. -/
def startsWithWord (word text : List Char) : Bool :=
  word.isPrefixOf text && !continuesIdentifier (text.drop word.length)

-- ── numbers ──────────────────────────────────────────────────────────────────────

/-- Whether a number has a fraction. -/
inductive NumberForm where
  | integer
  | float
deriving DecidableEq, Repr

/-- The minus sign that the text may begin with. -/
def signOf : List Char → List Char
  | '-' :: _ => ['-']
  | _ => []

/-- A point and at least one digit, or nothing. -/
def fractionOf : List Char → List Char
  | '.' :: tail =>
      let digits := tail.takeWhile Char.isDigit
      if digits.isEmpty then [] else '.' :: digits
  | _ => []

/-- The number that the text begins with, and its form. -/
def number? (text : List Char) : Option (NumberForm × List Char) :=
  let sign := signOf text
  let unsigned := text.drop sign.length
  let digits := unsigned.takeWhile Char.isDigit
  if digits.isEmpty then none
  else
    let fraction := fractionOf (unsigned.dropWhile Char.isDigit)
    some (if fraction.isEmpty then .integer else .float, sign ++ digits ++ fraction)

-- ── strings ──────────────────────────────────────────────────────────────────────

/-- A string with the quote that opens it and the text after that quote. -/
inductive Quoted where
  /-- The same quote follows the body. -/
  | closed (quote : Char) (body : List Char)
  /-- A stop, or the end of the text, follows the body. -/
  | unclosed (quote : Char) (body : List Char)
deriving DecidableEq, Repr

/-- The string as it is written. -/
def Quoted.text : Quoted → List Char
  | .closed quote body => quote :: body ++ [quote]
  | .unclosed quote body => quote :: body

/-- A single or a double quote. -/
def isQuote (c : Char) : Bool :=
  c == '"' || c == '\''

/-- The part of the text before the first of the stops. -/
def beforeStops (stops : List (List Char)) (text : List Char) : List Char :=
  text.take ((earliest? stops text).getD text.length)

/-- The string that the text begins with. -/
def quoted? (stops : List (List Char)) : List Char → Option Quoted
  | [] => none
  | quote :: tail =>
      if isQuote quote then
        let body := beforeStops stops tail
        if body.contains quote then some (.closed quote (body.takeWhile (· != quote)))
        else some (.unclosed quote body)
      else none

end TemplateScan.Text
