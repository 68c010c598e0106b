import TemplateScan.Json.Value

/-! # Printing — JSON on several lines

    Every item of an array and every member of an object stands on a line of its own, indented by
    two spaces for each array or object around it; an empty array or object stays on its line.
    Between a key and its value stand a colon and a space.

    In a string the quote, the backslash and the control characters are escaped, and nothing
    else. -/

namespace TemplateScan.Json

-- ── strings ──────────────────────────────────────────────────────────────────────

/-- A number below sixteen as a lower-case hexadecimal digit. -/
def hexDigit (n : Nat) : Char :=
  "0123456789abcdef".toList.getD n '0'

/-- A character as it is written in a string. -/
def escape (c : Char) : List Char :=
  if c = '"' then ['\\', '"']
  else if c = '\\' then ['\\', '\\']
  else if c = '\x08' then ['\\', 'b']
  else if c = '\x0c' then ['\\', 'f']
  else if c = '\n' then ['\\', 'n']
  else if c = '\r' then ['\\', 'r']
  else if c = '\t' then ['\\', 't']
  else if c.toNat < 0x20 then
    ['\\', 'u', '0', '0', hexDigit (c.toNat / 16), hexDigit (c.toNat % 16)]
  else [c]

/-- A text as a string. -/
def quote (text : String) : List Char :=
  '"' :: text.toList.flatMap escape ++ ['"']

-- ── values ───────────────────────────────────────────────────────────────────────

/-- The start of a new line at the given depth. -/
def newLine (depth : Nat) : List Char :=
  '\n' :: List.replicate (2 * depth) ' '

/-- Texts with a comma after each but the last. -/
def separated : List (List Char) → List Char
  | [] => []
  | [text] => text
  | text :: texts => text ++ ',' :: separated texts

/-- Items between two brackets, each of them on a line of its own. -/
def enclosed (opening closing : Char) (depth : Nat) (items : List (List Char)) : List Char :=
  if items.isEmpty then [opening, closing]
  else opening :: separated (items.map (newLine (depth + 1) ++ ·)) ++ newLine depth ++ [closing]

mutual

/-- A value inside `depth` arrays and objects. -/
def printAt (depth : Nat) : Value → List Char
  | .null => "null".toList
  | .bool true => "true".toList
  | .bool false => "false".toList
  | .string text => quote text
  | .array items => enclosed '[' ']' depth (printItems (depth + 1) items)
  | .object members => enclosed '{' '}' depth (printMembers (depth + 1) members)

/-- The items of an array. -/
def printItems (depth : Nat) : List Value → List (List Char)
  | [] => []
  | item :: items => printAt depth item :: printItems depth items

/-- The members of an object. -/
def printMembers (depth : Nat) : List (String × Value) → List (List Char)
  | [] => []
  | (key, value) :: members =>
      (quote key ++ ':' :: ' ' :: printAt depth value) :: printMembers depth members

end

/-- A value as text. -/
def Value.print (value : Value) : List Char :=
  printAt 0 value

end TemplateScan.Json
