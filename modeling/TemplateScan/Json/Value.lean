/-! # JSON values — what a dialect is written as

    A dialect is described by strings, truth values, `null`, arrays and objects; it holds no
    numbers.  The members of an object keep the order in which they are to be written. -/

namespace TemplateScan.Json

/-- A JSON value without numbers. -/
inductive Value where
  | null
  | bool (value : Bool)
  | string (text : String)
  | array (items : List Value)
  | object (members : List (String × Value))
deriving Repr

namespace Value

instance : Inhabited Value := ⟨.null⟩

/-- A string, or `null`. -/
def ofText? : Option String → Value
  | none => .null
  | some text => .string text

/-- An array of strings. -/
def ofTexts (texts : List String) : Value :=
  .array (texts.map .string)

end Value

end TemplateScan.Json
