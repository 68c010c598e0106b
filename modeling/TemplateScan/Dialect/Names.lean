import TemplateScan.Dialect.Rule

/-! # Names of the options — how kinds, languages and types are spelled

    Every option of a rule has one lower-case name, in texts that describe a dialect.  Reading a
    name back gives the option (`TagKind.ofName?_name` and its fellows). -/

namespace TemplateScan

-- ── kinds of tag ─────────────────────────────────────────────────────────────────

/-- The name of a category of tags. -/
def TagKind.name : TagKind → String
  | .comment => "comment"
  | .raw => "raw"
  | .control => "control"
  | .iteration => "iteration"
  | .assignment => "variable"
  | .embedded => "embedded"
  | .output => "output"
  | .inclusion => "import"
  | .other => "other"

/-- All categories of tags. -/
def TagKind.all : List TagKind :=
  [.comment, .raw, .control, .iteration, .assignment, .embedded, .output, .inclusion, .other]

/-- The category with the given name. -/
def TagKind.ofName? (name : String) : Option TagKind :=
  TagKind.all.find? (·.name == name)

/-- The name of a category names that category. -/
theorem TagKind.ofName?_name (kind : TagKind) : TagKind.ofName? kind.name = some kind := by
  cases kind <;> decide

-- ── languages ────────────────────────────────────────────────────────────────────

/-- The name of a language. -/
def Language.name : Language → String
  | .json => "json"
  | .css => "css"
  | .javascript => "javascript"

/-- All languages. -/
def Language.all : List Language :=
  [.json, .css, .javascript]

/-- The language with the given name. -/
def Language.ofName? (name : String) : Option Language :=
  Language.all.find? (·.name == name)

/-- The name of a language names that language. -/
theorem Language.ofName?_name (language : Language) :
    Language.ofName? language.name = some language := by
  cases language <;> decide

-- ── kinds of argument ────────────────────────────────────────────────────────────

/-- The name of a way to write an argument. -/
def ArgumentKind.name : ArgumentKind → String
  | .positional => "argument"
  | .named => "parameter"
  | .spread => "spread"

/-- All ways to write an argument. -/
def ArgumentKind.all : List ArgumentKind :=
  [.positional, .named, .spread]

/-- The way to write an argument with the given name. -/
def ArgumentKind.ofName? (name : String) : Option ArgumentKind :=
  ArgumentKind.all.find? (·.name == name)

/-- The name of a way to write an argument names that way. -/
theorem ArgumentKind.ofName?_name (kind : ArgumentKind) :
    ArgumentKind.ofName? kind.name = some kind := by
  cases kind <;> decide

-- ── types of value ───────────────────────────────────────────────────────────────

/-- The name of a type of value. -/
def ValueType.name : ValueType → String
  | .string => "string"
  | .integer => "integer"
  | .float => "float"
  | .boolean => "boolean"
  | .reference => "reference"

/-- All types of value. -/
def ValueType.all : List ValueType :=
  [.string, .integer, .float, .boolean, .reference]

/-- The type of value with the given name. -/
def ValueType.ofName? (name : String) : Option ValueType :=
  ValueType.all.find? (·.name == name)

/-- The name of a type names that type. -/
theorem ValueType.ofName?_name (value : ValueType) :
    ValueType.ofName? value.name = some value := by
  cases value <;> decide

end TemplateScan
