/-! # Rules — what a dialect says about one tag and about one filter

    A **tag rule** gives the category of a tag, which decides how the text after its name is
    scanned, and the conditions on its use: whether it opens a block, whether it takes arguments,
    inside which tags it may stand, which modifiers it has.  A **filter rule** lists the arguments
    of a filter, and an **argument rule** says which kinds of value an argument accepts and whether
    it may be left out. -/

namespace TemplateScan

-- ── tags ─────────────────────────────────────────────────────────────────────────

/-- The category of a tag, which decides how its arguments and its body are scanned. -/
inductive TagKind where
  /-- The body is passed over. -/
  | comment
  /-- The body is text, whatever it holds. -/
  | raw
  /-- A condition follows the name. -/
  | control
  /-- A loop over a collection. -/
  | iteration
  /-- A name, and perhaps a value for it. -/
  | assignment
  /-- The body is written in another language. -/
  | embedded
  /-- A value to be printed. -/
  | output
  /-- Another template is pulled in. -/
  | inclusion
  | other
deriving DecidableEq, Repr, Inhabited

/-- The language of the body of an embedded tag. -/
inductive Language where
  | json
  | css
  | javascript
deriving DecidableEq, Repr

/-- A modifier that may follow the collection of a loop. -/
structure TagParameter where
  name : String
  /-- The modifier takes a value. -/
  takesValue : Bool := false
deriving DecidableEq, Repr

/-- The rule for one tag. -/
structure TagRule where
  kind : TagKind := .other
  /-- The tag opens a block that an end tag closes. -/
  block : Bool := false
  /-- The tag has neither arguments nor a body. -/
  singular : Bool := false
  /-- Arguments follow the name; for an assignment they are mandatory. -/
  arguments : Bool := false
  /-- The tags directly inside which the tag may stand; none means anywhere. -/
  parents : List String := []
  parameters : List TagParameter := []
  language : Option Language := none
  description : Option String := none
deriving DecidableEq, Repr

namespace TagRule

/-- The rule with nothing but a category. -/
def ofKind (kind : TagKind) : TagRule :=
  { kind }

/-- The same rule for a tag that opens a block. -/
def asBlock (t : TagRule) : TagRule :=
  { t with block := true }

/-- The same rule for a tag with neither arguments nor a body. -/
def asSingular (t : TagRule) : TagRule :=
  { t with singular := true }

/-- The same rule for a tag with arguments. -/
def withArguments (t : TagRule) : TagRule :=
  { t with arguments := true }

/-- The same rule for a tag that may stand only directly inside the given tags. -/
def within (t : TagRule) (parents : List String) : TagRule :=
  { t with parents }

/-- The same rule with one more modifier. -/
def withParameter (t : TagRule) (name : String) (takesValue : Bool) : TagRule :=
  { t with parameters := t.parameters ++ [⟨name, takesValue⟩] }

/-- The same rule for a tag with a body in the given language. -/
def inLanguage (t : TagRule) (language : Language) : TagRule :=
  { t with language := some language }

/-- The place of the tag is restricted. -/
def hasPlacement (t : TagRule) : Bool :=
  !t.parents.isEmpty

/-- The tag may stand directly inside `parent`, or at the top when there is none. -/
def allowsParent (t : TagRule) : (parent : Option String) → Bool
  | some parent => !t.hasPlacement || t.parents.contains parent
  | none => !t.hasPlacement

/-- Whether the named modifier takes a value; `none` for an unknown modifier. -/
def parameter? (t : TagRule) (name : String) : Option Bool :=
  (t.parameters.find? (·.name == name)).map (·.takesValue)

end TagRule

-- ── filters ──────────────────────────────────────────────────────────────────────

/-- The way in which a filter argument is written. -/
inductive ArgumentKind where
  /-- By its place in the list. -/
  | positional
  /-- As a name, a colon and a value. -/
  | named
  /-- As any number of values at the end of the list. -/
  | spread
deriving DecidableEq, Repr, Inhabited

/-- The kinds of value that an argument can be restricted to. -/
inductive ValueType where
  | string
  | integer
  | float
  | boolean
  /-- A variable, or a path into an object. -/
  | reference
deriving DecidableEq, Repr

/-- The rule for one argument of a filter. -/
structure ArgumentRule where
  kind : ArgumentKind := .positional
  /-- The types accepted; none listed means all. -/
  accepted : List ValueType := []
  required : Bool := false
deriving DecidableEq, Repr

namespace ArgumentRule

/-- The rule for an optional positional argument of the given types. -/
def ofTypes (accepted : List ValueType) : ArgumentRule :=
  { accepted }

/-- The same rule for an argument that must be given. -/
def asRequired (a : ArgumentRule) : ArgumentRule :=
  { a with required := true }

/-- The same rule for an argument written in the given way. -/
def ofKind (a : ArgumentRule) (kind : ArgumentKind) : ArgumentRule :=
  { a with kind }

/-- A value of the given type is accepted. -/
def accepts (a : ArgumentRule) (value : ValueType) : Bool :=
  a.accepted.isEmpty || a.accepted.contains value

end ArgumentRule

/-- The rule for one filter. -/
structure FilterRule where
  arguments : List ArgumentRule := []
  description : Option String := none
deriving DecidableEq, Repr

namespace FilterRule

/-- The rule for a filter with the given arguments. -/
def ofArguments (arguments : List ArgumentRule) : FilterRule :=
  { arguments }

/-- The filter takes arguments. -/
def hasArguments (f : FilterRule) : Bool :=
  !f.arguments.isEmpty

/-- The first argument must be given. -/
def requiresArguments (f : FilterRule) : Bool :=
  f.arguments.head?.any (·.required)

end FilterRule

end TemplateScan
