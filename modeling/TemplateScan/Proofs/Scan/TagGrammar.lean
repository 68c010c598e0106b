import TemplateScan.Dialect.Basic
import TemplateScan.Scan.Delimiter
import TemplateScan.Proofs.Scan.Lexemes
import TemplateScan.Text.Literal

/-! # The grammar of tags — which sequences of tokens a tag without faults is made of

    A tag is read here as the sequence of its tokens without the white space between them, each
    token with its text.  Every part of the language of tags is a predicate on such sequences; none
    of them speaks of the scanner.

    * **`IsPath`**, **`IsValue`** — values, and the paths that a name begins, nested in brackets.
    * **`IsArguments`**, **`IsFilters`** — filters, with arguments as their rules declare them.
    * **`IsStatement`** — the name of a tag and what its rule asks for behind it.
    * **`IsTag`** — a tag from its open delimiter to the delimiter that closes it. -/

namespace TemplateScan

open Text

-- ── sequences of tokens ──────────────────────────────────────────────────────────

/-- A sequence of the first language, and one of the second behind it. -/
def Then (a b : List Lexeme → Prop) (w : List Lexeme) : Prop :=
  ∃ u v, w = u ++ v ∧ a u ∧ b v

/-- One lexeme of the given kind. -/
def One (kind : TokenKind) (w : List Lexeme) : Prop :=
  ∃ l, w = [l] ∧ l.kind = kind

/-- Nothing, or one lexeme of the given kind. -/
def Maybe (kind : TokenKind) (w : List Lexeme) : Prop :=
  w = [] ∨ One kind w

variable {a a' b : List Lexeme → Prop} {l : Lexeme} {w : List Lexeme}

/-- A lexeme in front of a sequence belongs to its first part. -/
theorem Then.cons (hw : Then a' b w) (h : ∀ u, a' u → a (l :: u)) : Then a b (l :: w) := by
  obtain ⟨u, v, rfl, hu, hv⟩ := hw
  exact ⟨l :: u, v, rfl, h u hu, hv⟩

/-- The first part of a sequence may be put into a larger language. -/
theorem Then.imp (hw : Then a' b w) (h : ∀ u, a' u → a u) : Then a b w := by
  obtain ⟨u, v, rfl, hu, hv⟩ := hw
  exact ⟨u, v, rfl, h u hu, hv⟩

/-- An empty first part leaves the second one. -/
theorem Then.of_nil (ha : a []) (hb : b w) : Then a b w :=
  ⟨[], w, rfl, ha, hb⟩

-- ── values ───────────────────────────────────────────────────────────────────────

/-- What follows the name at the head of a path: properties behind dots, and keys in brackets. -/
inductive IsPath : List Lexeme → Prop where
  | nil : IsPath []
  | property {dot name : Lexeme} {w : List Lexeme} (hd : dot.kind = .dot)
      (hn : name.kind = .property) (hw : IsPath w) : IsPath (dot :: name :: w)
  | key {bracket key close : Lexeme} {w : List Lexeme} (hb : bracket.kind = .openBracket)
      (hk : key.kind = .propertyString ∨ key.kind = .propertyNumber)
      (hc : close.kind = .closeBracket) (hw : IsPath w) : IsPath (bracket :: key :: close :: w)
  /-- A path of its own as the key in the brackets. -/
  | path {bracket head close : Lexeme} {p w : List Lexeme} (hb : bracket.kind = .openBracket)
      (hh : head.kind = .object ∨ head.kind = .variableName) (hp : IsPath p)
      (hc : close.kind = .closeBracket) (hw : IsPath w) :
      IsPath (bracket :: head :: (p ++ close :: w))

/-- A value; a name that is no known object is of the kind `bare`. -/
inductive IsValue (bare : TokenKind) : List Lexeme → Prop where
  | literal {l : Lexeme} (hl : l.kind = .string ∨ l.kind = .number ∨ l.kind = .boolean) :
      IsValue bare [l]
  | path {head : Lexeme} {p : List Lexeme} (hh : head.kind = .object ∨ head.kind = bare)
      (hp : IsPath p) : IsValue bare (head :: p)

/-- A lexeme of the given kind, which goes on as a path when it is a name. -/
inductive IsOperand (kind : TokenKind) : List Lexeme → Prop where
  | plain {l : Lexeme} (hk : l.kind = kind) : IsOperand kind [l]
  | path {head : Lexeme} {p : List Lexeme} (hk : head.kind = kind)
      (hn : startsIdentifier head.text = true) (hp : IsPath p) : IsOperand kind (head :: p)

-- ── filters ──────────────────────────────────────────────────────────────────────

/-- The type of value that a literal of the given kind has as an argument. -/
def TokenKind.literalType? : TokenKind → Option ValueType
  | .string => some .string
  | .integer => some .integer
  | .float => some .float
  | .boolean => some .boolean
  | _ => none

/-- An argument of a type that its rule accepts. -/
inductive IsArgument (rule : ArgumentRule) : List Lexeme → Prop where
  | literal {l : Lexeme} {value : ValueType} (hl : l.kind.literalType? = some value)
      (ha : rule.accepts value = true) : IsArgument rule [l]
  | path {head : Lexeme} {p : List Lexeme}
      (hh : head.kind = .object ∨ head.kind = .variableName) (hp : IsPath p)
      (ha : rule.accepts .reference = true) : IsArgument rule (head :: p)

namespace ArgumentRule

/-- The list of arguments may end behind the first of those left: it may be repeated at will, or
    the next one, if there is any, may be left out. -/
def mayEnd : List ArgumentRule → Bool
  | [] => true
  | rule :: rules => rule.kind == .spread || !rules.head?.any (·.required)

/-- The arguments left behind a comma: one that may be repeated stays. -/
def following : List ArgumentRule → List ArgumentRule
  | [] => []
  | rule :: rules => if rule.kind == .spread then rule :: rules else rules

end ArgumentRule

/-- The arguments of a filter, from the first of those left on, separated by commas.  Arguments
    that are written by name are passed over, and with them the rest of the tag. -/
inductive IsArguments : List ArgumentRule → (passedOver : Bool) → List Lexeme → Prop where
  | named {rule : ArgumentRule} {rules : List ArgumentRule} {w : List Lexeme}
      (hk : rule.kind = .named) (hw : Maybe .skipped w) : IsArguments (rule :: rules) true w
  | last {rule : ArgumentRule} {rules : List ArgumentRule} {w : List Lexeme}
      (hk : rule.kind ≠ .named) (hw : IsArgument rule w)
      (he : ArgumentRule.mayEnd (rule :: rules) = true) : IsArguments (rule :: rules) false w
  | more {rule : ArgumentRule} {rules : List ArgumentRule} {passedOver : Bool} {comma : Lexeme}
      {u w : List Lexeme} (hk : rule.kind ≠ .named) (hu : IsArgument rule u)
      (hc : comma.kind = .separator)
      (hw : IsArguments (ArgumentRule.following (rule :: rules)) passedOver w) :
      IsArguments (rule :: rules) passedOver (u ++ comma :: w)

/-- A list of filters that the dialect knows.  No filter follows arguments passed over. -/
inductive IsFilters (dialect : Dialect) : List Lexeme → Prop where
  | none : IsFilters dialect []
  | plain {pipe name : Lexeme} {rule : FilterRule} {w : List Lexeme} (hp : pipe.kind = .pipe)
      (hn : name.kind = .filterName) (hr : dialect.filters.get? name.name = some rule)
      (ha : rule.requiresArguments = false) (hw : IsFilters dialect w) :
      IsFilters dialect (pipe :: name :: w)
  | withArguments {pipe name colon : Lexeme} {rule : FilterRule} {u w : List Lexeme}
      (hp : pipe.kind = .pipe) (hn : name.kind = .filterName)
      (hr : dialect.filters.get? name.name = some rule) (hc : colon.kind = .colon)
      (hu : IsArguments rule.arguments false u) (hw : IsFilters dialect w) :
      IsFilters dialect (pipe :: name :: colon :: (u ++ w))
  | passedOver {pipe name colon : Lexeme} {rule : FilterRule} {u : List Lexeme}
      (hp : pipe.kind = .pipe) (hn : name.kind = .filterName)
      (hr : dialect.filters.get? name.name = some rule) (hc : colon.kind = .colon)
      (hu : IsArguments rule.arguments true u) : IsFilters dialect (pipe :: name :: colon :: u)

-- ── statements ───────────────────────────────────────────────────────────────────

/-- Further values of a condition, each behind an operator or a comma. -/
inductive IsOperands : List Lexeme → Prop where
  | none : IsOperands []
  | more {operator : Lexeme} {v w : List Lexeme}
      (ho : operator.kind = .controlOperator ∨ operator.kind = .separator)
      (hv : IsValue .variableName v) (hw : IsOperands w) : IsOperands (operator :: (v ++ w))

/-- A condition. -/
def IsCondition : List Lexeme → Prop :=
  Then (IsValue .variableName) IsOperands

/-- A name, and a value for it; a tag that takes arguments and opens no block must give one. -/
inductive IsAssignment (dialect : Dialect) (rule : TagRule) : List Lexeme → Prop where
  | bare {name : Lexeme} (hn : name.kind = .assignedName)
      (hr : rule.arguments = false ∨ rule.block = true) : IsAssignment dialect rule [name]
  | valued {name operator : Lexeme} {w : List Lexeme} (hn : name.kind = .assignedName)
      (ho : operator.kind = .assignmentOperator)
      (hw : Then (IsValue .variableName) (IsFilters dialect) w) :
      IsAssignment dialect rule (name :: operator :: w)

/-- The modifiers of a loop, as its rule declares them. -/
inductive IsParameters (rule : TagRule) : List Lexeme → Prop where
  | none : IsParameters rule []
  | flag {name : Lexeme} {w : List Lexeme} (hn : name.kind = .parameter)
      (hr : rule.parameter? name.name = some false) (hw : IsParameters rule w) :
      IsParameters rule (name :: w)
  /-- A value behind at least one colon. -/
  | valued {name : Lexeme} {colons v w : List Lexeme} (hn : name.kind = .parameter)
      (hr : rule.parameter? name.name = some true) (hne : colons ≠ [])
      (hc : ∀ colon ∈ colons, colon.kind = .colon) (hv : IsOperand .parameterValue v)
      (hw : IsParameters rule w) : IsParameters rule (name :: (colons ++ (v ++ w)))

/-- A variable, the collection that it runs through, and modifiers. -/
inductive IsLoop (rule : TagRule) : List Lexeme → Prop where
  | intro {name operator : Lexeme} {v w : List Lexeme} (hn : name.kind = .loopVariable)
      (ho : operator.kind = .loopOperator) (hv : IsOperand .collection v)
      (hw : IsParameters rule w) : IsLoop rule (name :: operator :: (v ++ w))

/-- Text that is passed over, in a tag that takes arguments; nothing in any other. -/
def IsFreeText (rule : TagRule) (w : List Lexeme) : Prop :=
  if rule.arguments then Maybe .skipped w else w = []

/-- What follows the name of a tag with the given rule, up to its close delimiter; the name is of
    the kind `name`. -/
inductive IsCall (dialect : Dialect) (rule : TagRule) : (name : TokenKind) → List Lexeme → Prop where
  | singular {w : List Lexeme} (hs : rule.singular = true) (hw : Maybe .skipped w) :
      IsCall dialect rule .singularTag w
  | comment {w : List Lexeme} (hs : rule.singular = false) (hk : rule.kind = .comment)
      (hw : Maybe .skipped w) : IsCall dialect rule .comment w
  | raw {w : List Lexeme} (hs : rule.singular = false) (hk : rule.kind = .raw)
      (hw : Maybe .skipped w) : IsCall dialect rule .startTag w
  | embedded {w : List Lexeme} (hs : rule.singular = false) (hk : rule.kind = .embedded)
      (hw : IsFreeText rule w) : IsCall dialect rule .embeddedTag w
  | bareControl (hs : rule.singular = false) (hk : rule.kind = .control)
      (ha : rule.arguments = false) : IsCall dialect rule .control []
  | control {w : List Lexeme} (hs : rule.singular = false) (hk : rule.kind = .control)
      (ha : rule.arguments = true) (hw : IsCondition w) : IsCall dialect rule .control w
  | iteration {w : List Lexeme} (hs : rule.singular = false) (hk : rule.kind = .iteration)
      (hw : IsLoop rule w) : IsCall dialect rule .iteration w
  | assignment {w : List Lexeme} (hs : rule.singular = false) (hk : rule.kind = .assignment)
      (hw : IsAssignment dialect rule w) : IsCall dialect rule .assignment w
  | output {w : List Lexeme} (hs : rule.singular = false) (hk : rule.kind = .output)
      (hw : Then (IsValue .object) (IsFilters dialect) w) : IsCall dialect rule .startTag w
  | other {w : List Lexeme} (hs : rule.singular = false)
      (hk : rule.kind = .inclusion ∨ rule.kind = .other) (hw : IsFreeText rule w) :
      IsCall dialect rule .startTag w

/-- The name of a tag and what follows it; a comment behind a number sign has no name. -/
inductive IsStatement (dialect : Dialect) : List Lexeme → Prop where
  | note {text : Lexeme} (hk : text.kind = .comment) (ht : text.text.head? = some '#') :
      IsStatement dialect [text]
  | unknown {name : Lexeme} {w : List Lexeme} (hk : name.kind = .unknownTag)
      (hn : dialect.tags.get? name.name = none) (hw : Maybe .skipped w) :
      IsStatement dialect (name :: w)
  | known {name : Lexeme} {rule : TagRule} {w : List Lexeme}
      (hr : dialect.tags.get? name.name = some rule) (hw : IsCall dialect rule name.kind w) :
      IsStatement dialect (name :: w)

-- ── tags ─────────────────────────────────────────────────────────────────────────

/-- The end of a tag: a delimiter of the given kind, perhaps behind a trim dash. -/
def IsClose (closing : TokenKind) : List Lexeme → Prop :=
  Then (Maybe .trimRight) (One closing)

/-- What follows the open delimiter of a tag, and the trim dash behind it. -/
inductive IsInner (dialect : Dialect) : TagForm → List Lexeme → Prop where
  | output {mark : Lexeme} {w : List Lexeme} (hm : mark.kind = .outputTag)
      (hw : Then (Then (IsValue .object) (IsFilters dialect)) (IsClose .closeDelimiter) w) :
      IsInner dialect .output (mark :: w)
  | statement {w : List Lexeme} (hw : Then (IsStatement dialect) (IsClose .closeDelimiter) w) :
      IsInner dialect .statement w
  | ending {name : Lexeme} {w : List Lexeme} (hn : name.kind = .endTag)
      (hw : IsClose .endDelimiter w) : IsInner dialect .statement (name :: w)

/-- A tag from its open delimiter to the delimiter that closes it. -/
inductive IsTag (dialect : Dialect) : List Lexeme → Prop where
  | intro {opener : Lexeme} {form : TagForm} {w : List Lexeme} (ho : opener.kind = .openDelimiter)
      (ht : opener.text = form.opener) (hw : Then (Maybe .trimLeft) (IsInner dialect form) w) :
      IsTag dialect (opener :: w)

end TemplateScan
