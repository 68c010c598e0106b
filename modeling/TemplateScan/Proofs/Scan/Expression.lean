import TemplateScan.Dialect.Basic
import TemplateScan.Proofs.Scan.Lexemes
import TemplateScan.Proofs.Text.Literals
import TemplateScan.Scan.Value

/-! # Expressions — output expressions as trees, and how they are written

    An expression is a value and a list of filters.  A value is a string, a number, a truth value,
    or a name with a path behind it, and the keys of a path may be paths themselves.  Names, numbers
    and strings carry the proof that they can be written down as such.

    * **`Expression.print`** — an expression as an output tag.
    * **`Expression.lexemes`** — its tokens in order, without the spaces between them.
    * **`ArgumentsFit`** — the arguments of a filter are such as its rule declares. -/

namespace TemplateScan

open Text

-- ── what is written by itself ────────────────────────────────────────────────────

/-- A name. -/
structure Ident where
  text : List Char
  isName : identifier? text = some text

/-- A number, with or without a fraction. -/
structure Numeral where
  form : NumberForm
  text : List Char
  isNumber : number? text = some (form, text)

/-- A string between quotes, in which neither its quote nor a delimiter stands that would end it. -/
structure StringLiteral where
  quote : Char
  body : List Char
  isQuote : isQuote quote = true
  closes : quote ∉ body
  plain : ∀ stop ∈ TagForm.stringStops .output, ¬ stop <:+: body

/-- The string with its quotes. -/
def StringLiteral.text (s : StringLiteral) : List Char :=
  s.quote :: (s.body ++ [s.quote])

/-- The word for a truth value. -/
def boolText (value : Bool) : List Char :=
  if value then "true".toList else "false".toList

-- ── paths and values ─────────────────────────────────────────────────────────────

/-- What follows the name at the head of a path. -/
inductive Path where
  | nil
  | property (name : Ident) (next : Path)
  | key (string : StringLiteral) (nonempty : string.body ≠ []) (next : Path)
  | index (number : Numeral) (next : Path)
  /-- A path of its own as the key. -/
  | path (head : Ident) (inner next : Path)

/-- A value; a name that begins a path is no truth value. -/
inductive Value where
  | string (string : StringLiteral)
  | number (number : Numeral)
  | boolean (value : Bool)
  | path (head : Ident) (named : head.text ∉ Machine.booleans) (path : Path)

/-- A filter with its arguments. -/
structure Call where
  name : Ident
  arguments : List Value

/-- A value and the filters behind it. -/
structure Expression where
  head : Value
  filters : List Call

-- ── how they are written ─────────────────────────────────────────────────────────

def Path.print : Path → List Char
  | .nil => []
  | .property name next => '.' :: (name.text ++ next.print)
  | .key string _ next => '[' :: (string.text ++ ']' :: next.print)
  | .index number next => '[' :: (number.text ++ ']' :: next.print)
  | .path head inner next => '[' :: (head.text ++ (inner.print ++ ']' :: next.print))

def Value.print : Value → List Char
  | .string s => s.text
  | .number n => n.text
  | .boolean b => boolText b
  | .path head _ p => head.text ++ p.print

/-- Arguments behind the first one, each behind a comma. -/
def printMore (arguments : List Value) : List Char :=
  arguments.flatMap fun argument => ',' :: ' ' :: argument.print

/-- Arguments behind a colon, or nothing when there are none. -/
def printArguments : List Value → List Char
  | [] => []
  | first :: more => ':' :: ' ' :: (first.print ++ printMore more)

/-- A filter behind a pipe. -/
def Call.print (c : Call) : List Char :=
  ' ' :: '|' :: ' ' :: (c.name.text ++ printArguments c.arguments)

def Expression.print (e : Expression) : List Char :=
  TagForm.opener .output ++ ' ' :: (e.head.print ++
    (e.filters.flatMap Call.print ++ ' ' :: TagForm.closer .output))

-- ── their tokens ─────────────────────────────────────────────────────────────────

def Path.lexemes : Path → List Lexeme
  | .nil => []
  | .property name next => ⟨.dot, ['.']⟩ :: ⟨.property, name.text⟩ :: next.lexemes
  | .key string _ next =>
      ⟨.openBracket, ['[']⟩ :: ⟨.propertyString, string.text⟩ :: ⟨.closeBracket, [']']⟩ ::
        next.lexemes
  | .index number next =>
      ⟨.openBracket, ['[']⟩ :: ⟨.propertyNumber, number.text⟩ :: ⟨.closeBracket, [']']⟩ ::
        next.lexemes
  | .path head inner next =>
      ⟨.openBracket, ['[']⟩ :: ⟨.variableName, head.text⟩ ::
        (inner.lexemes ++ ⟨.closeBracket, [']']⟩ :: next.lexemes)

/-- The kind of token of a number given as an argument. -/
def Numeral.argumentKind (n : Numeral) : TokenKind :=
  match n.form with
  | .integer => .integer
  | .float => .float

/-- The tokens of a value; the kind of a name depends on where the value stands. -/
def Value.lexemes (name : TokenKind) : Value → List Lexeme
  | .string s => [⟨.string, s.text⟩]
  | .number n => [⟨.number, n.text⟩]
  | .boolean b => [⟨.boolean, boolText b⟩]
  | .path head _ p => ⟨name, head.text⟩ :: p.lexemes

/-- The tokens of a value given as an argument. -/
def Value.argumentLexemes : Value → List Lexeme
  | .string s => [⟨.string, s.text⟩]
  | .number n => [⟨n.argumentKind, n.text⟩]
  | .boolean b => [⟨.boolean, boolText b⟩]
  | .path head _ p => ⟨.variableName, head.text⟩ :: p.lexemes

/-- A string, a number or a truth value. -/
def Value.isLiteral : Value → Bool
  | .path _ _ _ => false
  | _ => true

/-- The kind of token that begins a value given as an argument. -/
def Value.argumentKind : Value → TokenKind
  | .string _ => .string
  | .number n => n.argumentKind
  | .boolean _ => .boolean
  | .path _ _ _ => .variableName

/-- A literal is a single token, of its own text. -/
theorem Value.argumentLexemes_of_literal {v : Value} (h : v.isLiteral = true) :
    v.argumentLexemes = [⟨v.argumentKind, v.print⟩] := by
  cases v with
  | path _ _ _ => cases h
  | string _ | number _ | boolean _ => rfl

/-- No value begins with white space. -/
theorem Value.argumentKind_ne_spacing (v : Value) : v.argumentKind ≠ .spacing := by
  cases v with
  | number n =>
      rw [argumentKind, Numeral.argumentKind]
      cases n.form <;> nofun
  | string _ | boolean _ | path _ _ _ => nofun

def lexemesOfMore (arguments : List Value) : List Lexeme :=
  arguments.flatMap fun argument => ⟨.separator, [',']⟩ :: argument.argumentLexemes

def lexemesOfArguments : List Value → List Lexeme
  | [] => []
  | first :: more => ⟨.colon, [':']⟩ :: (first.argumentLexemes ++ lexemesOfMore more)

def Call.lexemes (c : Call) : List Lexeme :=
  ⟨.pipe, ['|']⟩ :: ⟨.filterName, c.name.text⟩ :: lexemesOfArguments c.arguments

def Expression.lexemes (e : Expression) : List Lexeme :=
  ⟨.openDelimiter, TagForm.opener .output⟩ :: ⟨.outputTag, []⟩ :: (e.head.lexemes .object ++
    (e.filters.flatMap Call.lexemes ++ [⟨.closeDelimiter, TagForm.closer .output⟩]))

-- ── filters that are declared ────────────────────────────────────────────────────

/-- The type that a value has as an argument. -/
def Value.type : Value → ValueType
  | .string _ => .string
  | .number n => match n.form with
    | .integer => .integer
    | .float => .float
  | .boolean _ => .boolean
  | .path _ _ _ => .reference

/-- Arguments are given as declared: all of them are written by their places, no more are given
    than declared, each is of a type accepted in its place, and only such are left out as may be. -/
structure ArgumentsFit (arguments : List Value) (rules : List ArgumentRule) : Prop where
  positional : ∀ rule ∈ rules, rule.kind = .positional
  count : arguments.length ≤ rules.length
  accepts : ∀ pair ∈ arguments.zip rules, pair.2.accepts pair.1.type = true
  optional : ∀ rule ∈ rules.drop arguments.length, rule.required = false

instance (arguments : List Value) (rules : List ArgumentRule) :
    Decidable (ArgumentsFit arguments rules) :=
  decidable_of_iff
    ((∀ rule ∈ rules, rule.kind = .positional) ∧ arguments.length ≤ rules.length ∧
      (∀ pair ∈ arguments.zip rules, pair.2.accepts pair.1.type = true) ∧
      ∀ rule ∈ rules.drop arguments.length, rule.required = false)
    ⟨fun ⟨positional, count, accepts, optional⟩ => ⟨positional, count, accepts, optional⟩,
      fun h => ⟨h.positional, h.count, h.accepts, h.optional⟩⟩

/-- Every filter is known to the dialect and called as declared. -/
def Expression.Fits (e : Expression) (dialect : Dialect) : Prop :=
  ∀ c ∈ e.filters, ∃ rule,
    dialect.filters.get? (String.ofList c.name.text) = some rule ∧
      ArgumentsFit c.arguments rule.arguments

instance (e : Expression) (dialect : Dialect) : Decidable (e.Fits dialect) :=
  inferInstanceAs (Decidable (∀ c ∈ e.filters,
    ∃ rule ∈ dialect.filters.get? (String.ofList c.name.text),
      ArgumentsFit c.arguments rule.arguments))

/-- Behind the first argument the others fit the other rules. -/
theorem ArgumentsFit.tail {argument : Value} {arguments : List Value} {rule : ArgumentRule}
    {rules : List ArgumentRule} (h : ArgumentsFit (argument :: arguments) (rule :: rules)) :
    ArgumentsFit arguments rules where
  positional a ha := h.positional a (List.mem_cons_of_mem _ ha)
  count := Nat.le_of_succ_le_succ h.count
  accepts pair hpair := h.accepts pair (List.mem_cons_of_mem _ hpair)
  optional := h.optional

/-- The first argument has a rule that accepts it. -/
theorem ArgumentsFit.exists_cons {argument : Value} {arguments : List Value}
    {rules : List ArgumentRule} (h : ArgumentsFit (argument :: arguments) rules) :
    ∃ rule left, rules = rule :: left ∧ rule.kind = .positional ∧
      rule.accepts argument.type = true ∧ ArgumentsFit arguments left := by
  cases rules with
  | nil => exact absurd h.count (by simp)
  | cons rule left =>
      exact ⟨rule, left, rfl, h.positional rule (List.mem_cons_self ..),
        h.accepts (argument, rule) (List.mem_cons_self ..), h.tail⟩

end TemplateScan
