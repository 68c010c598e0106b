import TemplateScan.Text.Blank
import TemplateScan.Text.Search

/-! # Delimiters — where a tag opens and where it ends

    There are two forms of tag: output tags between double braces, and statement tags between a
    brace and a percent sign.  A tag opens with the open delimiter of its form and ends with its
    close delimiter, before which a dash may stand.  Nothing inside a tag may reach across an open
    delimiter of either form, so the searches of this file give up there.

    All places are counted in characters from the start of the text searched. -/

namespace TemplateScan

open Text

/-- The two forms of tag. -/
inductive TagForm where
  /-- Prints a value. -/
  | output
  /-- Does something. -/
  | statement
deriving DecidableEq, Repr, Inhabited

namespace TagForm

/-- The text that opens a tag of the form. -/
def opener : TagForm → List Char
  | .output => ['{', '{']
  | .statement => ['{', '%']

/-- The text that closes a tag of the form. -/
def closer : TagForm → List Char
  | .output => ['}', '}']
  | .statement => ['%', '}']

/-- The texts that end an unterminated string in a tag of the form. -/
def stringStops (form : TagForm) : List (List Char) :=
  [form.closer, opener .output, opener .statement]

end TagForm

/-- The texts that open a tag. -/
def openers : List (List Char) :=
  [TagForm.opener .output, TagForm.opener .statement]

/-- The text begins with an open delimiter. -/
def startsWithOpener (text : List Char) : Bool :=
  openers.any (·.isPrefixOf text)

/-- The text without the spaces and tabs it begins with. -/
def afterSpacing (text : List Char) : List Char :=
  text.dropWhile isSpacing

/-- The text begins with the close delimiter, or with a dash, perhaps spaces, and the close
    delimiter. -/
def atClose (form : TagForm) (text : List Char) : Bool :=
  form.closer.isPrefixOf text ||
    match text with
    | '-' :: tail => form.closer.isPrefixOf (afterSpacing tail)
    | _ => false

/-- The place just before `place`, if a dash stands there. -/
def beforeDash (text : List Char) (place : Nat) : Nat :=
  if 0 < place ∧ text[place - 1]? = some '-' then place - 1 else place

/-- The place where the tag ends, its trim dash included, unless another tag opens first. -/
def tagEnd? (form : TagForm) (text : List Char) : Option Nat :=
  (indexBefore? form.closer openers text).map (beforeDash text)

/-- The place up to which recovery passes over the text: the end of the tag, else the next open
    delimiter, else the end of the text. -/
def recoveryEnd (form : TagForm) (text : List Char) : Nat :=
  (tagEnd? form text).getD ((earliest? openers text).getD text.length)

end TemplateScan
