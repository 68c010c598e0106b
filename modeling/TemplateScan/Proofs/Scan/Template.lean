import TemplateScan.Dialect.Standard
import TemplateScan.Proofs.Scan.Expression

/-! # Templates — documents of the standard dialect as trees

    A template is made of literal text, tags that stand by themselves, and blocks with templates of
    their own inside, nested to any depth.  The type of a template names the block that it is the
    body of, so that `else` stands only where the dialect allows it, and every block is written with
    its own end tag.

    * **`Template.print`** — a template as a document.
    * **`Template.blocks`**, **`Template.tags`** — how many blocks and how many tags there are.
    * **`Template.pairs`** — for each end tag, the number of the tag that opens its block. -/

namespace TemplateScan

open Text

/-- A tag that opens a block. -/
inductive BlockTag where
  /-- A condition, which is a name. -/
  | condition (name : String) (known : name ∈ ["if", "unless", "case"]) (operand : Ident)
  | loop (item collection : Ident)
  | capture (target : Ident)

/-- The name of the tag. -/
def BlockTag.name : BlockTag → String
  | .condition name _ _ => name
  | .loop _ _ => "for"
  | .capture _ => "capture"

/-- The blocks directly inside which `else` may stand. -/
def elseParents : List String :=
  ["if", "unless", "case", "for"]

/-- A template that is the body of the block of the given name, or a whole document. -/
inductive Template : (parent : Option String) → Type where
  | nil {parent : Option String} : Template parent
  | text {parent : Option String} (chars : List Char) (plain : '{' ∉ chars)
      (next : Template parent) : Template parent
  /-- An output tag. -/
  | output {parent : Option String} (expression : Expression)
      (fits : expression.Fits .standard) (next : Template parent) : Template parent
  /-- A tag that assigns a number to a name. -/
  | assign {parent : Option String} (target : Ident) (number : Numeral)
      (next : Template parent) : Template parent
  /-- `else`, directly inside a block that takes it. -/
  | otherwise {parent : Option String} (allowed : ∃ name ∈ parent, name ∈ elseParents)
      (next : Template parent) : Template parent
  | block {parent : Option String} (tag : BlockTag) (body : Template (some tag.name))
      (next : Template parent) : Template parent

-- ── how they are written ─────────────────────────────────────────────────────────

/-- A statement tag with the given text inside. -/
def printStatement (inner : List Char) : List Char :=
  TagForm.opener .statement ++ ' ' :: (inner ++ ' ' :: TagForm.closer .statement)

/-- What stands in the tag behind its name. -/
def BlockTag.operands : BlockTag → List Char
  | .condition _ _ operand => ' ' :: operand.text
  | .loop item collection =>
      ' ' :: (item.text ++ ' ' :: ("in".toList ++ ' ' :: collection.text))
  | .capture target => ' ' :: target.text

namespace Template

variable {parent : Option String}

def print {parent : Option String} : Template parent → List Char
  | .nil => []
  | .text chars _ next => chars ++ next.print
  | .output expression _ next => expression.print ++ next.print
  | .assign target number next =>
      printStatement ("assign".toList ++ ' ' :: (target.text ++
        ' ' :: '=' :: ' ' :: number.text)) ++ next.print
  | .otherwise _ next => printStatement "else".toList ++ next.print
  | .block tag body next =>
      printStatement (tag.name.toList ++ tag.operands) ++ (body.print ++
        (printStatement ("end".toList ++ tag.name.toList) ++ next.print))

-- ── blocks and tags ──────────────────────────────────────────────────────────────

/-- The number of blocks. -/
def blocks {parent : Option String} : Template parent → Nat
  | .nil => 0
  | .text _ _ next | .output _ _ next | .assign _ _ next | .otherwise _ next => next.blocks
  | .block _ body next => body.blocks + 1 + next.blocks

/-- The number of tags, end tags among them. -/
def tags {parent : Option String} : Template parent → Nat
  | .nil => 0
  | .text _ _ next => next.tags
  | .output _ _ next | .assign _ _ next | .otherwise _ next => 1 + next.tags
  | .block _ body next => 1 + body.tags + 1 + next.tags

/-- For each end tag, in the order in which they stand, the number of the tag that opens its block;
    the tags are numbered from `first` on, in the order in which they open. -/
def pairs {parent : Option String} (first : Nat) : Template parent → List Nat
  | .nil => []
  | .text _ _ next => next.pairs first
  | .output _ _ next | .assign _ _ next | .otherwise _ next => next.pairs (first + 1)
  | .block _ body next =>
      body.pairs (first + 1) ++ first :: next.pairs (first + 1 + body.tags + 1)

/-- A block with an output tag, a block of the same name and `else` inside. -/
example :
    let x : Value := .path ⟨"x".toList, rfl⟩ (by decide) .nil
    let a : BlockTag := .condition "if" (by decide) ⟨"a".toList, rfl⟩
    let tree : Template none :=
      .block a
        (.output ⟨x, [⟨⟨"upcase".toList, rfl⟩, []⟩]⟩ (by decide +kernel)
          (.block a (.otherwise ⟨"if", rfl, by decide⟩ .nil) .nil))
        .nil
    tree.print = ("\x7b% if a %\x7d\x7b\x7b x | upcase \x7d\x7d\x7b% if a %\x7d" ++
      "\x7b% else %\x7d\x7b% endif %\x7d\x7b% endif %\x7d").toList ∧ tree.pairs 0 = [2, 0] := by
  decide

/-- Each block has an end tag. -/
theorem length_pairs (t : Template parent) (first : Nat) : (t.pairs first).length = t.blocks := by
  induction t generalizing first with
  | nil => rfl
  | text _ _ _ ih | output _ _ _ ih | assign _ _ _ ih | otherwise _ _ ih => exact ih _
  | block tag body next ihBody ihNext =>
      rw [pairs, blocks, List.length_append, List.length_cons, ihBody, ihNext]
      omega

end Template

end TemplateScan
