import TemplateScan.Token

/-! # Open blocks — which tags wait for their end tags

    The blocks opened so far and not closed yet, in the order in which they were opened.  An end
    tag closes the **nearest** open block of its name (`Blocks.close`), whatever has been opened
    in between, so overlapping pairs are tolerated.  At the end of the document whatever is still
    open is reported (`Blocks.notices`). -/

namespace TemplateScan

open Text

/-- An open block. -/
structure Block where
  name : String
  /-- The number of the tag that opened it. -/
  node : Nat
  /-- The place of the tag that opened it. -/
  span : Span
deriving DecidableEq, Repr

/-- The open blocks, in the order in which they were opened. -/
structure Blocks where
  entries : List Block := []
deriving DecidableEq, Repr

namespace Blocks

/-- No block is open. -/
def empty : Blocks := {}

instance : EmptyCollection Blocks := ⟨empty⟩

/-- Open a block. -/
def push (b : Blocks) (block : Block) : Blocks :=
  ⟨b.entries ++ [block]⟩

/-- The open block that was opened last. -/
def innermost? (b : Blocks) : Option Block :=
  b.entries.getLast?

/-- The name of the open block that was opened last. -/
def parent? (b : Blocks) : Option String :=
  b.innermost?.map (·.name)

/-- The open block that an end tag of the given name closes. -/
def nearest? (b : Blocks) (name : String) : Option Block :=
  b.entries.reverse.find? (·.name == name)

/-- Close the nearest open block of the given name, if there is one. -/
def close (b : Blocks) (name : String) : Blocks :=
  ⟨(b.entries.reverse.eraseP (·.name == name)).reverse⟩

/-- Forget the blocks opened at or after an offset. -/
def forgetFrom (b : Blocks) (offset : Nat) : Blocks :=
  ⟨b.entries.filter (·.span.start < offset)⟩

/-- The reports of the blocks still open where the document ends. -/
def notices (b : Blocks) (documentEnd : Nat) : List Notice :=
  b.entries.map fun block => ⟨block.name, { block.span with stop := documentEnd }⟩

/-- The number of open blocks. -/
def size (b : Blocks) : Nat :=
  b.entries.length

/-- No block is open. -/
def isEmpty (b : Blocks) : Bool :=
  b.entries.isEmpty

@[simp] theorem entries_push (b : Blocks) (block : Block) :
    (b.push block).entries = b.entries ++ [block] := rfl

@[simp] theorem innermost?_push (b : Blocks) (block : Block) :
    (b.push block).innermost? = some block := by
  simp [innermost?, push]

/-- A block just opened is closed by an end tag of its name. -/
@[simp] theorem close_push_self (b : Blocks) (block : Block) :
    (b.push block).close block.name = b := by
  simp [push, close]

@[simp] theorem size_push (b : Blocks) (block : Block) : (b.push block).size = b.size + 1 := by
  simp [size, push]

-- ── what is left when a block is closed ──────────────────────────────────────────

section

variable {α : Type} {p q : α → Bool}

/-- What is removed for its own sake is not missed where it would not be kept. -/
theorem filter_eraseP_of_disjoint (h : ∀ a, p a = true → q a = false) (l : List α) :
    (l.eraseP p).filter q = l.filter q := by
  induction l with
  | nil => rfl
  | cons a l ih =>
      cases hp : p a with
      | true => simp [hp, h a hp]
      | false => simp [hp, List.filter_cons, ih]

/-- What is removed among others that are kept can be removed afterwards. -/
theorem filter_eraseP_comm (h : ∀ a, p a = true → q a = true) (l : List α) :
    (l.eraseP p).filter q = (l.filter q).eraseP p := by
  have hboth : (fun a => p a && q a) = p := by
    funext a
    cases hp : p a with
    | true => rw [h a hp]; rfl
    | false => rfl
  rw [List.eraseP_filter, hboth]

end

end Blocks

end TemplateScan
