/-! # Brackets — the square brackets still open in a tag

    Brackets nest, so they are a stack, innermost first.  A bracket is marked when its key is a
    path, because then the property it selects is not known. -/

namespace TemplateScan

/-- An open square bracket. -/
structure Bracket where
  /-- The byte offset of the bracket. -/
  offset : Nat
  /-- The key is a path, so the property it selects is not known. -/
  dynamic : Bool := false
deriving DecidableEq, Repr

/-- The square brackets still open, innermost first. -/
structure Brackets where
  stack : List Bracket := []
deriving DecidableEq, Repr

namespace Brackets

/-- No bracket is open. -/
def empty : Brackets := {}

instance : EmptyCollection Brackets := ⟨empty⟩

/-- Open a bracket at a byte offset. -/
def push (b : Brackets) (offset : Nat) : Brackets :=
  ⟨{ offset } :: b.stack⟩

/-- Note that the key of the innermost bracket is a path. -/
def markDynamic (b : Brackets) : Brackets :=
  match b.stack with
  | [] => b
  | inner :: outer => ⟨{ inner with dynamic := true } :: outer⟩

/-- The innermost bracket. -/
def innermost? (b : Brackets) : Option Bracket :=
  b.stack.head?

/-- Close the innermost bracket. -/
def pop (b : Brackets) : Brackets :=
  ⟨b.stack.tail⟩

/-- No bracket is open. -/
def isEmpty (b : Brackets) : Bool :=
  b.stack.isEmpty

/-- The number of open brackets. -/
def depth (b : Brackets) : Nat :=
  b.stack.length

@[simp] theorem depth_empty : (∅ : Brackets).depth = 0 := rfl

/-- A bracket that opens is one more. -/
@[simp] theorem depth_push (b : Brackets) (offset : Nat) :
    (b.push offset).depth = b.depth + 1 := rfl

/-- A bracket that is closed or given up is one less; without any, nothing changes. -/
@[simp] theorem depth_pop (b : Brackets) : b.pop.depth = b.depth - 1 := by
  simp [depth, pop]

/-- A mark opens and closes nothing. -/
@[simp] theorem depth_markDynamic (b : Brackets) : b.markDynamic.depth = b.depth := by
  obtain ⟨stack⟩ := b
  cases stack <;> rfl

@[simp] theorem pop_push (b : Brackets) (offset : Nat) : (b.push offset).pop = b := rfl

/-- No bracket is open exactly when the depth is zero. -/
theorem isEmpty_iff_depth {b : Brackets} : b.isEmpty = true ↔ b.depth = 0 := by
  simp [isEmpty, depth]

end Brackets

end TemplateScan
