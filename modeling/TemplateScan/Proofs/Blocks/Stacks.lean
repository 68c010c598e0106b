import Mathlib.Algebra.BigOperators.Group.Finset.Piecewise
import Mathlib.Data.List.Induction
import TemplateScan.Blocks

/-! # Stacks — open blocks as one stack for each name

    The open blocks are one list, out of whose middle an end tag may take a block.  Seen by name it
    is simpler: the blocks of one name are a **stack**, which knows nothing of the blocks of other
    names, and the list is all those stacks put together in the order in which their blocks were
    opened.  To tell equal blocks apart, a block on a stack is dated by the number of operations
    before it.

    * **`stackOf`** — the stack of one name after a sequence of operations.
    * **`Merges`** — the list of the survivors, and how it is put together from the stacks.
    * **`Merges.perform`** — one operation; **`exists_merge`** — any sequence of them.
    * **`blocks_refine_stacks`** — what the open blocks answer, in terms of the stacks. -/

namespace TemplateScan.Blocks

-- ── operations ───────────────────────────────────────────────────────────────────

/-- An operation on the open blocks. -/
inductive Operation where
  | push (block : Block)
  | close (name : String)
  | forgetFrom (offset : Nat)
  | clear
  /-- Report whatever is still open, and forget it. -/
  | flush (documentEnd : Nat)
deriving DecidableEq, Repr

/-- What an operation answers. -/
inductive Answer where
  | done
  /-- The number of the tag closed, if there is one. -/
  | closed (node : Option Nat)
  | reports (notices : List Notice)
deriving DecidableEq, Repr

namespace Operation

/-- The blocks that an operation leaves open. -/
def perform (b : Blocks) : Operation → Blocks
  | push block => b.push block
  | close name => b.close name
  | forgetFrom offset => b.forgetFrom offset
  | clear | flush _ => ∅

/-- What an operation answers of the blocks that are open before it. -/
def answer (b : Blocks) : Operation → Answer
  | close name => .closed ((b.nearest? name).map (·.node))
  | flush documentEnd => .reports (b.notices documentEnd)
  | push _ | forgetFrom _ | clear => .done

/-- The operation may change the blocks of the given name. -/
def concerns (name : String) : Operation → Bool
  | push block => block.name == name
  | close closed => closed == name
  | forgetFrom _ | clear | flush _ => true

/-- The block that the operation opens. -/
def pushed? : Operation → Option Block
  | push block => some block
  | _ => none

end Operation

/-- The blocks open after a sequence of operations, when none is open before it. -/
def afterAll (ops : List Operation) : Blocks :=
  ops.foldl Operation.perform ∅

/-- The last operation is performed last. -/
theorem afterAll_concat (ops : List Operation) (op : Operation) :
    afterAll (ops ++ [op]) = op.perform (afterAll ops) := by
  rw [afterAll, List.foldl_append]
  rfl

-- ── stacks ───────────────────────────────────────────────────────────────────────

/-- A block with the number of operations before the one that opened it. -/
structure Dated where
  block : Block
  time : Nat
deriving DecidableEq, Repr

/-- What an operation at the given time does to a stack, the block opened last in front.  Names play
    no part in it. -/
def stackStep (stack : List Dated) (op : Operation × Nat) : List Dated :=
  match op.1 with
  | .push block => ⟨block, op.2⟩ :: stack
  | .close _ => stack.tail
  | .forgetFrom offset => stack.filter (·.block.span.start < offset)
  | .clear | .flush _ => []

/-- The stack of one name: only the operations that concern the name have been performed on it. -/
def stackOf (name : String) (ops : List Operation) : List Dated :=
  (ops.zipIdx.filter (·.1.concerns name)).foldl stackStep []

/-- The names of all blocks that a sequence of operations opens. -/
def openedNames (ops : List Operation) : Finset String :=
  ((ops.filterMap Operation.pushed?).map (·.name)).toFinset

variable {ops : List Operation} {op : Operation} {name : String} {survivors : List Dated}

/-- The last operation changes the stacks it concerns, and no others. -/
theorem stackOf_concat (name : String) (ops : List Operation) (op : Operation) :
    stackOf name (ops ++ [op]) =
      if op.concerns name then stackStep (stackOf name ops) (op, ops.length)
      else stackOf name ops := by
  rw [stackOf, List.zipIdx_append, List.filter_append, List.foldl_append, ← stackOf]
  cases h : op.concerns name <;> simp [h]

/-- The name of a block that has been opened is one of the names. -/
theorem mem_openedNames {block : Block} (h : .push block ∈ ops) :
    block.name ∈ openedNames ops := by
  rw [openedNames, List.mem_toFinset, List.mem_map]
  exact ⟨block, List.mem_filterMap.mpr ⟨_, h, rfl⟩, rfl⟩

-- ── the stacks put together ──────────────────────────────────────────────────────

/-- The dated blocks are those of all stacks, in the order in which they were opened. -/
structure Merges (ops : List Operation) (survivors : List Dated) : Prop where
  ordered : survivors.Pairwise (·.time < ·.time)
  opened : ∀ s ∈ survivors, ops[s.time]? = some (.push s.block)
  byName : ∀ name, stackOf name ops = (survivors.filter (·.block.name == name)).reverse

namespace Merges

/-- What survives has been opened by one of the operations. -/
theorem time_lt (h : Merges ops survivors) {s : Dated} (hs : s ∈ survivors) :
    s.time < ops.length :=
  (List.getElem?_eq_some_iff.mp (h.opened s hs)).1

/-- What has been opened stays opened at its time. -/
theorem opened_concat (h : Merges ops survivors) (op : Operation) {s : Dated} (hs : s ∈ survivors) :
    (ops ++ [op])[s.time]? = some (.push s.block) := by
  rw [List.getElem?_append_left (h.time_lt hs)]
  exact h.opened s hs

/-- A block survives exactly if it stands in the stack of its name. -/
theorem mem_iff (h : Merges ops survivors) (s : Dated) :
    s ∈ survivors ↔ s ∈ stackOf s.block.name ops := by
  rw [h.byName, List.mem_reverse, List.mem_filter, beq_self_eq_true]
  exact (and_iff_left rfl).symm

/-- The block opened last is the newest one. -/
theorem push (h : Merges ops survivors) (block : Block) :
    Merges (ops ++ [.push block]) (survivors ++ [⟨block, ops.length⟩]) where
  ordered := by
    rw [List.pairwise_append]
    refine ⟨h.ordered, List.pairwise_singleton _ _, fun s hs last hlast => ?_⟩
    rw [List.mem_singleton.mp hlast]
    exact h.time_lt hs
  opened := by
    intro s hs
    rcases List.mem_append.mp hs with hs | hs
    · exact h.opened_concat _ hs
    · rw [List.mem_singleton.mp hs]
      simp
  byName := by
    intro name
    rw [stackOf_concat, List.filter_append, List.reverse_append, ← h.byName]
    cases hname : block.name == name <;> simp [Operation.concerns, stackStep, hname]

/-- Blocks that survive an operation keep their order. -/
theorem of_sublist {survivors' : List Dated} (h : Merges ops survivors)
    (hsub : survivors'.Sublist survivors)
    (hstacks : ∀ name, stackOf name (ops ++ [op]) =
      (survivors'.filter (·.block.name == name)).reverse) : Merges (ops ++ [op]) survivors' where
  ordered := h.ordered.sublist hsub
  opened _ hs := h.opened_concat op (hsub.subset hs)
  byName := hstacks

end Merges

/-- Without its first element of a kind, a list has the others of the kind left. -/
theorem filter_eraseP_self {α : Type} (p : α → Bool) (l : List α) :
    (l.eraseP p).filter p = (l.filter p).tail := by
  induction l with
  | nil => rfl
  | cons a l ih => cases h : p a <;> simp [h, ih]

namespace Merges

/-- An end tag takes the top of the stack of its name, and leaves the other stacks alone. -/
theorem close (h : Merges ops survivors) (closed : String) :
    Merges (ops ++ [.close closed])
      (survivors.reverse.eraseP (·.block.name == closed)).reverse := by
  refine h.of_sublist ?_ fun name => ?_
  · rw [← List.reverse_sublist, List.reverse_reverse]
    exact List.eraseP_sublist
  · rw [stackOf_concat, List.filter_reverse, List.reverse_reverse]
    by_cases hname : closed = name
    · subst hname
      rw [filter_eraseP_self, List.filter_reverse, ← h.byName]
      simp [Operation.concerns, stackStep]
    · have hother : ∀ s : Dated, (s.block.name == closed) = true → (s.block.name == name) = false := by
        intro s hs
        rw [beq_iff_eq.mp hs]
        exact beq_eq_false_iff_ne.mpr hname
      rw [filter_eraseP_of_disjoint hother, List.filter_reverse, ← h.byName]
      simp [Operation.concerns, hname]

/-- What starts at the offset or after it is forgotten in every stack. -/
theorem forgetFrom (h : Merges ops survivors) (offset : Nat) :
    Merges (ops ++ [.forgetFrom offset])
      (survivors.filter (·.block.span.start < offset)) := by
  refine h.of_sublist List.filter_sublist fun name => ?_
  rw [stackOf_concat, List.filter_comm, ← List.filter_reverse, ← h.byName]
  rfl

/-- Nothing survives a reset or the end of the document. -/
theorem clear (h : Merges ops survivors) (hop : op = .clear ∨ ∃ documentEnd, op = .flush documentEnd) :
    Merges (ops ++ [op]) [] := by
  refine h.of_sublist (List.nil_sublist _) fun name => ?_
  rw [stackOf_concat]
  rcases hop with rfl | ⟨documentEnd, rfl⟩ <;> rfl

/-- **One operation** on the blocks of all stacks does to each stack what it does to a stack. -/
theorem perform (h : Merges ops survivors) (op : Operation) :
    ∃ survivors', Merges (ops ++ [op]) survivors' ∧
      (op.perform ⟨survivors.map (·.block)⟩).entries = survivors'.map (·.block) := by
  cases op with
  | push block => exact ⟨_, h.push block, by simp [Operation.perform]⟩
  | close name =>
      refine ⟨_, h.close name, ?_⟩
      rw [Operation.perform, Blocks.close, ← List.map_reverse, List.eraseP_map, ← List.map_reverse]
      rfl
  | forgetFrom offset =>
      refine ⟨_, h.forgetFrom offset, ?_⟩
      rw [Operation.perform, Blocks.forgetFrom, List.filter_map]
      rfl
  | clear => exact ⟨_, h.clear (Or.inl rfl), rfl⟩
  | flush documentEnd => exact ⟨_, h.clear (Or.inr ⟨documentEnd, rfl⟩), rfl⟩

end Merges

/-- **Any sequence of operations** leaves the blocks of all stacks, in the order of their opening. -/
theorem exists_merge (ops : List Operation) :
    ∃ survivors, Merges ops survivors ∧ (afterAll ops).entries = survivors.map (·.block) := by
  induction ops using List.reverseRecOn with
  | nil => exact ⟨[], ⟨List.Pairwise.nil, nofun, fun _ => rfl⟩, rfl⟩
  | append_singleton ops op ih =>
      obtain ⟨survivors, hmerge, hentries⟩ := ih
      have hblocks : afterAll ops = ⟨survivors.map (·.block)⟩ := congrArg Blocks.mk hentries
      rw [afterAll_concat, hblocks]
      exact hmerge.perform op

-- ── what the blocks answer ───────────────────────────────────────────────────────

/-- The nearest block of a name is the top of its stack. -/
theorem Merges.nearest? (h : Merges ops survivors) (name : String) :
    (Blocks.mk (survivors.map (·.block))).nearest? name =
      (stackOf name ops).head?.map (·.block) := by
  rw [h.byName, ← List.filter_reverse, List.head?_filter, Blocks.nearest?, ← List.map_reverse,
    List.find?_map]
  rfl

/-- Every survivor is on one stack. -/
theorem Merges.length_eq (h : Merges ops survivors) :
    survivors.length = ∑ name ∈ openedNames ops, (stackOf name ops).length := by
  have hnames : ∀ s ∈ survivors, s.block.name ∈ openedNames ops := fun s hs =>
    mem_openedNames (List.mem_of_getElem? (h.opened s hs))
  simp only [h.byName, List.length_reverse]
  clear h
  induction survivors with
  | nil => simp
  | cons s survivors ih =>
      obtain ⟨hs, hrest⟩ := List.forall_mem_cons.mp hnames
      have hone : ∀ name, ((s :: survivors).filter (·.block.name == name)).length =
          (survivors.filter (·.block.name == name)).length +
            if s.block.name = name then 1 else 0 := by
        intro name
        by_cases hname : s.block.name = name <;> simp [hname]
      simp only [hone, Finset.sum_add_distrib, Finset.sum_ite_eq, if_pos hs, ← ih hrest,
        List.length_cons]

/-- **Open blocks refine one stack for each name.**  After any sequence of operations, an end tag
    closes the top of the stack of its name.  What is left open are the blocks of all stacks in the
    order in which they were opened: the innermost one is the one opened last, their number is that
    of all stacks together, and at the end of the document each of them is reported once, in that
    order, and none stays open. -/
theorem blocks_refine_stacks (ops : List Operation) :
    (∀ name, (Operation.close name).answer (afterAll ops) =
      .closed ((stackOf name ops).head?.map (·.block.node))) ∧
    (afterAll ops).size = ∑ name ∈ openedNames ops, (stackOf name ops).length ∧
    ∃ survivors : List Dated,
      survivors.Pairwise (·.time < ·.time) ∧
      survivors.map (ops[·.time]?) = survivors.map (fun s => some (.push s.block)) ∧
      (∀ s, s ∈ survivors ↔ s ∈ stackOf s.block.name ops) ∧
      (afterAll ops).entries = survivors.map (·.block) ∧
      (afterAll ops).parent? = survivors.getLast?.map (·.block.name) ∧
      ∀ documentEnd,
        (Operation.flush documentEnd).answer (afterAll ops) = .reports (survivors.map fun s =>
          ⟨s.block.name, { s.block.span with stop := documentEnd }⟩) ∧
        afterAll (ops ++ [.flush documentEnd]) = ∅ := by
  obtain ⟨survivors, hmerge, hentries⟩ := exists_merge ops
  have hblocks : afterAll ops = ⟨survivors.map (·.block)⟩ := congrArg Blocks.mk hentries
  refine ⟨fun name => ?_, ?_, survivors, hmerge.ordered, ?_, hmerge.mem_iff, hentries, ?_,
    fun documentEnd => ⟨?_, ?_⟩⟩
  · rw [Operation.answer, hblocks, hmerge.nearest?, Option.map_map]
    rfl
  · rw [hblocks, size, List.length_map, hmerge.length_eq]
  · exact List.map_congr_left hmerge.opened
  · rw [hblocks, parent?, innermost?, List.getLast?_map, Option.map_map]
    rfl
  · rw [Operation.answer, hblocks, notices, List.map_map]
    rfl
  · rw [afterAll_concat]
    rfl

end TemplateScan.Blocks
