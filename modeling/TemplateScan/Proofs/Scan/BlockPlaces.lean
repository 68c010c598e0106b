import Mathlib.Data.List.Perm.Subperm
import TemplateScan.Proofs.Scan.BlockStep

/-! # Places of blocks — where the open blocks were opened

    A tag that opens a block does so where its open delimiter stands, an element where its name is
    taken.  So the open blocks stand in the order of the document, before the cursor, and what is
    opened from some scan on starts at or after the cursor of that scan.

    * **`step_blockMove`** — a step keeps the blocks, closes one, opens one, or forgets them all.
    * **`ordered_after`** — the open blocks of a run are in the order of the document.
    * **`openedSince_after`** — of the blocks open at some scan and those opened later.
    * **`forgetFrom_after`** — forgetting what was opened later brings the blocks back, as long as
      all of them are still open. -/

namespace TemplateScan

open Text

-- ── blocks ───────────────────────────────────────────────────────────────────────

namespace Blocks

variable {b : Blocks} {block : Block} {name : String}

/-- Closing a block takes it out and keeps the others in their order. -/
theorem close_sublist (b : Blocks) (name : String) :
    (b.close name).entries.Sublist b.entries := by
  have h := (List.eraseP_sublist (p := (·.name == name)) (l := b.entries.reverse)).reverse
  rwa [List.reverse_reverse] at h

/-- The block that was opened last is the nearest one of its name. -/
theorem nearest?_push_self (b : Blocks) (block : Block) :
    (b.push block).nearest? block.name = some block := by
  rw [nearest?, entries_push, List.reverse_append]
  exact List.find?_cons_of_pos (beq_self_eq_true _)

/-- What stands before the nearest block of a name, and what after it, is closed apart. -/
theorem close_append (old new : List Block) (name : String) :
    (∃ new', (Blocks.mk (old ++ new)).close name = ⟨old ++ new'⟩ ∧ new'.Sublist new) ∨
      ∃ old', (Blocks.mk (old ++ new)).close name = ⟨old' ++ new⟩ ∧ old'.Sublist old := by
  by_cases hany : ∃ block ∈ new.reverse, (block.name == name) = true
  · obtain ⟨block, hmem, hname⟩ := hany
    left
    refine ⟨(new.reverse.eraseP (·.name == name)).reverse, ?_, ?_⟩
    · rw [close, List.reverse_append,
        List.eraseP_append_left (p := (·.name == name)) hname _ hmem, List.reverse_append,
        List.reverse_reverse]
    · have h := (List.eraseP_sublist (p := (·.name == name)) (l := new.reverse)).reverse
      rwa [List.reverse_reverse] at h
  · right
    refine ⟨(old.reverse.eraseP (·.name == name)).reverse, ?_, ?_⟩
    · rw [close, List.reverse_append,
        List.eraseP_append_right _ fun block hmem hname => hany ⟨block, hmem, hname⟩,
        List.reverse_append, List.reverse_reverse]
    · exact close_sublist ⟨old⟩ name

end Blocks

-- ── one step ─────────────────────────────────────────────────────────────────────

namespace Machine

variable {γ : Type} [Grammar γ] {m : Machine γ} {r : Reader} {reply : Reply γ}

/-- The answer moves the cursor. -/
def Advances (r : Reader) (reply : Reply γ) : Prop :=
  r.offset < (reply.extent.apply r).offset

omit [Grammar γ] in
theorem advances_of_count (hn : 0 < reply.extent.count)
    (hle : reply.extent.count ≤ r.rest.length) : Advances r reply := by
  rw [Advances, offset_apply, ← Reader.offsetAt_zero]
  exact Reader.offsetAt_lt hn hle

/-- What a step does to the open blocks, and where a block starts that it opens. -/
inductive BlockMove (m : Machine γ) (r : Reader) (reply : Reply γ) : Prop where
  | keeps (hb : reply.machine.blocks = m.blocks)
      (ho : reply.machine.phase = .opened → m.phase = .opened ∧ reply.machine.tag = m.tag ∨
        reply.machine.tag.start = r.offset ∧ Advances r reply)
  | closes (name : String) (hb : reply.machine.blocks = m.blocks.close name)
      (ho : reply.machine.phase ≠ .opened)
  /-- A tag, or an element, opens a block. -/
  | opens (block : Block) (hb : reply.machine.blocks = m.blocks.push block)
      (hs : m.phase = .opened ∧ block.span.start = m.tag.start ∨
        block.span.start = r.offset ∧ Advances r reply)
      (ho : reply.machine.phase ≠ .opened)
  /-- The end of the document. -/
  | forgets (hb : reply.machine.blocks = ∅) (ho : reply.machine.phase ≠ .opened)

theorem BlockStep.blockMove (h : BlockStep m r reply) : BlockMove m r reply := by
  cases h with
  | @opens form hf =>
      have hpos : 0 < form.opener.length := by cases form <;> decide
      exact .keeps rfl fun _ => Or.inr ⟨rfl, advances_of_count hpos hf.length_le⟩
  | @starts name hp _ =>
      generalize Grammar.resolve (Grammar.setExpect m.grammar .tag) (String.ofList name) = g
      have ho := phase_takeStartTag_ne_opened { m with grammar := g } name r.document
      rcases blocks_takeStartTag { m with grammar := g } name r.document with hpush | hkeep
      · exact .opens _ hpush (Or.inl ⟨hp, rfl⟩) ho
      · exact .keeps hkeep fun h => absurd h ho
  | ends _ _ _ => exact .closes _ rfl (by rintro ⟨⟩)
  | @element name tail _ hr hn =>
      refine .opens _ rfl (Or.inr ⟨rfl, advances_of_count ?_ ?_⟩) (by rintro ⟨⟩)
      · exact Nat.lt_add_right _ Nat.one_pos
      · have hle := (identifier?_eq_some hn).1.length_le
        show 1 + name.length ≤ _
        rw [hr, List.length_cons]
        omega
  | endElement _ _ _ => exact .closes _ rfl (by rintro ⟨⟩)
  | selfClose _ _ =>
      show BlockMove m r ({ m with blocks := closeInnermost m.blocks }.emit .markupClose 2 .literal)
      cases hparent : m.blocks.parent? with
      | none =>
          refine .keeps ?_ (by rintro ⟨⟩)
          show closeInnermost m.blocks = m.blocks
          rw [closeInnermost, hparent]
      | some name =>
          refine .closes name ?_ (by rintro ⟨⟩)
          show closeInnermost m.blocks = _
          rw [closeInnermost, hparent]
  | waits _ _ _ hkeeps hp ht _ =>
      exact .keeps hkeeps.blocks fun ho => Or.inl ⟨hp ▸ ho, ht⟩
  | plain _ hkeeps _ ho _ _ => exact .keeps hkeeps.blocks fun h => absurd h ho

omit [Grammar γ] in
theorem blocks_flush (m : Machine γ) (size : Nat) :
    (m.flush size).blocks = m.blocks ∨ (m.flush size).blocks = ∅ := by
  rw [flush]
  split
  · exact Or.inl rfl
  · exact Or.inr rfl

/-- Every step does one of these things to the open blocks. -/
theorem step_blockMove (hb : m.BracketSound) (hm : m.BodySound) (r : Reader) :
    BlockMove m r (m.step r) := by
  by_cases he : (m.step r).event = .finished
  · obtain ⟨hr, hp⟩ := step_finished_iff.mp he
    rw [step_atEnd hp hr]
    generalize hflush : ({ m with phase := .literal } : Machine γ).flush r.document.size = next
    have ho : next.phase ≠ .opened := by
      rw [← hflush, phase_flush]
      rintro ⟨⟩
    rcases blocks_flush { m with phase := .literal } r.document.size with hb | hb
    · rw [hflush] at hb
      exact .keeps hb fun h => absurd h ho
    · rw [hflush] at hb
      exact .forgets hb ho
  · exact (step_blockStep hb hm he).blockMove

-- ── the order of the document ────────────────────────────────────────────────────

/-- The open blocks are in the order of the document, before the cursor; behind an open delimiter,
    before that. -/
structure Ordered (m : Machine γ) (r : Reader) : Prop where
  ordered : m.blocks.entries.Pairwise fun a b => a.span.start < b.span.start
  behind : ∀ b ∈ m.blocks.entries, b.span.start < r.offset
  opened : m.phase = .opened →
    m.tag.start < r.offset ∧ ∀ b ∈ m.blocks.entries, b.span.start < m.tag.start

omit [Grammar γ] in
theorem Ordered.move (h : m.Ordered r) (hmove : BlockMove m r reply) :
    reply.machine.Ordered (reply.extent.apply r) := by
  have hle : r.offset ≤ (reply.extent.apply r).offset := offset_le_apply _ _
  have hsub : ∀ {entries : List Block}, entries.Sublist m.blocks.entries →
      (entries.Pairwise fun a b => a.span.start < b.span.start) ∧
        ∀ b ∈ entries, b.span.start < (reply.extent.apply r).offset := fun hs =>
    ⟨h.ordered.sublist hs, fun b hb => Nat.lt_of_lt_of_le (h.behind b (hs.subset hb)) hle⟩
  cases hmove with
  | keeps hb ho =>
      obtain ⟨hordered, hbehind⟩ := hsub (List.Sublist.refl _)
      rw [← hb] at hordered hbehind
      refine ⟨hordered, hbehind, fun hp => ?_⟩
      rw [hb]
      rcases ho hp with ⟨hopened, htag⟩ | ⟨hstart, hlt⟩
      · rw [htag]
        exact ⟨Nat.lt_of_lt_of_le (h.opened hopened).1 hle, (h.opened hopened).2⟩
      · rw [hstart]
        exact ⟨hlt, h.behind⟩
  | closes name hb ho =>
      obtain ⟨hordered, hbehind⟩ := hsub (Blocks.close_sublist m.blocks name)
      rw [← hb] at hordered hbehind
      exact ⟨hordered, hbehind, fun hp => absurd hp ho⟩
  | opens block hb hs ho =>
      -- the new block starts after all the others, and before the cursor
      have hlast : (∀ b ∈ m.blocks.entries, b.span.start < block.span.start) ∧
          block.span.start < (reply.extent.apply r).offset := by
        rcases hs with ⟨hp, hstart⟩ | ⟨hstart, hlt⟩
        · rw [hstart]
          exact ⟨(h.opened hp).2, Nat.lt_of_lt_of_le (h.opened hp).1 hle⟩
        · rw [hstart]
          exact ⟨h.behind, hlt⟩
      obtain ⟨hordered, hbehind⟩ := hsub (List.Sublist.refl _)
      refine ⟨?_, ?_, fun hp => absurd hp ho⟩ <;> rw [hb, Blocks.entries_push]
      · refine List.pairwise_append.mpr ⟨hordered, List.pairwise_singleton _ _, fun b hb c hc => ?_⟩
        rw [List.mem_singleton.mp hc]
        exact hlast.1 b hb
      · intro b hb
        rcases List.mem_append.mp hb with hb | hb
        · exact hbehind b hb
        · rw [List.mem_singleton.mp hb]
          exact hlast.2
  | forgets hb ho =>
      refine ⟨?_, ?_, fun hp => absurd hp ho⟩ <;> rw [hb]
      · exact List.Pairwise.nil
      · exact fun b hb => absurd hb List.not_mem_nil

-- ── older and newer blocks ───────────────────────────────────────────────────────

/-- The open blocks are some of the given ones and, after them, blocks opened at or after an
    offset. -/
structure OpenedSince (olds : List Block) (offset : Nat) (m : Machine γ) : Prop where
  split : ∃ old new, m.blocks.entries = old ++ new ∧ old.Sublist olds ∧
    ∀ b ∈ new, offset ≤ b.span.start
  opened : m.phase = .opened → offset ≤ m.tag.start

omit [Grammar γ] in
theorem OpenedSince.move {olds : List Block} {offset : Nat} (h : OpenedSince olds offset m)
    (hle : offset ≤ r.offset) (hmove : BlockMove m r reply) :
    OpenedSince olds offset reply.machine := by
  obtain ⟨old, new, hsplit, hold, hnew⟩ := h.split
  cases hmove with
  | keeps hb ho =>
      refine ⟨⟨old, new, by rw [hb, hsplit], hold, hnew⟩, fun hp => ?_⟩
      rcases ho hp with ⟨hopened, htag⟩ | ⟨hstart, -⟩
      · rw [htag]
        exact h.opened hopened
      · rwa [hstart]
  | closes name hb ho =>
      refine ⟨?_, fun hp => absurd hp ho⟩
      rw [hb, show m.blocks = ⟨old ++ new⟩ from congrArg Blocks.mk hsplit]
      rcases Blocks.close_append old new name with ⟨new', heq, hsub⟩ | ⟨old', heq, hsub⟩
      · exact ⟨old, new', by rw [heq], hold, fun b hb => hnew b (hsub.subset hb)⟩
      · exact ⟨old', new, by rw [heq], hsub.trans hold, hnew⟩
  | opens block hb hs ho =>
      refine ⟨⟨old, new ++ [block], ?_, hold, fun b hmem => ?_⟩, fun hp => absurd hp ho⟩
      · rw [hb, Blocks.entries_push, hsplit, List.append_assoc]
      · rcases List.mem_append.mp hmem with hmem | hmem
        · exact hnew b hmem
        · rw [List.mem_singleton.mp hmem]
          rcases hs with ⟨hp, hstart⟩ | ⟨hstart, -⟩
          · rw [hstart]
            exact h.opened hp
          · rwa [hstart]
  | forgets hb ho =>
      refine ⟨⟨[], [], by rw [hb]; rfl, List.nil_sublist _, ?_⟩, fun hp => absurd hp ho⟩
      exact fun b hb => absurd hb List.not_mem_nil

end Machine

-- ── runs ─────────────────────────────────────────────────────────────────────────

namespace Scanner

variable {γ : Type} [Grammar γ]

/-- In a run from the start the open blocks are in the order of the document. -/
theorem ordered_after (source : String) (grammar : γ) (n : Nat) :
    ((ofString source grammar).after n).machine.Ordered
      ((ofString source grammar).after n).reader := by
  induction n with
  | zero => exact ⟨List.Pairwise.nil, fun _ hb => absurd hb List.not_mem_nil, nofun⟩
  | succ n ih =>
      exact ih.move (Machine.step_blockMove (bracketSound_after source grammar n)
        (bodySound_after source grammar n) _)

/-- Outside tags the run goes on with blocks that are open already, and with blocks that start at
    the cursor or after it. -/
theorem openedSince_after {source : String} {grammar : γ} {i : Nat}
    (h : ((ofString source grammar).after i).machine.phase ≠ .opened) (n : Nat) :
    ((ofString source grammar).after (i + n)).machine.OpenedSince
      ((ofString source grammar).after i).machine.blocks.entries
      ((ofString source grammar).after i).reader.offset := by
  induction n with
  | zero =>
      refine ⟨⟨_, [], (List.append_nil _).symm, List.Sublist.refl _, ?_⟩, fun hp => absurd hp h⟩
      exact fun b hb => absurd hb List.not_mem_nil
  | succ n ih =>
      exact ih.move (offset_le_after _ i n)
        (Machine.step_blockMove (bracketSound_after source grammar _)
          (bodySound_after source grammar _) _)

/-- Forgetting what has been opened since brings the blocks back, as long as all of them are still
    open. -/
theorem forgetFrom_after {source : String} {grammar : γ} {i n : Nat}
    (h : ((ofString source grammar).after i).machine.phase ≠ .opened)
    (hopen : ∀ b ∈ ((ofString source grammar).after i).machine.blocks.entries,
      b ∈ ((ofString source grammar).after (i + n)).machine.blocks.entries) :
    ((ofString source grammar).after (i + n)).machine.blocks.forgetFrom
        ((ofString source grammar).after i).reader.offset =
      ((ofString source grammar).after i).machine.blocks := by
  obtain ⟨old, new, hsplit, hsub, hnew⟩ := (openedSince_after h n).split
  obtain ⟨hordered, hbehind, -⟩ := ordered_after source grammar i
  generalize ((ofString source grammar).after i).machine.blocks = blocks at *
  generalize ((ofString source grammar).after i).reader.offset = offset at *
  have hkept : ∀ b ∈ blocks.entries, b ∈ old := by
    intro b hb
    have hmem := hopen b hb
    rw [hsplit] at hmem
    rcases List.mem_append.mp hmem with hmem | hmem
    · exact hmem
    · exact absurd (hbehind b hb) (Nat.not_lt.mpr (hnew b hmem))
  have hnodup : blocks.entries.Nodup :=
    hordered.imp fun {a b} hlt heq => by
      rw [heq] at hlt
      exact Nat.lt_irrefl _ hlt
  obtain rfl : old = blocks.entries :=
    hsub.eq_of_length_le (hnodup.subperm hkept).length_le
  rw [Blocks.forgetFrom, hsplit, List.filter_append,
    List.filter_eq_self.mpr fun b hb => decide_eq_true (hbehind b hb),
    List.filter_eq_nil_iff.mpr fun b hb => by
      rw [decide_eq_true_eq]
      exact Nat.not_lt.mpr (hnew b hb), List.append_nil]

end Scanner

end TemplateScan
