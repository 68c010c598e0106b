import TemplateScan.Dialect.Standard
import TemplateScan.Proofs.Scan.BlockPlaces
import TemplateScan.Proofs.Scan.Safety

/-! # Incremental scans — the open blocks of a session, whatever is scanned again

    A session goes back and forth: after a rewind text is scanned once more and its tags get new
    numbers, while blocks opened before it keep theirs.  Still the open blocks stand in the order of
    the document and of their numbers, and a number that an end tag has closed is never open again.

    * **`NumberMove`**, **`Numbered`** — what a step does to the numbers, and what it keeps of them.
    * **`Reports`** — the reports are made once, from blocks in order.
    * **`Spent`** — the numbers closed so far are closed for good.
    * **`history`** — the scans of a session, one by one.
    * **`session_in_order`** — order, reports and pairs in every session. -/

namespace TemplateScan

open Text

-- ── blocks ───────────────────────────────────────────────────────────────────────

/-- Closing a block takes out the block that is the nearest of the name. -/
theorem Blocks.close_of_nearest? {b : Blocks} {name : String} {block : Block}
    (h : b.nearest? name = some block) :
    ∃ outer inner, b.entries = outer ++ block :: inner ∧
      (b.close name).entries = outer ++ inner := by
  obtain ⟨hname, before, behind, hsplit, hno⟩ := List.find?_eq_some_iff_append.mp h
  refine ⟨behind.reverse, before.reverse, ?_, ?_⟩
  · rw [← List.reverse_reverse b.entries, hsplit]
    simp
  · have hno' : ∀ a ∈ before, ¬ (a.name == name) = true := fun a ha =>
      Bool.not_eq_true _ ▸ (Bool.not_eq_true' _).mp (hno a ha)
    rw [Blocks.close, hsplit, List.eraseP_append_right _ hno',
      List.eraseP_cons_of_pos (p := fun a : Block => a.name == name) hname, List.reverse_append]

namespace Machine

variable {γ : Type} [Grammar γ] {m : Machine γ} {r : Reader} {reply : Reply γ}

-- ── numbers ──────────────────────────────────────────────────────────────────────

/-- What a step does to the numbers of the open blocks. -/
inductive NumberMove (m : Machine γ) (reply : Reply γ) : Prop where
  /-- An open delimiter takes the next number. -/
  | opens (hb : reply.machine.blocks = m.blocks) (hn : reply.machine.nodes = m.nodes + 1)
      (ht : reply.machine.tag.node = m.nodes)
  | keeps (hb : reply.machine.blocks = m.blocks) (hn : reply.machine.nodes = m.nodes)
      (ho : reply.machine.phase = .opened → m.phase = .opened ∧ reply.machine.tag = m.tag)
  /-- A tag opens a block under the number that it has taken. -/
  | starts (block : Block) (hb : reply.machine.blocks = m.blocks.push block)
      (hn : reply.machine.nodes = m.nodes) (hp : m.phase = .opened) (hs : block.node = m.tag.node)
      (ho : reply.machine.phase ≠ .opened)
  /-- An element opens a block under the next number. -/
  | element (block : Block) (hb : reply.machine.blocks = m.blocks.push block)
      (hn : reply.machine.nodes = m.nodes + 1) (hs : block.node = m.nodes)
      (ho : reply.machine.phase ≠ .opened)
  /-- An end, or the end of the document. -/
  | drops (hb : reply.machine.blocks.entries.Sublist m.blocks.entries)
      (hn : reply.machine.nodes = m.nodes) (ho : reply.machine.phase ≠ .opened)

/-- Closing the innermost block takes one block out, and adds none. -/
theorem sublist_closeInnermost (b : Blocks) : (closeInnermost b).entries.Sublist b.entries := by
  rw [closeInnermost]
  split
  · exact Blocks.close_sublist _ _
  · exact List.Sublist.refl _

/-- In each answer numbers are given out one by one, and taken out of the blocks. -/
theorem BlockStep.numberMove (h : BlockStep m r reply) : NumberMove m reply := by
  cases h with
  | opens _ => exact .opens rfl rfl rfl
  | @starts name hp _ =>
      generalize Grammar.resolve (Grammar.setExpect m.grammar .tag) (String.ofList name) = g
      have ho := phase_takeStartTag_ne_opened { m with grammar := g } name r.document
      rcases blocks_takeStartTag { m with grammar := g } name r.document with hpush | hkeep
      · exact .starts _ hpush rfl hp rfl ho
      · exact .keeps hkeep rfl fun h => absurd h ho
  | ends _ _ _ | endElement _ _ _ => exact .drops (Blocks.close_sublist _ _) rfl nofun
  | element _ _ _ => exact .element _ rfl rfl rfl nofun
  | selfClose _ _ => exact .drops (sublist_closeInnermost _) rfl nofun
  | waits _ _ _ hkeeps hp ht _ =>
      exact .keeps hkeeps.blocks hkeeps.nodes fun ho => ⟨hp ▸ ho, ht⟩
  | plain _ hkeeps _ ho _ _ => exact .keeps hkeeps.blocks hkeeps.nodes fun h => absurd h ho

/-- Every step does one of these things to the numbers. -/
theorem step_numberMove (hb : m.BracketSound) (hm : m.BodySound) (r : Reader) :
    NumberMove m (m.step r) := by
  by_cases he : (m.step r).event = .finished
  · obtain ⟨hr, hp⟩ := step_finished_iff.mp he
    rw [step_atEnd hp hr]
    refine .drops ?_ ?_ ?_
    · rcases blocks_flush { m with phase := .literal } r.document.size with hb | hb <;> rw [hb]
      exact List.nil_sublist _
    · rw [flush]
      split <;> rfl
    · rw [phase_flush]
      show Phase.literal ≠ .opened
      decide
  · exact (step_blockStep hb hm he).numberMove

/-- The open blocks are in the order of their numbers, which have all been given. -/
structure Numbered (m : Machine γ) : Prop where
  ordered : m.blocks.entries.Pairwise fun a b => a.node < b.node
  below : ∀ b ∈ m.blocks.entries, b.node < m.nodes
  opened : m.phase = .opened →
    m.tag.node < m.nodes ∧ ∀ b ∈ m.blocks.entries, b.node < m.tag.node

omit [Grammar γ] in
/-- A block with a number above all others goes behind them. -/
theorem pairwise_push {b : Blocks} {block : Block}
    (h : b.entries.Pairwise fun a b => a.node < b.node)
    (hlast : ∀ a ∈ b.entries, a.node < block.node) :
    (b.push block).entries.Pairwise fun a b => a.node < b.node := by
  rw [Blocks.entries_push]
  refine List.pairwise_append.mpr ⟨h, List.pairwise_singleton _ _, fun a ha c hc => ?_⟩
  rw [List.mem_singleton.mp hc]
  exact hlast a ha

omit [Grammar γ] in
/-- What holds of all blocks and of the one added holds of all. -/
theorem forall_mem_push {b : Blocks} {block : Block} {p : Block → Prop}
    (h : ∀ a ∈ b.entries, p a) (hblock : p block) : ∀ a ∈ (b.push block).entries, p a := by
  intro a ha
  rcases List.mem_append.mp ha with ha | ha
  · exact h a ha
  · rw [List.mem_singleton.mp ha]
    exact hblock

omit [Grammar γ] in
/-- The blocks keep distinct numbers that have been given out. -/
theorem Numbered.move (h : m.Numbered) (hmove : NumberMove m reply) :
    reply.machine.Numbered := by
  cases hmove with
  | opens hb hn ht =>
      refine ⟨by rw [hb]; exact h.ordered, fun b hmem => ?_, fun _ => ⟨?_, fun b hmem => ?_⟩⟩
      · rw [hb] at hmem
        rw [hn]
        exact Nat.lt_succ_of_lt (h.below b hmem)
      · rw [ht, hn]
        exact Nat.lt_succ_self _
      · rw [hb] at hmem
        rw [ht]
        exact h.below b hmem
  | keeps hb hn ho =>
      refine ⟨by rw [hb]; exact h.ordered, by rw [hb, hn]; exact h.below, fun hp => ?_⟩
      obtain ⟨hopened, htag⟩ := ho hp
      rw [htag, hn, hb]
      exact h.opened hopened
  | starts block hb hn hp hs ho =>
      obtain ⟨hnode, hlast⟩ := h.opened hp
      rw [← hs] at hnode hlast
      refine ⟨?_, ?_, fun hp => absurd hp ho⟩ <;> rw [hb]
      · exact pairwise_push h.ordered hlast
      · rw [hn]
        exact forall_mem_push h.below hnode
  | element block hb hn hs ho =>
      refine ⟨?_, ?_, fun hp => absurd hp ho⟩ <;> rw [hb]
      · exact pairwise_push h.ordered (hs ▸ h.below)
      · rw [hn]
        exact forall_mem_push (fun b hmem => Nat.lt_succ_of_lt (h.below b hmem))
          (hs ▸ Nat.lt_succ_self _)
  | drops hb hn ho =>
      refine ⟨h.ordered.sublist hb, fun b hmem => ?_, fun hp => absurd hp ho⟩
      rw [hn]
      exact h.below b (hb.subset hmem)

-- ── closed numbers ───────────────────────────────────────────────────────────────

/-- The numbers have been closed, each of them once, and stay closed. -/
structure Spent (closed : List Nat) (m : Machine γ) : Prop where
  once : closed.Nodup
  given : ∀ n ∈ closed, n < m.nodes
  gone : ∀ b ∈ m.blocks.entries, b.node ∉ closed
  opened : m.phase = .opened → m.tag.node ∉ closed

omit [Grammar γ] in
/-- The next number is not among the closed ones. -/
theorem Spent.next_not_mem {closed : List Nat} (h : Spent closed m) : m.nodes ∉ closed :=
  fun hmem => Nat.lt_irrefl _ (h.given _ hmem)

omit [Grammar γ] in
/-- A number that has been closed is never open again. -/
theorem Spent.move {closed : List Nat} (h : Spent closed m) (hmove : NumberMove m reply) :
    Spent closed reply.machine := by
  have hgiven : ∀ {k}, m.nodes ≤ k → ∀ n ∈ closed, n < k := fun hle n hmem =>
    Nat.lt_of_lt_of_le (h.given n hmem) hle
  cases hmove with
  | opens hb hn ht =>
      refine ⟨h.once, hgiven (by rw [hn]; exact Nat.le_succ _), by rw [hb]; exact h.gone, fun _ => ?_⟩
      rw [ht]
      exact h.next_not_mem
  | keeps hb hn ho =>
      refine ⟨h.once, hgiven (Nat.le_of_eq hn.symm), by rw [hb]; exact h.gone, fun hp => ?_⟩
      obtain ⟨hopened, htag⟩ := ho hp
      rw [htag]
      exact h.opened hopened
  | starts block hb hn hp hs ho =>
      refine ⟨h.once, hgiven (Nat.le_of_eq hn.symm), ?_, fun hp => absurd hp ho⟩
      rw [hb]
      exact forall_mem_push h.gone (hs ▸ h.opened hp)
  | element block hb hn hs ho =>
      refine ⟨h.once, hgiven (by rw [hn]; exact Nat.le_succ _), ?_, fun hp => absurd hp ho⟩
      rw [hb]
      exact forall_mem_push h.gone (hs ▸ h.next_not_mem)
  | drops hb hn ho =>
      exact ⟨h.once, hgiven (Nat.le_of_eq hn.symm), fun b hmem => h.gone b (hb.subset hmem),
        fun hp => absurd hp ho⟩

end Machine

-- ── ends ─────────────────────────────────────────────────────────────────────────

/-- The scan finds the end of a tag, or of an element. -/
def Event.isEnd : Event → Bool
  | .token .endTag | .token .endMarkupName => true
  | _ => false

namespace Machine

variable {γ : Type} [Grammar γ] {m : Machine γ} {r : Reader} {reply : Reply γ}

/-- An end closes the nearest block of some name, and is paired with it. -/
theorem BlockStep.closes_of_isEnd (h : BlockStep m r reply) (he : reply.event.isEnd = true) :
    ∃ name, reply.machine.blocks = m.blocks.close name ∧
      reply.machine.pair = (m.blocks.nearest? name).map Block.node ∧
      reply.machine.nodes = m.nodes ∧ reply.machine.phase ≠ .opened := by
  have hend : reply.event = .token .endTag ∨ reply.event = .token .endMarkupName := by
    generalize reply.event = event at he
    cases event with
    | text | finished => exact nomatch he
    | token kind =>
        cases kind with
        | endTag => exact Or.inl rfl
        | endMarkupName => exact Or.inr rfl
        | _ => exact nomatch he
  rcases h.of_end hend with ⟨_, _, _, _, _, rfl⟩ | ⟨_, _, _, _, _, rfl⟩
  · exact ⟨_, rfl, rfl, rfl, nofun⟩
  · exact ⟨_, rfl, rfl, rfl, nofun⟩

omit [Grammar γ] in
/-- The number of a block that is closed joins the others. -/
theorem Spent.closes {closed : List Nat} {name : String} (h : Spent closed m) (hm : m.Numbered)
    (hb : reply.machine.blocks = m.blocks.close name) (hn : reply.machine.nodes = m.nodes)
    (ho : reply.machine.phase ≠ .opened) :
    Spent (closed ++ ((m.blocks.nearest? name).map Block.node).toList) reply.machine := by
  have hmove : NumberMove m reply := .drops (by rw [hb]; exact Blocks.close_sublist _ _) hn ho
  cases hnear : m.blocks.nearest? name with
  | none =>
      rw [Option.map_none, Option.toList_none, List.append_nil]
      exact h.move hmove
  | some block =>
      obtain ⟨outer, inner, hsplit, hclose⟩ := Blocks.close_of_nearest? hnear
      have hblock : block ∈ m.blocks.entries := by
        rw [hsplit]
        exact List.mem_append_right _ (List.mem_cons_self ..)
      -- the numbers increase, so no other block has this one
      have hother : ∀ b ∈ outer ++ inner, b.node ≠ block.node := by
        have hordered := hm.ordered
        rw [hsplit, List.pairwise_append, List.pairwise_cons] at hordered
        intro b hmem
        rcases List.mem_append.mp hmem with hmem | hmem
        · exact Nat.ne_of_lt (hordered.2.2 b hmem block (List.mem_cons_self ..))
        · exact Nat.ne_of_gt (hordered.2.1.1 b hmem)
      have hkept := h.move hmove
      refine ⟨List.nodup_append.mpr ⟨h.once, List.pairwise_singleton _ _, ?_⟩, ?_, ?_,
        fun hp => absurd hp ho⟩
      · intro n hclosed k hk
        rw [List.mem_singleton.mp hk]
        rintro rfl
        exact h.gone block hblock hclosed
      · intro n hmem
        rcases List.mem_append.mp hmem with hmem | hmem
        · exact hkept.given n hmem
        · rw [List.mem_singleton.mp hmem, hn]
          exact hm.below block hblock
      · intro b hmem hclosed
        rcases List.mem_append.mp hclosed with hclosed | hclosed
        · exact hkept.gone b hmem hclosed
        · rw [hb, hclose] at hmem
          exact hother b hmem (List.mem_singleton.mp hclosed)

-- ── reports ──────────────────────────────────────────────────────────────────────

/-- Nothing has been reported yet; or the end has been found, and what was open there has been
    reported, in the order of the document. -/
inductive Reports (m : Machine γ) (r : Reader) : Prop where
  | none (h : m.Unflushed)
  | made (hf : m.flushed = true) (hr : r.atEnd = true) (hp : m.phase = .literal)
      (ho : m.notices.Pairwise fun a b => a.span.start < b.span.start)

omit [Grammar γ] in
/-- Reports follow one another in the order of their spans. -/
theorem Reports.ordered (h : m.Reports r) :
    m.notices.Pairwise fun a b => a.span.start < b.span.start := by
  cases h with
  | none h =>
      rw [h.notices]
      exact List.Pairwise.nil
  | made _ _ _ ho => exact ho

omit [Grammar γ] in
/-- What is reported at the end is what is open there. -/
theorem notices_flush (h : m.Unflushed) (size : Nat) :
    (m.flush size).notices = m.blocks.notices size := by
  rw [flush, if_neg (by rw [h.flushed]; exact Bool.false_ne_true)]
  show m.notices ++ m.blocks.notices size = _
  rw [h.notices, List.nil_append]

/-- Reports are made once, at the end of the document, in the order of the blocks. -/
theorem Reports.step (h : m.Reports r) (ho : m.Ordered r) :
    (m.step r).machine.Reports ((m.step r).extent.apply r) := by
  cases h with
  | none h =>
      by_cases he : (m.step r).event = .finished
      · obtain ⟨hr, hp⟩ := step_finished_iff.mp he
        rw [step_atEnd hp hr]
        refine .made (flushed_flush _ _) hr (phase_flush _ _) ?_
        have hunflushed : ({ m with phase := .literal } : Machine γ).Unflushed :=
          ⟨h.flushed, h.notices⟩
        rw [notices_flush hunflushed, Blocks.notices]
        exact List.pairwise_map.mpr ho.ordered
      · exact .none (unflushed_step h he)
  | made hf hr hp hordered =>
      rw [step_atEnd_of_flushed hp hr hf]
      exact .made hf hr hp hordered

end Machine

-- ── places to go back to ─────────────────────────────────────────────────────────

/-- What lies before an offset, and in the document, lies before the cursor after a jump there. -/
theorem Text.Reader.lt_offset_jump {r : Reader} {start offset : Nat} (h : start < offset)
    (hsize : start < r.document.size) : start < (r.jump offset).offset := by
  have hcut := min_le_byteSize_splitAtByte offset r.document.chars
  have hlt : start < min offset (byteSize r.document.chars) := Nat.lt_min.mpr ⟨h, hsize⟩
  rw [Reader.jump, Reader.offset, byteSize_reverse]
  omega

-- ── the scans of a session ───────────────────────────────────────────────────────

namespace Scanner

section

variable {γ : Type} [Grammar γ]

/-- The scans made for the next token, if it comes among the first ones, with what each of them
    finds and leads to. -/
def scansWithin : Nat → Scanner γ → List (Event × Scanner γ)
  | 0, _ => []
  | n + 1, s =>
      s.scanHere :: match s.scanHere.1 with
        | .text => scansWithin n s.scanHere.2
        | _ => []

/-- The scans made for at most `n` further tokens. -/
def takeScans : Nat → Scanner γ → List (Event × Scanner γ)
  | 0, _ => []
  | n + 1, s =>
      scansWithin s.work s ++ match s.next with
        | (none, _) => []
        | (some _, s) => takeScans n s

/-- The scans made by a move. -/
def scansOf (s : Scanner γ) : Move → List (Event × Scanner γ)
  | .scan offset => [s.scan offset]
  | .rewind _ | .reset => []
  | .tokens count => s.takeScans count

/-- The scans of a session, one by one. -/
def history (s : Scanner γ) : List Move → List (Event × Scanner γ)
  | [] => []
  | move :: moves => s.scansOf move ++ (s.perform move).history moves

/-- The number of the tag or element that the scan closes. -/
def closedBy? (found : Event × Scanner γ) : Option Nat :=
  if found.1.isEnd then found.2.machine.pair else none

/-- The numbers of the tags and elements that the scans close, in the order of the scans. -/
def closings (found : List (Event × Scanner γ)) : List Nat :=
  found.filterMap closedBy?

end

variable {γ : Type} [Grammar γ] {s t : Scanner γ}

/-- The scans lead from one scanner to another, each from where the one before has led. -/
def ScansTo : Scanner γ → List (Event × Scanner γ) → Scanner γ → Prop
  | s, [], t => t = s
  | s, found :: later, t => found = s.scanHere ∧ ScansTo found.2 later t

/-- Scans of one stretch may be followed by those of another. -/
theorem ScansTo.append {u : Scanner γ} {a b : List (Event × Scanner γ)} (h : ScansTo s a t)
    (h' : ScansTo t b u) : ScansTo s (a ++ b) u := by
  induction a generalizing s with
  | nil =>
      obtain rfl : t = s := h
      exact h'
  | cons found a ih => exact ⟨h.1, ih h.2⟩

/-- Looking for the next token makes the scans that are listed. -/
theorem scansTo_scansWithin (n : Nat) (s : Scanner γ) :
    ScansTo s (scansWithin n s) (s.nextWithin n).2 := by
  induction n generalizing s with
  | zero => exact rfl
  | succ n ih =>
      rw [scansWithin, nextWithin]
      refine ⟨rfl, ?_⟩
      obtain ⟨event, next⟩ := s.scanHere
      cases event with
      | text => exact ih next
      | token _ | finished => exact rfl

/-- Taking tokens makes the scans that are listed. -/
theorem scansTo_takeScans (n : Nat) (s : Scanner γ) : ScansTo s (takeScans n s) (s.take n).2 := by
  induction n generalizing s with
  | zero => exact rfl
  | succ n ih =>
      have hnext : ScansTo s (scansWithin s.work s) s.next.2 := scansTo_scansWithin s.work s
      rw [takeScans, take]
      refine hnext.append ?_
      obtain ⟨token, next⟩ := s.next
      cases token with
      | none => exact rfl
      | some _ => exact ih next

-- ── what every session keeps ─────────────────────────────────────────────────────

/-- The invariant of sessions; the given numbers have been closed. -/
structure Coherent (closed : List Nat) (s : Scanner γ) : Prop where
  brackets : s.machine.BracketSound
  body : s.machine.BodySound
  ordered : s.machine.Ordered s.reader
  numbered : s.machine.Numbered
  spent : s.machine.Spent closed
  reports : s.machine.Reports s.reader

omit [Grammar γ] in
/-- A new scanner has closed nothing. -/
theorem coherent_ofString (source : String) (grammar : γ) :
    Coherent [] (ofString source grammar) where
  brackets _ := rfl
  body := nofun
  ordered := ⟨List.Pairwise.nil, nofun, nofun⟩
  numbered := ⟨List.Pairwise.nil, nofun, nofun⟩
  spent := ⟨List.nodup_nil, nofun, nofun, nofun⟩
  reports := .none ⟨rfl, rfl⟩

/-- A scan keeps the numbers closed so far, and the one that it closes. -/
theorem Coherent.spent_scanHere {closed : List Nat} (h : Coherent closed s) :
    s.scanHere.2.machine.Spent (closed ++ (closedBy? s.scanHere).toList) := by
  cases he : s.scanHere.1.isEnd with
  | false =>
      rw [closedBy?, he, if_neg Bool.false_ne_true, Option.toList_none, List.append_nil]
      exact h.spent.move (Machine.step_numberMove h.brackets h.body s.reader)
  | true =>
      have hevent : (s.machine.step s.reader).event ≠ .finished := by
        intro hf
        rw [event_scanHere, hf] at he
        exact nomatch he
      obtain ⟨name, hb, hpair, hn, ho⟩ :=
        (Machine.step_blockStep h.brackets h.body hevent).closes_of_isEnd he
      rw [closedBy?, he, if_pos rfl, machine_scanHere, hpair]
      exact h.spent.closes h.numbered hb hn ho

/-- A scan adds the number it has closed, if any. -/
theorem Coherent.scanHere {closed : List Nat} (h : Coherent closed s) :
    s.scanHere.2.Coherent (closed ++ (closedBy? s.scanHere).toList) where
  brackets := Machine.bracketSound_step h.brackets s.reader
  body := Machine.bodySound_step h.body s.reader
  ordered := h.ordered.move (Machine.step_blockMove h.brackets h.body s.reader)
  numbered := h.numbered.move (Machine.step_numberMove h.brackets h.body s.reader)
  spent := h.spent_scanHere
  reports := h.reports.step h.ordered

/-- Going back keeps the blocks before the offset, and the numbers of all. -/
theorem Coherent.rewind {closed : List Nat} (h : Coherent closed s) (offset : Nat) :
    (s.rewind offset).Coherent closed where
  brackets _ := rfl
  body := nofun
  ordered := by
    refine ⟨h.ordered.ordered.sublist List.filter_sublist, fun b hb => ?_, nofun⟩
    obtain ⟨hmem, hlt⟩ := List.mem_filter.mp hb
    exact Reader.lt_offset_jump (of_decide_eq_true hlt)
      (Nat.lt_of_lt_of_le (h.ordered.behind b hmem) s.reader.offset_le_size)
  numbered := ⟨h.numbered.ordered.sublist List.filter_sublist,
    fun b hb => h.numbered.below b (List.mem_filter.mp hb).1, nofun⟩
  spent := ⟨h.spent.once, h.spent.given, fun b hb => h.spent.gone b (List.mem_filter.mp hb).1,
    nofun⟩
  reports := .none ⟨rfl, rfl⟩

/-- After a reset nothing has been closed. -/
theorem coherent_reset (s : Scanner γ) : s.reset.Coherent [] where
  brackets _ := rfl
  body := nofun
  ordered := ⟨List.Pairwise.nil, nofun, nofun⟩
  numbered := ⟨List.Pairwise.nil, nofun, nofun⟩
  spent := ⟨List.nodup_nil, nofun, nofun, nofun⟩
  reports := .none ⟨rfl, rfl⟩

/-- A stretch of scans adds the numbers it has closed. -/
theorem Coherent.scansTo {closed : List Nat} {found : List (Event × Scanner γ)}
    (h : Coherent closed s) (hscans : ScansTo s found t) : t.Coherent (closed ++ closings found) := by
  induction found generalizing s closed with
  | nil =>
      obtain rfl : t = s := hscans
      rw [closings, List.filterMap_nil, List.append_nil]
      exact h
  | cons first later ih =>
      obtain ⟨rfl, hlater⟩ := hscans
      have hrest := ih h.scanHere hlater
      rw [List.append_assoc] at hrest
      have hsplit : closings (s.scanHere :: later) =
          (closedBy? s.scanHere).toList ++ closings later := by
        rw [closings, List.filterMap_cons]
        cases closedBy? s.scanHere <;> rfl
      rw [hsplit]
      exact hrest

/-- A move keeps the numbers closed so far and those that it closes, unless it goes back to the
    start. -/
theorem Coherent.perform {closed : List Nat} {move : Move} (h : Coherent closed s)
    (ho : move.isOrderly = true) (hr : move ≠ .reset) :
    (s.perform move).Coherent (closed ++ closings (s.scansOf move)) := by
  cases move with
  | scan offset =>
      obtain rfl : offset = 0 := beq_iff_eq.mp ho
      exact h.scansTo ⟨rfl, rfl⟩
  | rewind offset =>
      show (s.rewind offset).Coherent (closed ++ [])
      rw [List.append_nil]
      exact h.rewind offset
  | reset => exact absurd rfl hr
  | tokens count => exact h.scansTo (scansTo_takeScans count s)

/-- An orderly session without a reset adds the numbers it has closed. -/
theorem Coherent.session {closed : List Nat} {moves : List Move} (h : Coherent closed s)
    (ho : ∀ move ∈ moves, move.isOrderly = true) (hr : Move.reset ∉ moves) :
    (s.session moves).Coherent (closed ++ closings (s.history moves)) := by
  induction moves generalizing s closed with
  | nil =>
      show s.Coherent (closed ++ [])
      rw [List.append_nil]
      exact h
  | cons move moves ih =>
      have hmove := h.perform (ho move (List.mem_cons_self ..)) (List.ne_of_not_mem_cons hr).symm
      have hnext := ih hmove (fun next hnext => ho next (List.mem_cons_of_mem _ hnext))
        (List.not_mem_of_not_mem_cons hr)
      have hsplit : closings (s.history (move :: moves)) =
          closings (s.scansOf move) ++ closings ((s.perform move).history moves) :=
        List.filterMap_append
      rw [hsplit, ← List.append_assoc]
      exact hnext

/-- After any orderly session the scanner is coherent with what has been closed since the last
    reset. -/
theorem exists_coherent_session (source : String) (grammar : γ) {moves : List Move}
    (h : ∀ move ∈ moves, move.isOrderly = true) :
    ∃ closed, ((ofString source grammar).session moves).Coherent closed := by
  refine session_induction (P := fun s => ∃ closed, s.Coherent closed)
    (Q := fun move => move.isOrderly = true) ?_ ?_ ?_ ?_ ⟨[], coherent_ofString source grammar⟩ h
  · rintro s ⟨closed, h⟩
    exact ⟨_, h.scanHere⟩
  · rintro s offset ho ⟨closed, h⟩
    exact ⟨_, h.perform ho nofun⟩
  · rintro s offset - ⟨closed, h⟩
    exact ⟨closed, h.rewind offset⟩
  · rintro s -
    exact ⟨[], coherent_reset s⟩

-- ── order, reports and pairs ─────────────────────────────────────────────────────

/-- The open blocks and the reports are in order, and the reports are made once. -/
structure InOrder (s : Scanner γ) : Prop where
  /-- The open blocks stand in the order of the document, no two at one place. -/
  starts : s.machine.blocks.entries.Pairwise fun a b => a.span.start < b.span.start
  /-- They have increasing numbers. -/
  numbers : s.machine.blocks.entries.Pairwise fun a b => a.node < b.node
  /-- They start before the cursor, and their numbers have been given before. -/
  behind : ∀ b ∈ s.machine.blocks.entries,
    b.span.start < s.reader.offset ∧ b.node < s.machine.nodes
  /-- The reports are in the order of the document, no two at one place. -/
  reports : s.machine.notices.Pairwise fun a b => a.span.start < b.span.start
  /-- Where the end is found, the blocks that are open there are reported, if they have not been
      reported before. -/
  flush : s.scanHere.1 = .finished → s.scanHere.2.machine.notices =
    if s.machine.flushed then s.machine.notices
    else s.machine.blocks.notices s.reader.document.size
  /-- At the end further scans change nothing. -/
  rests : s.scanHere.1 = .finished → ∀ n, s.scanHere.2.after n = s.scanHere.2
  /-- A scanner that goes back has nothing reported. -/
  forgets : ∀ offset, (s.rewind offset).machine.notices = []

/-- A scanner that has reached the end stays there. -/
theorem after_of_finished (h : s.scanHere.1 = .finished) (n : Nat) :
    s.scanHere.2.after n = s.scanHere.2 := by
  have hagain := (scanHere_of_finished (s := s) (t := s.scanHere.2) (Prod.ext h rfl)).1
  induction n with
  | zero => rfl
  | succ n ih => rw [after_succ, ih, hagain]

/-- At the end the blocks still open are reported, unless they have been. -/
theorem Coherent.notices_finished {closed : List Nat} (h : Coherent closed s)
    (he : s.scanHere.1 = .finished) : s.scanHere.2.machine.notices =
      if s.machine.flushed then s.machine.notices
      else s.machine.blocks.notices s.reader.document.size := by
  obtain ⟨hr, hp⟩ := Machine.step_finished_iff.mp he
  rw [machine_scanHere]
  cases h.reports with
  | none hunflushed =>
      rw [Machine.step_atEnd hp hr, if_neg (by rw [hunflushed.flushed]; exact Bool.false_ne_true)]
      exact Machine.notices_flush (m := { s.machine with phase := .literal })
        ⟨hunflushed.flushed, hunflushed.notices⟩ _
  | made hf hr hp _ => rw [Machine.step_atEnd_of_flushed hp hr hf, hf, if_pos rfl]

/-- A coherent scanner has its blocks and reports in order. -/
theorem Coherent.inOrder {closed : List Nat} (h : Coherent closed s) : s.InOrder where
  starts := h.ordered.ordered
  numbers := h.numbered.ordered
  behind b hb := ⟨h.ordered.behind b hb, h.numbered.below b hb⟩
  reports := h.reports.ordered
  flush := h.notices_finished
  rests := after_of_finished
  forgets _ := rfl

/-- **Sessions.**  In a session on any text, with any grammar, that goes back to offsets and reads
    on from where it is: the open blocks stand in the order of the document and of their numbers,
    before the cursor and below the next number; so the reports are in order, too, and none of them
    is made twice, at the end or after going back.  Between two resets no two end tags are paired
    with one number. -/
theorem session_in_order (source : String) (grammar : γ) (moves : List Move)
    (h : ∀ move ∈ moves, move.isOrderly = true) :
    ((ofString source grammar).session moves).InOrder ∧
      ∀ before between later, moves = before ++ between ++ later → Move.reset ∉ between →
        (closings (((ofString source grammar).session before).history between)).Nodup := by
  refine ⟨?_, fun before between later hmoves hreset => ?_⟩
  · obtain ⟨closed, hcoherent⟩ := exists_coherent_session source grammar h
    exact hcoherent.inOrder
  · have hbefore : ∀ move ∈ before, move.isOrderly = true := fun move hmem =>
      h move (hmoves ▸ List.mem_append_left _ (List.mem_append_left _ hmem))
    have hbetween : ∀ move ∈ between, move.isOrderly = true := fun move hmem =>
      h move (hmoves ▸ List.mem_append_left _ (List.mem_append_right _ hmem))
    obtain ⟨closed, hcoherent⟩ := exists_coherent_session source grammar hbefore
    exact (List.nodup_append.mp (hcoherent.session hbetween hreset).spent.once).2.1

/-- Scanned twice, an end tag is paired with another number; the block that is left open is reported
    once. -/
theorem session_in_order_again :
    let s := ofString "\x7b%if x%\x7da\x7b%endif%\x7d\x7b%if y%\x7d" Dialect.standard.lookup
    let moves := [Move.tokens 40, .scan 0, .rewind 0, .tokens 40, .scan 0]
    (∀ move ∈ moves, move.isOrderly = true) ∧ Move.reset ∉ moves ∧
      closings (s.history moves) = [0, 3] ∧
      (s.session moves).machine.notices.map (·.span.start) = [18] ∧
      (s.session moves).InOrder ∧ (closings (s.history moves)).Nodup := by
  intro s moves
  have horderly : ∀ move ∈ moves, move.isOrderly = true := by decide
  have hreset : Move.reset ∉ moves := by decide
  obtain ⟨hclosings, hnotices⟩ : closings (s.history moves) = [0, 3] ∧
      (s.session moves).machine.notices.map (·.span.start) = [18] := by
    decide +kernel
  obtain ⟨hinOrder, hpairs⟩ := session_in_order _ Dialect.standard.lookup moves horderly
  exact ⟨horderly, hreset, hclosings, hnotices, hinOrder,
    hpairs [] moves [] (List.append_nil _).symm hreset⟩

end Scanner

end TemplateScan
