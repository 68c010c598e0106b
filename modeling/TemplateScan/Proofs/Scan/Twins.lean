import TemplateScan.Proofs.Scan.Run
import TemplateScan.Proofs.Scan.Surroundings

/-! # Twins — two scans of one text whose tags have different numbers

    A machine that has gone back in its document is not the machine that came by there before: it
    has given numbers to other tags, and what it keeps of its last tag is stale.  Twins are two
    machines that differ in such things only: the numbers of the second are those of the first,
    renumbered, and whatever else differs is overwritten before it is read.

    * **`Blocks.renumber`** — open blocks under other numbers.
    * **`Machine.Twins`** — two machines that differ in numbers, and in what is never read.
    * **`Machine.Twins.step`** — twins answer alike, and go on as twins. -/

namespace TemplateScan

open Text

-- ── numbers ──────────────────────────────────────────────────────────────────────

/-- The block under another number. -/
def Block.renumber (ρ : Nat → Nat) (block : Block) : Block :=
  { block with node := ρ block.node }

namespace Blocks

variable {f : Block → Block} {ρ : Nat → Nat} {b : Blocks}

/-- The open blocks, each of them changed. -/
def map (f : Block → Block) (b : Blocks) : Blocks :=
  ⟨b.entries.map f⟩

/-- What is done to all blocks is done to the one that is added. -/
theorem map_push (b : Blocks) (block : Block) : (b.push block).map f = (b.map f).push (f block) := by
  rw [map, entries_push, List.map_append]
  rfl

/-- A change of blocks that keeps their names keeps the questions about names. -/
theorem hasName_comp (hf : ∀ block, (f block).name = block.name) (name : String) :
    (fun block : Block => block.name == name) ∘ f = fun block => block.name == name :=
  funext fun block => congrArg (· == name) (hf block)

/-- Where the blocks keep their names, they are found -/
theorem nearest?_map (hf : ∀ block, (f block).name = block.name) (b : Blocks) (name : String) :
    (b.map f).nearest? name = (b.nearest? name).map f := by
  rw [nearest?, map, ← List.map_reverse, List.find?_map, hasName_comp hf]
  rfl

/-- and closed as before, -/
theorem map_close (hf : ∀ block, (f block).name = block.name) (b : Blocks) (name : String) :
    (b.close name).map f = (b.map f).close name := by
  rw [close, close, map, map, ← List.map_reverse, List.eraseP_map, hasName_comp hf,
    List.map_reverse]

/-- and nest as before. -/
theorem parent?_map (hf : ∀ block, (f block).name = block.name) (b : Blocks) :
    (b.map f).parent? = b.parent? := by
  have hname : Block.name ∘ f = Block.name := funext hf
  rw [parent?, innermost?, map, List.getLast?_map, Option.map_map, hname]
  rfl

/-- The innermost block stays the innermost one. -/
theorem map_closeInnermost (hf : ∀ block, (f block).name = block.name) (b : Blocks) :
    (Machine.closeInnermost b).map f = Machine.closeInnermost (b.map f) := by
  rw [Machine.closeInnermost, Machine.closeInnermost, parent?_map hf]
  split
  · exact map_close hf b _
  · rfl

/-- The open blocks under other numbers. -/
def renumber (ρ : Nat → Nat) (b : Blocks) : Blocks :=
  ⟨b.entries.map (Block.renumber ρ)⟩

/-- Numbers that are kept leave the blocks alone. -/
theorem renumber_eq_self (h : ∀ block ∈ b.entries, ρ block.node = block.node) :
    b.renumber ρ = b := by
  have hsame : b.entries.map (Block.renumber ρ) = b.entries := by
    refine (List.map_congr_left fun block hblock => ?_).trans (List.map_id _)
    rw [Block.renumber, h block hblock]
    rfl
  rw [renumber, hsame]

/-- The block that is added gets its new number, too. -/
theorem renumber_push (b : Blocks) (block : Block) :
    (b.push block).renumber ρ = (b.renumber ρ).push (block.renumber ρ) :=
  map_push b block

/-- The numbers play no part in finding a block, -/
theorem nearest?_renumber (b : Blocks) (name : String) :
    (b.renumber ρ).nearest? name = (b.nearest? name).map (Block.renumber ρ) :=
  nearest?_map (f := Block.renumber ρ) (fun _ => rfl) b name

/-- nor in closing one. -/
theorem renumber_close (b : Blocks) (name : String) :
    (b.close name).renumber ρ = (b.renumber ρ).close name :=
  map_close (f := Block.renumber ρ) (fun _ => rfl) b name

@[simp] theorem parent?_renumber (b : Blocks) : (b.renumber ρ).parent? = b.parent? :=
  parent?_map (f := Block.renumber ρ) (fun _ => rfl) b

/-- The innermost block is closed, whatever its number. -/
theorem renumber_closeInnermost (b : Blocks) :
    (Machine.closeInnermost b).renumber ρ = Machine.closeInnermost (b.renumber ρ) :=
  map_closeInnermost (f := Block.renumber ρ) (fun _ => rfl) b

/-- Blocks are forgotten by their places, not by their numbers. -/
theorem renumber_forgetFrom (b : Blocks) (offset : Nat) :
    (b.forgetFrom offset).renumber ρ = (b.renumber ρ).forgetFrom offset := by
  rw [forgetFrom, forgetFrom, renumber, renumber, List.filter_map]
  rfl

/-- Reports about blocks do not mention their numbers. -/
@[simp] theorem notices_renumber (b : Blocks) (documentEnd : Nat) :
    (b.renumber ρ).notices documentEnd = b.notices documentEnd := by
  rw [notices, renumber, List.map_map]
  rfl

end Blocks

-- ── lookups ──────────────────────────────────────────────────────────────────────

namespace Lookup

variable {l l' : Lookup}

/-- The lookup without what it expects, and without the current tag. -/
def bare (l : Lookup) : Lookup :=
  { l with expect := .tag, tag := none }

/-- Lookups that agree but for the tag belong to the same dialect. -/
theorem dialect_of_bare (h : l'.bare = l.bare) : l'.dialect = l.dialect :=
  show l'.bare.dialect = l.bare.dialect from congrArg Lookup.dialect h

/-- Two lookups that agree in everything else differ by the tag at most. -/
theorem eq_of_bare (h : l'.bare = l.bare) (he : l'.expect = l.expect) :
    l' = { l with tag := l'.tag } := by
  cases l
  cases l'
  simp only [bare, mk.injEq, true_and] at h he ⊢
  exact ⟨h.1, he, h.2⟩

/-- A name of a tag takes the place of the current tag. -/
theorem resolve_of_bare (h : l'.bare = l.bare) (name : String) :
    Grammar.resolve (Grammar.setExpect l' .tag) name =
      Grammar.resolve (Grammar.setExpect l .tag) name := by
  show ({ l'.bare with tag := (l'.dialect.tags.get? name).map fun rule => (name, rule) } : Lookup) =
    { l.bare with tag := (l.dialect.tags.get? name).map fun rule => (name, rule) }
  rw [h, dialect_of_bare h]

/-- The tags that are known do not depend on the tag looked up last. -/
theorem knows_of_bare (h : l'.bare = l.bare) (name : String) :
    Grammar.knows (Grammar.setExpect l' .tag) name =
      Grammar.knows (Grammar.setExpect l .tag) name := by
  show l'.dialect.tags.contains name = l.dialect.tags.contains name
  rw [dialect_of_bare h]

theorem hasAssociates_of_bare (h : l'.bare = l.bare) :
    Grammar.hasAssociates l' = Grammar.hasAssociates l := by
  show l'.hasAssociates = l.hasAssociates
  rw [hasAssociates, hasAssociates, dialect_of_bare h]

theorem isAssociate_of_bare (h : l'.bare = l.bare) (name : String) :
    Grammar.isAssociate l' name = Grammar.isAssociate l name := by
  show l'.isAssociate name = l.isAssociate name
  rw [isAssociate, isAssociate, dialect_of_bare h]

end Lookup

-- ── twins ────────────────────────────────────────────────────────────────────────

/-- The scanner is at a point of a tag, or of the end of an element, where the pair of the last end
    is still its own. -/
def Phase.holdsPair : Phase → Bool
  | .literal => false
  | .markup phase => phase = .closeName
  | _ => true

/-- Inside a tag the number of the block that was closed is kept. -/
theorem Phase.holdsPair_of_inTag {p : Phase} (h : p.inTag = true) : p.holdsPair = true := by
  cases p with
  | literal => cases h
  | markup phase => cases h
  | _ => rfl

/-- The rule of a tag is asked for inside the tag only. -/
theorem Phase.inTag_of_readsRule {p : Phase} (h : p.readsRule = true) : p.inTag = true := by
  cases p with
  | literal => cases h
  | markup phase => cases h
  | _ => rfl

namespace Machine

variable {ρ : Nat → Nat} {strict : Prop} {m m' : Machine Lookup} {r : Reader}

/-- The second machine is the first with its numbers changed by `ρ`.  The pair of the last end, the
    start of the last tag and its rule may differ as well where they are not asked for again; the
    first two of them do not if `strict` holds. -/
structure Twins (ρ : Nat → Nat) (strict : Prop) (m m' : Machine Lookup) : Prop where
  phase : m'.phase = m.phase
  body : m'.body = m.body
  brackets : m'.brackets = m.brackets
  notices : m'.notices = m.notices
  flushed : m'.flushed = m.flushed
  blocks : m'.blocks = m.blocks.renumber ρ
  nodes : m'.nodes = ρ m.nodes
  /-- The numbers still to be given are changed alike. -/
  fresh : ∀ n, m.nodes ≤ n → ρ (n + 1) = ρ n + 1
  lookup : m'.grammar.bare = m.grammar.bare
  tag : m.phase.inTag = true → m'.tag = { m.tag with node := ρ m.tag.node }
  expect : m.phase.inTag = true → m'.grammar.expect = m.grammar.expect
  rule : m.phase.readsRule = true → m'.grammar.tag = m.grammar.tag
  pair : strict ∨ m.phase.holdsPair = true → m'.pair = m.pair.map ρ
  start : strict → m'.tag.start = m.tag.start

/-- Two replies that are alike, and leave twins behind. -/
structure Matched (ρ : Nat → Nat) (strict : Prop) (reply reply' : Reply Lookup) : Prop where
  event : reply'.event = reply.event
  extent : reply'.extent = reply.extent
  machine : Twins ρ strict reply.machine reply'.machine

theorem Matched.ite {c : Prop} [Decidable c] {a b a' b' : Reply Lookup}
    (ha : Matched ρ strict a a') (hb : Matched ρ strict b b') :
    Matched ρ strict (if c then a else b) (if c then a' else b') := by
  split
  · exact ha
  · exact hb

/-- Twins in another phase. -/
theorem Twins.enter (h : Twins ρ strict m m') {p : Phase}
    (ht : p.inTag = true → m.phase.inTag = true)
    (hr : p.readsRule = true → m'.grammar.tag = m.grammar.tag)
    (hp : p.holdsPair = true → m.phase.holdsPair = true) :
    Twins ρ strict { m with phase := p } { m' with phase := p } where
  phase := rfl
  body := h.body
  brackets := h.brackets
  notices := h.notices
  flushed := h.flushed
  blocks := h.blocks
  nodes := h.nodes
  fresh := h.fresh
  lookup := h.lookup
  tag hin := h.tag (ht hin)
  expect hin := h.expect (ht hin)
  rule := hr
  pair hor := h.pair (hor.imp_right hp)
  start := h.start

/-- Outside tags, and where no element ends, nothing is asked for that may differ. -/
theorem Twins.leave (h : Twins ρ strict m m') {p : Phase} (hp : p.holdsPair = false) :
    Twins ρ strict { m with phase := p } { m' with phase := p } := by
  have hout : p.inTag ≠ true := by
    intro hin
    rw [Phase.holdsPair_of_inTag hin] at hp
    cases hp
  refine h.enter (fun hin => absurd hin hout) (fun hr => ?_) fun hh => ?_
  · exact absurd (Phase.inTag_of_readsRule hr) hout
  · rw [hp] at hh
    cases hh

/-- Where the pair is not kept, twins may go on outside tags. -/
theorem Twins.emit (h : Twins ρ strict m m') {kind : TokenKind} {n : Nat} {p : Phase}
    (hp : p.holdsPair = false) : Matched ρ strict (m.emit kind n p) (m'.emit kind n p) :=
  ⟨rfl, rfl, h.leave hp⟩

-- ── inside a tag ─────────────────────────────────────────────────────────────────

/-- Inside a tag twins differ in their surroundings only. -/
theorem Twins.eq_within (h : Twins ρ strict m m') (hp : m.phase.inTag = true) :
    m' = m.within m'.surroundings := by
  have hgrammar := Lookup.eq_of_bare h.lookup (h.expect hp)
  have htag : m'.tag = { m.tag with node := m'.tag.node } := by
    rw [h.tag hp]
  rw [within, surroundings, ← hgrammar, ← htag, ← h.phase, ← h.body, ← h.brackets, ← h.notices,
    ← h.flushed]

/-- A step that does not look at its surroundings keeps twins. -/
theorem Twins.of_blind (h : Twins ρ strict m m') (hp : m.phase.inTag = true) {reads : Bool}
    {f : Machine Lookup → Reply Lookup}
    (hf : ∀ σ : Surroundings, (reads = true → σ.rule = m.grammar.tag) →
      Blind σ reads (f m) (f (m.within σ)))
    (hr : reads = true → m'.grammar.tag = m.grammar.tag) :
    Matched ρ strict (f m) (f m') := by
  have hself : (f m).machine.surroundings = m.surroundings :=
    (hf m.surroundings fun _ => rfl).surroundings_eq
  obtain ⟨hevent, hextent, hmachine, hreads⟩ := hf m'.surroundings hr
  rw [← h.eq_within hp] at hevent hextent hmachine
  refine ⟨hevent, hextent, ?_⟩
  rw [hmachine]
  generalize (f m).machine = next at hself hreads
  have hrule : next.grammar.tag = m.grammar.tag := congrArg Surroundings.rule hself
  have hnode : next.tag.node = m.tag.node := congrArg Surroundings.node hself
  have hblocks : next.blocks = m.blocks := congrArg Surroundings.blocks hself
  have hnodes : next.nodes = m.nodes := congrArg Surroundings.nodes hself
  have hpair : next.pair = m.pair := congrArg Surroundings.pair hself
  refine ⟨rfl, rfl, rfl, rfl, rfl, ?_, ?_, ?_, rfl, fun _ => ?_, fun _ => rfl, fun hread => ?_,
    fun _ => ?_, fun _ => rfl⟩
  · rw [hblocks]
    exact h.blocks
  · rw [hnodes]
    exact h.nodes
  · rw [hnodes]
    exact h.fresh
  · rw [hnode]
    show ({ next.tag with node := m'.tag.node } : Tag) = _
    rw [h.tag hp]
  · rw [hrule]
    exact hr (hreads hread)
  · rw [hpair]
    exact h.pair (Or.inr (Phase.holdsPair_of_inTag hp))

/-- Once the name of the tag has been taken, twins stay twins. -/
theorem Twins.stepNamed (h : Twins ρ strict m m') (hp : m.phase.isNamed = true) (r : Reader) :
    Matched ρ strict (m.step r) (m'.step r) :=
  h.of_blind (f := fun m => m.step r) (Phase.inTag_of_isNamed hp) (fun _ hσ => blind_step hp hσ)
    h.rule

-- ── the name of a tag ────────────────────────────────────────────────────────────

/-- Inside the tag things go on, in a phase that does not ask for another rule. -/
theorem Twins.stay (h : Twins ρ strict m m') (hp : m.phase.inTag = true) {kind : TokenKind}
    {n : Nat} {p : Phase} (hr : p.readsRule = true → m'.grammar.tag = m.grammar.tag) :
    Matched ρ strict (m.emit kind n p) (m'.emit kind n p) :=
  ⟨rfl, rfl, h.enter (fun _ => hp) hr fun _ => Phase.holdsPair_of_inTag hp⟩

/-- Inside a tag the pair is kept, and the rule is not asked for again. -/
theorem Twins.stayPlain (h : Twins ρ strict m m') (hp : m.phase.inTag = true) {kind : TokenKind}
    {n : Nat} {p : Phase} (hr : p.readsRule = false) :
    Matched ρ strict (m.emit kind n p) (m'.emit kind n p) :=
  h.stay hp fun hread => absurd (hr.symm.trans hread) Bool.false_ne_true

/-- The nearest block is closed, and its number becomes the pair. -/
theorem Twins.close (h : Twins ρ strict m m') (name : String) {p : Phase}
    (ht : p.inTag = true → m.phase.inTag = true) (hr : p.readsRule = false) :
    Twins ρ strict
      { m with
        phase := p
        pair := (m.blocks.nearest? name).map Block.node
        blocks := m.blocks.close name }
      { m' with
        phase := p
        pair := (m'.blocks.nearest? name).map Block.node
        blocks := m'.blocks.close name } := by
  have hblocks : m'.blocks.close name = (m.blocks.close name).renumber ρ := by
    rw [h.blocks, Blocks.renumber_close]
  have hpair : (m'.blocks.nearest? name).map Block.node =
      ((m.blocks.nearest? name).map Block.node).map ρ := by
    rw [h.blocks, Blocks.nearest?_renumber, Option.map_map, Option.map_map]
    rfl
  exact { h with
    phase := rfl
    blocks := hblocks
    tag := fun hin => h.tag (ht hin)
    expect := fun hin => h.expect (ht hin)
    rule := fun hread => absurd (hr.symm.trans hread) Bool.false_ne_true
    pair := fun _ => hpair }

/-- An end tag closes the same block, under its other number. -/
theorem Twins.takeEndTag (h : Twins ρ strict m m') (hp : m.phase.inTag = true)
    (name block : List Char) :
    Matched ρ strict (m.takeEndTag name block) (m'.takeEndTag name block) := by
  refine ⟨rfl, ?_, h.close _ (fun _ => hp) rfl⟩
  show Extent.takeFrom m'.tag.start name.length = Extent.takeFrom m.tag.start name.length
  rw [h.tag hp]

/-- A block is opened, or not. -/
theorem Twins.takeStartTag (h : Twins ρ strict m m') (hp : m.phase.inTag = true)
    (hg : m'.grammar = m.grammar) (name : List Char) (d : Document) :
    Matched ρ strict (m.takeStartTag name d) (m'.takeStartTag name d) := by
  have hidentity : m'.identity = m.identity := by rw [identity, identity, hg]
  have hbody : m'.bodyKind? = m.bodyKind? := by rw [bodyKind?, bodyKind?, hg]
  have hplace : m'.isMisplaced = m.isMisplaced := by
    rw [isMisplaced, isMisplaced, hg, h.blocks, Blocks.parent?_renumber]
  have hblock : m'.openedBlock name d = (m.openedBlock name d).renumber ρ := by
    rw [openedBlock, openedBlock, h.tag hp]
    rfl
  rw [Machine.takeStartTag, Machine.takeStartTag, hidentity, hbody, hplace, h.body, hblock]
  obtain ⟨kind, phase⟩ := m.identity
  refine Twins.stay ?_ ?_ ?_
  · refine { h with body := rfl, blocks := ?_ }
    show (if Grammar.isBlock m'.grammar then m'.blocks.push ((m.openedBlock name d).renumber ρ)
      else m'.blocks) = Blocks.renumber ρ (if Grammar.isBlock m.grammar then
        m.blocks.push (m.openedBlock name d) else m.blocks)
    rw [hg, h.blocks]
    split
    · exact (Blocks.renumber_push _ _).symm
    · rfl
  · exact hp
  · exact fun _ => congrArg Lookup.tag hg

/-- A name that is looked up takes the place of the rules that may differ. -/
theorem Twins.resolve (h : Twins ρ strict m m') (name : String) :
    Twins ρ strict { m with grammar := Grammar.resolve (Grammar.setExpect m.grammar .tag) name }
      { m' with grammar := Grammar.resolve (Grammar.setExpect m'.grammar .tag) name } := by
  have hsame := Lookup.resolve_of_bare h.lookup name
  rw [hsame]
  exact { h with lookup := rfl, expect := fun _ => rfl, rule := fun _ => rfl }

/-- A known name brings the same rule; then the lookups agree in full. -/
theorem Twins.stepTagName (h : Twins ρ strict m m') (hp : m.phase.inTag = true) :
    Matched ρ strict (m.stepTagName r) (m'.stepTagName r) := by
  have hform : m'.tag.form = m.tag.form := by rw [h.tag hp]
  rw [Machine.stepTagName, Machine.stepTagName, hform]
  refine .ite (h.stayPlain hp rfl) (.ite (h.stayPlain hp rfl) ?_)
  split
  · rw [recover, recover, hform]
    exact h.stayPlain hp rfl
  · next name _ =>
      have hnext := h.resolve (String.ofList name)
      dsimp only
      rw [Lookup.knows_of_bare h.lookup]
      refine .ite (hnext.takeStartTag hp ?_ name r.document) (hnext.stayPlain hp rfl)
      exact Lookup.resolve_of_bare h.lookup (String.ofList name)

/-- Behind the open delimiter twins find the same dash, name or end tag. -/
theorem Twins.stepOpened (h : Twins ρ strict m m') (hp : m.phase.inTag = true) :
    Matched ρ strict (m.stepOpened r) (m'.stepOpened r) := by
  have hform : m'.tag.form = m.tag.form := by rw [h.tag hp]
  have hstart : m'.tag.start = m.tag.start := by rw [h.tag hp]
  rw [Machine.stepOpened, Machine.stepOpened, hform, hstart]
  refine .ite (h.stayPlain hp rfl) ?_
  split
  · exact h.stayPlain hp rfl
  · split
    · split
      · exact h.takeEndTag hp _ _
      · exact h.stepTagName hp
    · exact h.stepTagName hp

/-- Behind an open delimiter twins stay twins. -/
theorem Twins.step_opened (h : Twins ρ strict m m') (hp : m.phase = .opened) (r : Reader) :
    Matched ρ strict (m.step r) (m'.step r) := by
  have hin : m.phase.inTag = true := by rw [hp]; rfl
  have hread : ∀ {P : Prop}, m.phase.readsRule = true → P := by
    intro P hread
    rw [hp] at hread
    cases hread
  have hliteral : m.phase ≠ .literal := by
    rw [hp]
    rintro ⟨⟩
  rw [step, step, h.phase, if_neg hliteral, if_neg hliteral]
  refine .ite ?_ (.ite (h.stay hin hread) (.ite (h.stay hin hread) ?_))
  · have hblind (σ : Surroundings) (_ : false = true → σ.rule = m.grammar.tag) :
        Blind σ false (m.stepEnd r.document.size) ((m.within σ).stepEnd r.document.size) :=
      blind_stepEnd hin hread
    exact h.of_blind (f := fun m => m.stepEnd r.document.size) hin hblind (by rintro ⟨⟩)
  · rw [stepPhase, stepPhase, h.phase, hp]
    exact h.stepOpened hin

-- ── outside tags ─────────────────────────────────────────────────────────────────

/-- A body ends at the same place. -/
theorem Twins.stepBody (h : Twins ρ strict m m') (body : Body) (rest : List Char) :
    Matched ρ strict (m.stepBody body rest) (m'.stepBody body rest) := by
  rw [Machine.stepBody, Machine.stepBody]
  split
  · refine ⟨rfl, rfl, ?_⟩
    have hnext : Twins ρ strict { m with body := none } { m' with body := none } :=
      { h with body := rfl }
    exact hnext.leave rfl
  · exact ⟨rfl, rfl, h.leave rfl⟩

/-- A tag that is opened gets the next number. -/
theorem Twins.openTag (h : Twins ρ strict m m') (form : TagForm) (offset : Nat) :
    Matched ρ strict (m.openTag form offset) (m'.openTag form offset) := by
  refine ⟨rfl, rfl, rfl, h.body, rfl, h.notices, h.flushed, h.blocks, ?_, ?_, ?_, fun _ => ?_,
    fun _ => rfl, ?_, fun _ => rfl, fun _ => rfl⟩
  · show m'.nodes + 1 = ρ (m.nodes + 1)
    rw [h.nodes, h.fresh m.nodes (Nat.le_refl _)]
  · exact fun n hn => h.fresh n (Nat.le_of_succ_le hn)
  · show ({ m'.grammar.bare with filter := none, argumentIndex := 0 } : Lookup) =
      { m.grammar.bare with filter := none, argumentIndex := 0 }
    rw [h.lookup]
  · show (⟨form, offset, m'.nodes⟩ : Tag) = ⟨form, offset, ρ m.nodes⟩
    rw [h.nodes]
  · rintro ⟨⟩

theorem Twins.passText (h : Twins ρ strict m m') (rest : List Char) :
    Matched ρ strict (m.passText rest) (m'.passText rest) := by
  rw [Machine.passText, Machine.passText, Lookup.hasAssociates_of_bare h.lookup]
  exact ⟨rfl, rfl, h.leave rfl⟩

/-- An element gets the next number of each twin. -/
theorem Twins.stepElement (h : Twins ρ strict m m') (name : List Char) :
    Matched ρ strict (m.stepElement name r) (m'.stepElement name r) := by
  rw [Machine.stepElement, Machine.stepElement, Lookup.isAssociate_of_bare h.lookup]
  refine .ite ?_ (h.emit rfl)
  refine Twins.emit ?_ rfl
  refine { h with blocks := ?_, nodes := ?_, fresh := ?_ }
  · show m'.blocks.push _ = (m.blocks.push _).renumber ρ
    rw [Blocks.renumber_push, h.blocks, h.nodes]
    rfl
  · show m'.nodes + 1 = ρ (m.nodes + 1)
    rw [h.nodes, h.fresh m.nodes (Nat.le_refl _)]
  · exact fun n hn => h.fresh n (Nat.le_of_succ_le hn)

/-- An element that ends closes the same block, under its other number. -/
theorem Twins.stepEndElement (h : Twins ρ strict m m') (name : List Char) :
    Matched ρ strict (m.stepEndElement name) (m'.stepEndElement name) := by
  rw [Machine.stepEndElement, Machine.stepEndElement, Lookup.isAssociate_of_bare h.lookup]
  exact .ite ⟨rfl, rfl, h.close _ (by rintro ⟨⟩) rfl⟩ (h.emit rfl)

/-- The same elements begin and end. -/
theorem Twins.stepMarkupText (h : Twins ρ strict m m') :
    Matched ρ strict (m.stepMarkupText r) (m'.stepMarkupText r) := by
  rw [Machine.stepMarkupText, Machine.stepMarkupText]
  split
  · split
    · exact h.stepEndElement _
    · exact h.passText _
  · split
    · exact h.stepElement _
    · exact h.passText _
  · exact h.passText _

/-- Outside tags twins open the same tags and pass over the same text. -/
theorem Twins.stepLiteral (h : Twins ρ strict m m') :
    Matched ρ strict (m.stepLiteral r) (m'.stepLiteral r) := by
  rw [Machine.stepLiteral, Machine.stepLiteral, h.body, Lookup.hasAssociates_of_bare h.lookup]
  split
  · exact h.stepBody _ _
  · exact .ite (h.openTag _ _) (.ite (h.openTag _ _) (.ite h.stepMarkupText (h.passText _)))

theorem Twins.stepAttributeName (h : Twins ρ strict m m') :
    Matched ρ strict (m.stepAttributeName r) (m'.stepAttributeName r) := by
  have hblocks : closeInnermost m'.blocks = (closeInnermost m.blocks).renumber ρ := by
    rw [h.blocks, Blocks.renumber_closeInnermost]
  have hclosed : Twins ρ strict { m with blocks := closeInnermost m.blocks }
      { m' with blocks := closeInnermost m'.blocks } := { h with blocks := hblocks }
  refine .ite (h.emit rfl) (.ite (hclosed.emit rfl) (.ite ?_ (.ite (h.emit rfl) (h.emit rfl))))
  exact (h.leave rfl).stepLiteral

theorem Twins.stepAttributeOperator (h : Twins ρ strict m m') :
    Matched ρ strict (m.stepAttributeOperator r) (m'.stepAttributeOperator r) :=
  .ite (h.emit rfl) h.stepAttributeName

theorem Twins.stepAttributeValue (h : Twins ρ strict m m') :
    Matched ρ strict (m.stepAttributeValue r) (m'.stepAttributeValue r) := by
  rw [Machine.stepAttributeValue, Machine.stepAttributeValue]
  split
  · exact h.emit rfl
  · exact h.emit rfl
  · exact .ite h.stepAttributeName (h.emit rfl)

theorem Twins.stepMarkup (h : Twins ρ strict m m') (phase : MarkupPhase) :
    Matched ρ strict (m.stepMarkup phase r) (m'.stepMarkup phase r) := by
  cases phase with
  | attributeName => exact h.stepAttributeName
  | attributeOperator => exact h.stepAttributeOperator
  | attributeValue => exact h.stepAttributeValue
  | closeName => exact .ite (h.emit rfl) (h.emit rfl)

/-- At the end of the document the same blocks are reported. -/
theorem Twins.flush (h : Twins ρ strict m m') (size : Nat) :
    Twins ρ strict (m.flush size) (m'.flush size) := by
  rw [Machine.flush, Machine.flush, h.flushed]
  split
  · exact h
  · have hnotices : m'.notices ++ m'.blocks.notices size = m.notices ++ m.blocks.notices size := by
      rw [h.notices, h.blocks, Blocks.notices_renumber]
    exact { h with notices := hnotices, flushed := rfl, blocks := rfl }

/-- Outside tags twins stay twins. -/
theorem Twins.step_outside (h : Twins ρ strict m m') (hp : m.phase.inTag = false) (r : Reader) :
    Matched ρ strict (m.step r) (m'.step r) := by
  have hend : Matched ρ strict (m.stepEnd r.document.size) (m'.stepEnd r.document.size) := by
    rw [stepEnd, stepEnd, h.phase, hp]
    exact ⟨rfl, rfl, (h.leave rfl).flush _⟩
  rw [step, step, h.phase]
  refine .ite hend ?_
  cases hphase : m.phase with
  | literal =>
      rw [stepPhase, stepPhase, h.phase, hphase]
      exact h.stepLiteral
  | markup phase =>
      have hsame : Twins ρ strict { m with phase := .markup phase }
          { m' with phase := .markup phase } := by
        have hself := h.enter (p := m.phase) id h.rule id
        rwa [hphase] at hself
      have hliteral : Phase.markup phase ≠ .literal := by rintro ⟨⟩
      rw [if_neg hliteral, if_neg hliteral, stepPhase, stepPhase, h.phase, hphase]
      dsimp only
      refine .ite ?_ (.ite ?_ (h.stepMarkup phase))
      · exact ⟨rfl, rfl, hsame⟩
      · exact ⟨rfl, rfl, hsame⟩
  | _ =>
      rw [hphase] at hp
      cases hp

/-- **Twins.**  Two machines that differ in their numbers, and in what is never read again, answer
    alike at the same place of a document, and differ in no more afterwards. -/
theorem Twins.step (h : Twins ρ strict m m') (r : Reader) :
    Matched ρ strict (m.step r) (m'.step r) := by
  cases hin : m.phase.inTag with
  | false => exact h.step_outside hin r
  | true =>
      by_cases ho : m.phase = .opened
      · exact h.step_opened ho r
      · refine h.stepNamed ?_ r
        cases hp : m.phase with
        | opened => exact absurd hp ho
        | literal => rw [hp] at hin; cases hin
        | markup phase => rw [hp] at hin; cases hin
        | _ => rfl

end Machine

-- ── places ───────────────────────────────────────────────────────────────────────

section

variable {r r' : Reader}

/-- The same move from the same place leads to the same place, -/
theorem Extent.mark_apply (e : Extent) (h : r'.mark = r.mark) :
    (e.apply r').mark = (e.apply r).mark := by
  cases e with
  | hold => exact h
  | take n =>
      show (r'.mark.extend n).mark = (r.mark.extend n).mark
      rw [h]
  | takeFrom start n =>
      show ((r'.mark.extend n).rewindStart start).mark = ((r.mark.extend n).rewindStart start).mark
      rw [h]

/-- and takes the same token, if it takes one. -/
theorem Extent.apply_of_mark {e : Extent} (h : r'.mark = r.mark) (he : e ≠ .hold) :
    e.apply r' = e.apply r := by
  cases e with
  | hold => exact absurd rfl he
  | take n =>
      show r'.mark.extend n = r.mark.extend n
      rw [h]
  | takeFrom start n =>
      show (r'.mark.extend n).rewindStart start = (r.mark.extend n).rewindStart start
      rw [h]

namespace Machine

variable {γ : Type} [Grammar γ] (m : Machine γ) (r : Reader)

/-- The span of an element starts at the cursor. -/
theorem stepElement_mark (name : List Char) : m.stepElement name r.mark = m.stepElement name r := by
  simp only [stepElement, Reader.offsetAt, Reader.offset_mark, Reader.rest_mark,
    Reader.document_mark]

/-- Text with elements is scanned from the cursor on. -/
theorem stepMarkupText_mark : m.stepMarkupText r.mark = m.stepMarkupText r := by
  simp only [stepMarkupText, stepElement_mark]
  rfl

theorem stepLiteral_mark : m.stepLiteral r.mark = m.stepLiteral r := by
  simp only [stepLiteral, stepMarkupText_mark, Reader.offset_mark]
  rfl

theorem stepMarkup_mark (phase : MarkupPhase) : m.stepMarkup phase r.mark = m.stepMarkup phase r := by
  cases phase <;>
    simp only [stepMarkup, stepAttributeName, stepAttributeOperator, stepAttributeValue,
      stepLiteral_mark] <;>
    rfl

/-- Behind the open delimiter only the offset of the cursor counts. -/
theorem stepOpened_mark : m.stepOpened r.mark = m.stepOpened r := by
  simp only [stepOpened, Reader.offset_mark]
  rfl

/-- An opening bracket is recorded at the cursor. -/
theorem stepPath_mark (phase : PathPhase) (resume : Resume) :
    m.stepPath phase resume r.mark = m.stepPath phase resume r := by
  cases phase <;> simp only [stepPath, stepMember, Reader.offset_mark] <;> rfl

/-- A step does not look at the token before it. -/
theorem step_mark : m.step r.mark = m.step r := by
  have hphase : m.stepPhase r.mark = m.stepPhase r := by
    simp only [stepPhase, stepLiteral_mark, stepOpened_mark, stepMarkup_mark, stepPath_mark]
    rfl
  simp only [step, hphase]
  rfl

end Machine

/-- Readers at the same place take the same step, whatever their tokens. -/
theorem Machine.step_of_mark {γ : Type} [Grammar γ] {m : Machine γ} (h : r'.mark = r.mark) :
    m.step r' = m.step r := by
  rw [← step_mark m r', h, step_mark]

end

-- ── scanners ─────────────────────────────────────────────────────────────────────

namespace Scanner

variable {ρ : Nat → Nat} {strict : Prop} {s t : Scanner Lookup}

/-- Twins at the same place of the same document.  What they show of the last scan is the same, too,
    if `strict` holds. -/
structure Twins (ρ : Nat → Nat) (strict : Prop) (s t : Scanner Lookup) : Prop where
  place : t.reader.mark = s.reader.mark
  machine : s.machine.Twins ρ strict t.machine
  reader : strict → t.reader = s.reader
  fault : strict → t.fault = s.fault

/-- Scanners that are twins take matching steps. -/
theorem Twins.matched (h : s.Twins ρ strict t) :
    Machine.Matched ρ strict (s.machine.step s.reader) (t.machine.step t.reader) := by
  rw [Machine.step_of_mark h.place]
  exact h.machine.step s.reader

/-- Twins find the same, -/
theorem Twins.event (h : s.Twins ρ strict t) : t.scanHere.1 = s.scanHere.1 :=
  h.matched.event

/-- and stay twins. -/
theorem Twins.scanHere (h : s.Twins ρ strict t) : s.scanHere.2.Twins ρ strict t.scanHere.2 := by
  obtain ⟨hevent, hextent, hmachine⟩ := h.matched
  refine ⟨?_, hmachine, fun hs => ?_, fun _ => congrArg Event.fault? hevent⟩
  · rw [reader_scanHere, reader_scanHere, hextent]
    exact Extent.mark_apply _ h.place
  · rw [reader_scanHere, reader_scanHere, hextent, h.reader hs]

/-- Twins stay twins. -/
theorem Twins.after (h : s.Twins ρ strict t) (n : Nat) : (s.after n).Twins ρ strict (t.after n) := by
  induction n with
  | zero => exact h
  | succ n ih => exact ih.scanHere

end Scanner

end TemplateScan
