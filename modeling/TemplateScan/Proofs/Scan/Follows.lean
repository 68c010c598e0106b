import TemplateScan.Proofs.Scan.BlockStep
import TemplateScan.Proofs.Scan.Tokens

/-! # Following a replay — the open blocks are those that wait in the replay of the tokens

    The machine knows its open blocks by their names in text, and takes them from the text itself;
    the replay sees nothing but tokens.  They agree as long as they agree on what waits, on the next
    number, and on the tag whose name is still to come.

    * **`find?_block`** — names in text tell blocks apart as well as keys do.
    * **`Follows`** — the machine agrees with the replay.
    * **`Follows.scan`** — one scan and the replay of its token keep them in agreement.
    * **`Follows.pair_scan`** — the scan of an end pairs it with the opening that the replay closes.
    * **`Follows.notices_scan`** — the scan that finds the end reports the openings that wait. -/

namespace TemplateScan

open Text

-- ── keys ─────────────────────────────────────────────────────────────────────────

/-- The names of tags are told from those of elements. -/
def Key.Sound : Key → Prop
  | .tag name => '<' ∉ name
  | .element _ => True

/-- Sound keys are told apart by their texts. -/
theorem Key.eq_of_text_eq {k k' : Key} (hk : k.Sound) (hk' : k'.Sound) (h : k.text = k'.text) :
    k = k' := by
  have hchars : k.chars = k'.chars := String.ofList_injective h
  cases k with
  | tag name =>
      cases k' with
      | tag name' => exact congrArg Key.tag hchars
      | element name' =>
          have hmem : '<' ∉ name := hk
          have hname : name = '<' :: (name' ++ ['>']) := hchars
          rw [hname] at hmem
          exact absurd (List.mem_cons_self ..) hmem
  | element name =>
      cases k' with
      | tag name' =>
          have hmem : '<' ∉ name' := hk'
          have hname : '<' :: (name ++ ['>']) = name' := hchars
          rw [← hname] at hmem
          exact absurd (List.mem_cons_self ..) hmem
      | element name' =>
          have htail : name ++ ['>'] = name' ++ ['>'] := (List.cons.inj hchars).2
          exact congrArg Key.element (List.append_cancel_right htail)

/-- The block that stands for an opening in the machine. -/
def Opening.block (o : Opening) : Block :=
  ⟨o.key.text, o.node, o.span⟩

/-- Among blocks the latest of a name is the latest opening of its key. -/
theorem find?_block {waiting : List Opening} {key : Key} (hw : ∀ o ∈ waiting, o.key.Sound)
    (hk : key.Sound) :
    (waiting.map Opening.block).find? (·.name == key.text) =
        (waiting.find? (·.key = key)).map Opening.block ∧
      (waiting.map Opening.block).eraseP (·.name == key.text) =
        (waiting.eraseP (·.key = key)).map Opening.block := by
  induction waiting with
  | nil => exact ⟨rfl, rfl⟩
  | cons o waiting ih =>
      obtain ⟨hfind, herase⟩ := ih fun x hx => hw x (List.mem_cons_of_mem _ hx)
      by_cases ho : o.key = key
      · have hname : o.block.name == key.text := by simp [Opening.block, ho]
        simp [hname, ho]
      · have hne : o.key.text ≠ key.text := fun h =>
          ho (Key.eq_of_text_eq (hw o (List.mem_cons_self ..)) hk h)
        have hname : (o.block.name == key.text) = false := by simp [Opening.block, hne]
        simp [hname, ho, hfind, herase]

-- ── grammars ─────────────────────────────────────────────────────────────────────

/-- Whatever a lookup moves to, it stays in its dialect. -/
theorem Lookup.dialect_of_moves {l l' : Lookup} (h : Grammar.Moves l l') :
    l'.dialect = l.dialect := by
  induction h with
  | refl => rfl
  | setExpect _ _ ih | releaseObject _ ih | resetFilter _ ih => exact ih
  | @resolve l' _ name ih =>
      show (l'.resolve name).dialect = _
      rw [Lookup.resolve]
      split <;> exact ih
  | @enterProperty l' _ name ih =>
      show (l'.enterProperty name).dialect = _
      rw [Lookup.enterProperty]
      split <;> exact ih
  | @nextArgument l' _ ih =>
      show l'.nextArgument.dialect = _
      rw [Lookup.nextArgument]
      split <;> exact ih

/-- The rule of a name is that of its dialect. -/
theorem Lookup.isBlock_resolve (l : Lookup) (name : String) :
    Grammar.isBlock (Grammar.resolve (Grammar.setExpect l .tag) name) =
      (l.dialect.tags.get? name).any (·.block) := by
  show (((l.dialect.tags.get? name).map fun rule => (name, rule)).map (·.2)).any (·.block) = _
  cases l.dialect.tags.get? name <;> rfl

/-- The name of a known tag opens a block when its rule says so. -/
theorem Lookup.isBlock_eq_namesBlock {l : Lookup} {name text : List Char}
    (h : identifier? text = some name) :
    Grammar.isBlock (Grammar.resolve (Grammar.setExpect l .tag) (String.ofList name)) =
      l.dialect.namesBlock name := by
  rw [Lookup.isBlock_resolve, Dialect.namesBlock, decide_eq_true (identifier?_self h),
    Bool.true_and]

/-- A name that is not known opens no block. -/
theorem Lookup.namesBlock_of_unknown {l : Lookup} {text : List Char}
    (h : Grammar.Unknown l text) : l.dialect.namesBlock text = false := by
  rw [Dialect.namesBlock]
  by_cases hid : identifier? text = some text
  · have hunknown : (l.dialect.tags.get? (String.ofList text)).isSome = false := h text hid
    rw [Option.isSome_eq_false_iff, Option.isNone_iff_eq_none] at hunknown
    rw [hunknown]
    exact Bool.and_false _
  · rw [decide_eq_false hid, Bool.false_and]

-- ── the replay of a token ────────────────────────────────────────────────────────

namespace Replay

variable {dialect : Dialect} {p : Replay} {kind : TokenKind} {span : Span} {text : List Char}

/-- An inert token can only be the name that a tag waits for. -/
theorem step_of_isInert (h : kind.isInert = true) :
    p.step dialect kind span text = p.name dialect text := by
  cases kind <;> first | rfl | cases h

/-- The replay of what one scan finds. -/
def see (dialect : Dialect) (p : Replay) (event : Event) (r : Reader) : Replay :=
  match event with
  | .token kind => p.step dialect kind r.span r.token
  | _ => p

/-- No name is waited for. -/
theorem name_of_none (h : p.unnamed = none) : p.name dialect text = p := by
  rw [name, h]

/-- The name that is waited for opens a block, if the dialect has it do so. -/
theorem name_of_some {node : Nat} (h : p.unnamed = some (node, span)) : p.name dialect text =
    if dialect.namesBlock text then { p with unnamed := none }.push ⟨.tag text, node, span⟩
    else { p with unnamed := none } := by
  rw [name, h]

end Replay

/-- No identifier holds an angle bracket. -/
theorem not_mem_identifier {text name : List Char} (h : identifier? text = some name) :
    '<' ∉ name := by
  intro hmem
  exact absurd ((identifier?_eq_some h).2.2 '<' hmem) (by decide)

/-- An end tag is named after the block that it closes. -/
theorem closedName?_eq_some {name block : List Char}
    (h : Machine.closedName? name = some block) : name = ['e', 'n', 'd'] ++ block := by
  unfold Machine.closedName? at h
  split at h
  · split at h
    · cases h
    · obtain rfl := Option.some.inj h
      rfl
  · cases h

-- ── the machine and the replay ───────────────────────────────────────────────────

/-- The machine agrees with what the replay knows. -/
structure Follows (dialect : Dialect) (m : Machine Lookup) (r : Reader) (p : Replay) : Prop where
  dialect_eq : m.grammar.dialect = dialect
  /-- The open blocks are the openings that wait. -/
  blocks : m.blocks.entries.reverse = p.waiting.map Opening.block
  keys : ∀ o ∈ p.waiting, o.key.Sound
  nodes : m.nodes = p.nodes
  /-- Only behind an open delimiter a name is still to come. -/
  named : m.phase ≠ .opened → p.unnamed = none
  unnamed : m.phase = .opened → p.unnamed = some (m.tag.node,
    r.document.spanOf m.tag.start (m.tag.start + m.tag.form.opener.length))
  filler : m.phase = .opened → ∃ before filler, byteSize before = m.tag.start ∧
    r.behind.reverse = before ++ (m.tag.form.opener ++ filler) ∧ ∀ c ∈ filler, isFiller c = true
  /-- Among the attributes of an element the element itself was opened last. -/
  element : m.phase.inAttributes = true →
    ∃ o rest, p.waiting = o :: rest ∧ p.element = some o.node

section

variable {dialect : Dialect} {m : Machine Lookup} {r : Reader} {p : Replay} {text : List Char}

/-- A tag that opens waits for its name. -/
theorem Follows.openTag {form : TagForm} (h : Follows dialect m r p)
    (hf : form.opener <+: r.rest) :
    Follows dialect (m.openTag form r.offset).machine (r.capture form.opener.length)
      (p.step dialect .openDelimiter (r.capture form.opener.length).span
        (r.capture form.opener.length).token) := by
  have htaken : r.rest.take form.opener.length = form.opener :=
    (List.prefix_iff_eq_take.mp hf).symm
  have hsize : byteSize form.opener = form.opener.length := by cases form <;> decide
  have hstop : (r.capture form.opener.length).offset = r.offset + form.opener.length := by
    rw [Reader.offset_capture, Reader.offsetAt, htaken, hsize]
  have hspan : (r.capture form.opener.length).span =
      r.document.spanOf r.offset (r.offset + form.opener.length) := by
    rw [Reader.span, Reader.position, Reader.start_capture, hstop]
    rfl
  refine ⟨h.dialect_eq, h.blocks, h.keys, congrArg (· + 1) h.nodes, fun hp => absurd rfl hp,
    fun _ => ?_, fun _ => ⟨r.behind.reverse, [], ?_, ?_, fun _ hc => absurd hc List.not_mem_nil⟩,
    ?_⟩
  · rw [hspan]
    exact congrArg (fun n => some (n, _)) h.nodes.symm
  · exact Reader.byteSize_behind r
  · rw [Reader.behind_capture, htaken, List.append_nil]
    rfl
  · rintro ⟨⟩

/-- Once the name has been taken, or outside tags, the phase asks for nothing more. -/
theorem Follows.of_settled {m' : Machine Lookup} {r' : Reader} {p' : Replay}
    (hd : m'.grammar.dialect = dialect)
    (hb : m'.blocks.entries.reverse = p'.waiting.map Opening.block)
    (hk : ∀ o ∈ p'.waiting, o.key.Sound) (hn : m'.nodes = p'.nodes) (hu : p'.unnamed = none)
    (hp : m'.phase.isSettled = true) : Follows dialect m' r' p' := by
  obtain ⟨ho, ha⟩ := Phase.of_isSettled hp
  refine ⟨hd, hb, hk, hn, fun _ => hu, fun h => absurd h ho, fun h => absurd h ho, fun h => ?_⟩
  rw [ha] at h
  cases h

/-- The name of a known tag opens its block in both. -/
theorem Follows.startTag {name : List Char} (h : Follows dialect m r p) (hp : m.phase = .opened)
    (hn : identifier? r.rest = some name) {g : Lookup}
    (hg : g = Grammar.resolve (Grammar.setExpect m.grammar .tag) (String.ofList name))
    {kind : TokenKind}
    (he : (Machine.takeStartTag { m with grammar := g } name r.document).event = .token kind) :
    Follows dialect (Machine.takeStartTag { m with grammar := g } name r.document).machine
      (r.capture name.length)
      (p.step dialect kind (r.capture name.length).span (r.capture name.length).token) := by
  obtain ⟨other, blocks, hk, heq⟩ := Machine.takeStartTag_eq { m with grammar := g } name r.document
  obtain rfl : other = kind := by
    rw [heq] at he
    exact Event.token.inj he
  have htoken : (r.capture name.length).token = name := by
    rw [Reader.token_capture, ← List.prefix_iff_eq_take.mp (identifier?_eq_some hn).1]
  have hsettled := Phase.isSettled_of_isNamed
    (Machine.isNamed_identity ({ m with grammar := g } : Machine Lookup))
  have hblock : Grammar.isBlock g = dialect.namesBlock name := by
    rw [hg, Lookup.isBlock_eq_namesBlock hn, h.dialect_eq]
  have hdialect : g.dialect = dialect := by
    rw [hg, Lookup.dialect_of_moves (.resolve (.setExpect .refl _) _), h.dialect_eq]
  have hblocks : (Machine.takeStartTag { m with grammar := g } name r.document).machine.blocks =
      if dialect.namesBlock name then m.blocks.push (m.openedBlock name r.document)
      else m.blocks := by
    rw [← hblock]
    rfl
  rw [htoken, Replay.step_of_isInert (TokenKind.isInert_of_isPart hk),
    Replay.name_of_some (h.unnamed hp)]
  by_cases hyes : dialect.namesBlock name = true
  · rw [if_pos hyes] at hblocks ⊢
    refine .of_settled hdialect ?_ ?_ h.nodes rfl hsettled
    · rw [hblocks, Blocks.entries_push, List.reverse_append, h.blocks]
      rfl
    · exact List.forall_mem_cons.mpr ⟨not_mem_identifier hn, h.keys⟩
  · rw [if_neg hyes] at hblocks ⊢
    refine .of_settled hdialect ?_ h.keys h.nodes rfl hsettled
    rw [hblocks]
    exact h.blocks

/-- A block that is closed by its name is closed in the replay by its key. -/
theorem Follows.close {key : Key} (h : Follows dialect m r p) (hkey : key.Sound) :
    (m.blocks.close key.text).entries.reverse =
        (p.close (·.key = key)).waiting.map Opening.block ∧
      (m.blocks.nearest? key.text).map Block.node =
        (p.close (·.key = key)).closed.map Opening.node ∧
      ∀ o ∈ (p.close (·.key = key)).waiting, o.key.Sound := by
  obtain ⟨hfind, herase⟩ := find?_block h.keys hkey
  refine ⟨?_, ?_, fun o ho => h.keys o (List.mem_of_mem_eraseP ho)⟩
  · rw [Blocks.close, List.reverse_reverse, h.blocks]
    exact herase
  · rw [Blocks.nearest?, h.blocks]
    refine (congrArg (Option.map Block.node) hfind).trans ?_
    rw [Option.map_map]
    rfl

/-- An end tag closes the nearest block of its name in both. -/
theorem Follows.endTag {name block : List Char} (h : Follows dialect m r p) (hp : m.phase = .opened)
    (hn : identifier? r.rest = some name) (hb : Machine.closedName? name = some block) :
    Follows dialect (m.takeEndTag name block).machine
        ((m.takeEndTag name block).extent.apply r)
        (p.step dialect .endTag ((m.takeEndTag name block).extent.apply r).span
          ((m.takeEndTag name block).extent.apply r).token) ∧
      (m.takeEndTag name block).machine.pair =
        (p.step dialect .endTag ((m.takeEndTag name block).extent.apply r).span
          ((m.takeEndTag name block).extent.apply r).token).closed.map Opening.node := by
  obtain ⟨before, filler, hsize, hbehind, hfiller⟩ := h.filler hp
  have hclosed := closedName?_eq_some hb
  have htoken : ((m.takeEndTag name block).extent.apply r).token =
      m.tag.form.opener ++ (filler ++ name) := by
    show ((r.capture name.length).rewindStart m.tag.start).token = _
    have hle : m.tag.start ≤ r.offset := by
      rw [← hsize, ← Reader.byteSize_behind r, hbehind, byteSize_append]
      exact Nat.le_add_right _ _
    rw [(r.parts_rewindStart name.length hle).2, hbehind, ← hsize, splitAtByte_byteSize,
      ← List.prefix_iff_eq_take.mp (identifier?_eq_some hn).1, List.append_assoc]
  have hname : endedName ((m.takeEndTag name block).extent.apply r).token = block := by
    have htwo : (m.tag.form.opener ++ (filler ++ name)).drop 2 = filler ++ name := by
      cases m.tag.form <;> rfl
    rw [htoken, endedName, htwo, List.dropWhile_append_of_pos hfiller, hclosed]
    rfl
  have hsound : (Key.tag block).Sound := by
    have hmem := not_mem_identifier hn
    rw [hclosed] at hmem
    exact fun hlt => hmem (List.mem_append_right ['e', 'n', 'd'] hlt)
  obtain ⟨hblocks, hpair, hkeys⟩ := h.close hsound
  rw [Replay.step, hname]
  exact ⟨.of_settled h.dialect_eq hblocks hkeys h.nodes rfl rfl, hpair⟩

/-- An element that begins opens a block in both. -/
theorem Follows.openElement {name tail : List Char} (h : Follows dialect m r p)
    (ho : m.phase ≠ .opened) (hr : r.rest = '<' :: tail) (hn : identifier? tail = some name) :
    Follows dialect { m with
        blocks := m.blocks.push ⟨Machine.elementKey name, m.nodes,
          r.document.spanOf r.offset (r.offsetAt (1 + name.length))⟩
        nodes := m.nodes + 1
        phase := .markup .attributeName } (r.capture (1 + name.length))
      (p.step dialect .markupName (r.capture (1 + name.length)).span
        (r.capture (1 + name.length)).token) := by
  have htoken : (r.capture (1 + name.length)).token = '<' :: name := by
    rw [Reader.token_capture, hr, Nat.add_comm, List.take_succ_cons,
      ← List.prefix_iff_eq_take.mp (identifier?_eq_some hn).1]
  have hspan : (r.capture (1 + name.length)).span =
      r.document.spanOf r.offset (r.offsetAt (1 + name.length)) := by
    rw [Reader.span, Reader.position, Reader.start_capture, Reader.offset_capture]
    rfl
  rw [Replay.step, htoken, hspan]
  refine ⟨h.dialect_eq, ?_, ?_, congrArg (· + 1) h.nodes, fun _ => h.named ho, ?_, ?_,
    fun _ => ⟨_, _, rfl, rfl⟩⟩
  · rw [Blocks.entries_push, List.reverse_append, h.blocks, h.nodes]
    rfl
  · exact List.forall_mem_cons.mpr ⟨trivial, h.keys⟩
  · rintro ⟨⟩
  · rintro ⟨⟩

/-- An element that ends closes the nearest block of its name in both. -/
theorem Follows.closeElement {name tail : List Char} (h : Follows dialect m r p)
    (ho : m.phase ≠ .opened) (hr : r.rest = '<' :: '/' :: tail)
    (hn : identifier? tail = some name) :
    Follows dialect { m with
        pair := (m.blocks.nearest? (Machine.elementKey name)).map Block.node
        blocks := m.blocks.close (Machine.elementKey name)
        phase := .markup .closeName } (r.capture (2 + name.length))
      (p.step dialect .endMarkupName (r.capture (2 + name.length)).span
        (r.capture (2 + name.length)).token) ∧
      (m.blocks.nearest? (Machine.elementKey name)).map Block.node =
        (p.step dialect .endMarkupName (r.capture (2 + name.length)).span
          (r.capture (2 + name.length)).token).closed.map Opening.node := by
  have htoken : (r.capture (2 + name.length)).token = '<' :: '/' :: name := by
    rw [Reader.token_capture, hr, Nat.add_comm, List.take_succ_cons, List.take_succ_cons,
      ← List.prefix_iff_eq_take.mp (identifier?_eq_some hn).1]
  have hsound : (Key.element (name.map Char.toLower)).Sound := trivial
  obtain ⟨hblocks, hpair, hkeys⟩ := h.close hsound
  rw [Replay.step, htoken]
  exact ⟨.of_settled h.dialect_eq hblocks hkeys h.nodes (h.named ho) rfl, hpair⟩

/-- The block opened last is the innermost one. -/
theorem closeInnermost_eq {blocks : Blocks} {block : Block} {outer : List Block}
    (h : blocks.entries.reverse = block :: outer) :
    (Machine.closeInnermost blocks).entries.reverse = outer := by
  have hlast : blocks.entries.getLast? = some block := by
    rw [List.getLast?_eq_head?_reverse, h]
    rfl
  have hparent : blocks.parent? = some block.name := by
    rw [Blocks.parent?, Blocks.innermost?, hlast]
    rfl
  rw [Machine.closeInnermost, hparent]
  show (blocks.close block.name).entries.reverse = outer
  rw [Blocks.close, List.reverse_reverse, h]
  exact List.eraseP_cons_of_pos (beq_self_eq_true _)

/-- An element that ends by itself closes its own block in both. -/
theorem Follows.selfClose (h : Follows dialect m r p) (hs : ['/', '>'] <+: r.rest)
    (hm : m.phase.inAttributes = true) :
    Follows dialect { m with blocks := Machine.closeInnermost m.blocks, phase := .literal }
      (r.capture 2) (p.step dialect .markupClose (r.capture 2).span (r.capture 2).token) := by
  obtain ⟨o, rest, hwaiting, helement⟩ := h.element hm
  have hblocks := h.blocks
  rw [hwaiting] at hblocks
  have hself : p.waiting.eraseP (some ·.node = p.element) = rest := by
    rw [hwaiting, helement]
    exact List.eraseP_cons_of_pos (decide_eq_true rfl)
  have ho : m.phase ≠ .opened := by
    intro hp
    rw [hp] at hm
    cases hm
  have htoken : (r.capture 2).token = ['/', '>'] := by
    rw [Reader.token_capture]
    exact (List.prefix_iff_eq_take.mp hs).symm
  rw [Replay.step, htoken, if_pos rfl]
  refine .of_settled h.dialect_eq ?_ ?_ h.nodes (h.named ho) rfl
  · show (Machine.closeInnermost m.blocks).entries.reverse =
      (p.waiting.eraseP (some ·.node = p.element)).map Opening.block
    rw [hself]
    exact closeInnermost_eq hblocks
  · exact fun o ho => h.keys o (List.mem_of_mem_eraseP ho)

/-- A dash or white space keeps what is known. -/
theorem Follows.waits {m' : Machine Lookup} {n : Nat} (h : Follows dialect m r p)
    (hd : m'.grammar.dialect = dialect) (hkeeps : m.KeepsBlocks m') (hp : m'.phase = m.phase)
    (ht : m'.tag = m.tag)
    (hfill : m.phase = .opened → ∀ c ∈ r.rest.take n, isFiller c = true) :
    Follows dialect m' (r.capture n) p := by
  refine ⟨hd, hkeeps.blocks ▸ h.blocks, h.keys, hkeeps.nodes.trans h.nodes, ?_, ?_, ?_, ?_⟩
  · rw [hp]
    exact h.named
  · rw [hp, ht]
    exact h.unnamed
  · rw [hp, ht]
    intro ho
    obtain ⟨before, filler, hsize, hbehind, hfiller⟩ := h.filler ho
    refine ⟨before, filler ++ r.rest.take n, hsize, ?_, fun c hc => ?_⟩
    · rw [Reader.behind_capture, hbehind, List.append_assoc, List.append_assoc]
    · rcases List.mem_append.mp hc with hc | hc
      · exact hfiller c hc
      · exact hfill ho c hc
  · rw [hp]
    exact h.element

/-- Any other answer leaves the blocks alone, and no name is to come any more. -/
theorem Follows.plain {m' : Machine Lookup} {r' : Reader} (h : Follows dialect m r p)
    (hd : m'.grammar.dialect = dialect) (hkeeps : m.KeepsBlocks m') (ho : m'.phase ≠ .opened)
    (ha : m'.phase.inAttributes = true → m.phase.inAttributes = true) :
    Follows dialect m' r' { p with unnamed := none } :=
  ⟨hd, hkeeps.blocks ▸ h.blocks, h.keys, hkeeps.nodes.trans h.nodes, fun _ => rfl,
    fun hp => absurd hp ho, fun hp => absurd hp ho, fun hp => h.element (ha hp)⟩

/-- A token that says nothing about blocks is no name of one. -/
theorem Follows.step_plain {kind : TokenKind} {span : Span} (h : Follows dialect m r p)
    (hk : kind.isInert = true ∨ kind = .markupClose ∧ text ≠ ['/', '>'] ∧ m.phase ≠ .opened)
    (hname : m.phase = .opened → dialect.namesBlock text = false) :
    p.step dialect kind span text = { p with unnamed := none } := by
  have hself : m.phase ≠ .opened → { p with unnamed := none } = p := by
    intro ho
    rw [← h.named ho]
  rcases hk with hk | ⟨rfl, hclose, ho⟩
  · rw [Replay.step_of_isInert hk]
    by_cases ho : m.phase = .opened
    · rw [Replay.name_of_some (h.unnamed ho), hname ho, if_neg Bool.false_ne_true]
    · rw [Replay.name_of_none (h.named ho), hself ho]
  · rw [hself ho, Replay.step, if_neg hclose]

/-- Any other token leaves both as they were, but for the name that may have been waited for. -/
theorem Follows.see_plain {reply : Reply Lookup} {n : Nat} (h : Follows dialect m r p)
    (hx : reply.extent = .take n)
    (hkind : ∀ kind, reply.event = .token kind → kind.isInert = true ∨
      kind = .markupClose ∧ r.rest.head? = some '>' ∧ m.phase ≠ .opened)
    (hname : m.phase = .opened → (∃ kind, reply.event = .token kind) ∧
      Grammar.Unknown m.grammar (r.rest.take n)) (he : reply.event ≠ .finished) :
    p.see dialect reply.event (reply.extent.apply r) = { p with unnamed := none } := by
  cases hevent : reply.event with
  | token kind =>
      have htext : (reply.extent.apply r).token = r.rest.take n := by
        rw [hx]
        exact Reader.token_capture n r
      refine h.step_plain ?_ fun hp => ?_
      · rcases hkind kind hevent with hinert | ⟨hclose, hhead, hp⟩
        · exact Or.inl hinert
        · -- the close of markup is `>` alone, and not `/>`
          refine Or.inr ⟨hclose, ?_, hp⟩
          obtain ⟨tail, htail⟩ := List.head?_eq_some_iff.mp hhead
          rw [htext, htail]
          cases n <;> rintro ⟨⟩
      · rw [htext, ← h.dialect_eq]
        exact Lookup.namesBlock_of_unknown (hname hp).2
  | text =>
      have hp : m.phase ≠ .opened := by
        intro hp
        obtain ⟨kind, hkind⟩ := (hname hp).1
        rw [hevent] at hkind
        cases hkind
      show p = { p with unnamed := none }
      rw [← h.named hp]
  | finished => exact absurd hevent he

/-- **One scan and one token** keep the machine and the replay in agreement. -/
theorem Follows.scan (h : Follows dialect m r p) (hb : m.BracketSound) (hm : m.BodySound)
    (he : (m.step r).event ≠ .finished) :
    Follows dialect (m.step r).machine ((m.step r).extent.apply r)
      (p.see dialect (m.step r).event ((m.step r).extent.apply r)) := by
  have hd : (m.step r).machine.grammar.dialect = dialect := by
    rw [Lookup.dialect_of_moves (Machine.step_moves m r), h.dialect_eq]
  have hstep := Machine.step_blockStep hb hm he
  generalize m.step r = reply at hd hstep he
  cases hstep with
  | opens hf => exact h.openTag hf
  | starts hp hn => exact h.startTag hp hn rfl rfl
  | ends hp hn hclosed => exact (h.endTag hp hn hclosed).1
  | element ho hr hn => exact h.openElement ho hr hn
  | endElement ho hr hn => exact (h.closeElement ho hr hn).1
  | selfClose hs hin => exact h.selfClose hs hin
  | @waits _ kind n he hx hk hkeeps hp ht hfill =>
      rw [he, hx]
      have hsame : p.see dialect (.token kind) ((Extent.take n).apply r) = p := by
        rcases hk with rfl | rfl | rfl <;> rfl
      rw [hsame]
      exact h.waits hd hkeeps hp ht hfill
  | plain hx hkeeps hkind ho ha hname =>
      rw [h.see_plain hx hkind hname he]
      exact h.plain hd hkeeps ho ha

/-- **An end is paired** with the opening that the replay closes, or with none. -/
theorem Follows.pair_scan (h : Follows dialect m r p) (hb : m.BracketSound) (hm : m.BodySound)
    (he : (m.step r).event = .token .endTag ∨ (m.step r).event = .token .endMarkupName) :
    (m.step r).machine.pair =
      (p.see dialect (m.step r).event ((m.step r).extent.apply r)).closed.map Opening.node := by
  have hfinished : (m.step r).event ≠ .finished := by
    intro hf
    rw [hf] at he
    rcases he with ⟨⟨⟩⟩ | ⟨⟨⟩⟩
  rcases (Machine.step_blockStep hb hm hfinished).of_end he with
    ⟨name, block, hp, hn, hclosed, heq⟩ | ⟨name, tail, ho, hr, hn, heq⟩
  · rw [heq]
    exact (h.endTag hp hn hclosed).2
  · rw [heq]
    exact (h.closeElement ho hr hn).2

/-- **What still waits at the end** of the document is reported there. -/
theorem Follows.notices_scan (h : Follows dialect m r p) (hm : m.Unflushed)
    (he : (m.step r).event = .finished) :
    (m.step r).machine.notices = p.waiting.reverse.map (Opening.notice r.document.size) := by
  obtain ⟨hr, hp⟩ := Machine.step_finished_iff.mp he
  have hentries : m.blocks.entries = (p.waiting.map Opening.block).reverse := by
    rw [← h.blocks, List.reverse_reverse]
  rw [Machine.step_atEnd hp hr]
  show (Machine.flush { m with phase := .literal } r.document.size).notices = _
  rw [Machine.flush, if_neg (by rw [hm.flushed]; exact Bool.false_ne_true)]
  show m.notices ++ m.blocks.notices r.document.size = _
  rw [hm.notices, Blocks.notices, hentries, List.nil_append, ← List.map_reverse, List.map_map]
  rfl

end

end TemplateScan
