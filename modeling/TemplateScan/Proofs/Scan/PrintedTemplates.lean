import TemplateScan.Proofs.Scan.Pairing
import TemplateScan.Proofs.Scan.PrintedTags

/-! # Printed templates — a document of nested blocks is scanned without a fault

    A template is passed over tag by tag.  A block is opened by its tag and closed by its own end
    tag, since the blocks opened inside it have been closed again by then: the nearest open block of
    the name is the one that the end tag belongs to, whatever names the blocks around it have.  So
    every template, at whatever depth it stands, leaves the open blocks as it found them.

    * **`pairs`** — what the scanner says of each end tag of a run.
    * **`passes_endTag`** — an end tag closes the block opened last.
    * **`passes_template`** — a template, wherever it stands.
    * **`tokenize_template`** — a template as a document. -/

namespace TemplateScan

open Text

namespace Scanner

-- ── the end tags of a run ────────────────────────────────────────────────────────

section

variable {s t u : Scanner Lookup} {n k : Nat}

/-- For each end tag of the run, the number of the tag that it closes. -/
def pairs (s : Scanner Lookup) : List (Option Nat) :=
  s.trace.filterMap fun found =>
    if found.1 = .token .endTag then some found.2.machine.pair else none

/-- What the scan after `n` scans says of the end tag that it finds, if it finds one. -/
def pairAt (s : Scanner Lookup) (n : Nat) : Option (Option Nat) :=
  if s.eventAt n = .token .endTag then some (s.pairAfter (n + 1)) else none

/-- For each end tag found by the first `n` scans, the number of the tag that it closes. -/
def pairsUpTo (s : Scanner Lookup) (n : Nat) : List (Option Nat) :=
  (List.range n).filterMap s.pairAt

/-- The pairs of two runs, one after the other, are joined. -/
theorem pairsUpTo_add (s : Scanner Lookup) (m n : Nat) :
    s.pairsUpTo (m + n) = s.pairsUpTo m ++ (s.after m).pairsUpTo n := by
  have hrest : (s.after m).pairAt = s.pairAt ∘ (m + ·) := by
    funext n
    rw [pairAt, pairAfter, ← eventAt_add, ← after_add]
    rfl
  rw [pairsUpTo, List.range_add, List.filterMap_append, List.filterMap_map, pairsUpTo, pairsUpTo,
    hrest]

/-- Up to the end of the document these are all. -/
theorem pairs_eq (hend : s.eventAt n = .finished) (hbefore : ∀ i < n, s.eventAt i ≠ .finished) :
    s.pairs = s.pairsUpTo n := by
  obtain ⟨k, hk, hfirst, htrace⟩ := trace_ends s
  have hsame : k = n := by
    rcases Nat.lt_trichotomy k n with hlt | heq | hgt
    · exact absurd hk (hbefore k hlt)
    · exact heq
    · exact absurd hend (hfirst n hgt)
  subst hsame
  have hlast : s.pairAt k = none := by
    rw [pairAt, hk]
    rfl
  rw [pairs, htrace, List.filterMap_map, List.range_succ, List.filterMap_append, pairsUpTo]
  have hall : ((fun found : Event × Scanner Lookup =>
      if found.1 = .token .endTag then some found.2.machine.pair else none) ∘
        fun i => (s.after i).scanHere) = s.pairAt := rfl
  rw [hall, List.filterMap_cons, hlast]
  simp

end

-- ── passages with end tags ───────────────────────────────────────────────────────

end Scanner

/-- The tokens hold no fault, and as many end tags as are given, each with its end delimiter. -/
structure Matched (words : List Lexeme) (ends : Nat) : Prop where
  faults : ∀ l ∈ words, l.kind.fault? = none
  endTags : (words.map Lexeme.kind).count .endTag = ends
  endDelimiters : (words.map Lexeme.kind).count .endDelimiter = ends

/-- Two texts that are matched by themselves are matched together. -/
theorem Matched.append {v w : List Lexeme} {m n : Nat} (hv : Matched v m) (hw : Matched w n) :
    Matched (v ++ w) (m + n) where
  faults l hl := by
    rcases List.mem_append.mp hl with hl | hl
    · exact hv.faults l hl
    · exact hw.faults l hl
  endTags := by rw [List.map_append, List.count_append, hv.endTags, hw.endTags]
  endDelimiters := by rw [List.map_append, List.count_append, hv.endDelimiters, hw.endDelimiters]

/-- Ordinary tokens neither open nor close a block. -/
theorem Matched.of_ordinary {words : List Lexeme} (h : ∀ l ∈ words, l.kind.isOrdinary = true) :
    Matched words 0 where
  faults l hl := TokenKind.fault?_of_isOrdinary (h l hl)
  endTags := by
    rw [List.count_eq_zero, List.mem_map]
    rintro ⟨l, hl, hk⟩
    have := h l hl
    rw [hk] at this
    cases this
  endDelimiters := by
    rw [List.count_eq_zero, List.mem_map]
    rintro ⟨l, hl, hk⟩
    have := h l hl
    rw [hk] at this
    cases this

namespace Scanner

open Machine (literalLength interrupts)

variable {dialect : Dialect} {blocks : Blocks} {nodes : Nat} {s t u : Scanner Lookup}
  {a b k : List Char} {p q : List Nat}

/-- The text is passed over without a fault, and its end tags close the given tags. -/
def PassesPaired (s : Scanner Lookup) (text : List Char) (pairs : List Nat) (t : Scanner Lookup) :
    Prop :=
  ∃ n words, PassesIn n s text words t ∧ Matched words pairs.length ∧
    s.pairsUpTo n = pairs.map some

/-- Two passages may follow one another, with their pairs. -/
theorem PassesPaired.trans (h : s.PassesPaired a p t) (h' : t.PassesPaired b q u) :
    s.PassesPaired (a ++ b) (p ++ q) u := by
  obtain ⟨n, v, h, hv, hp⟩ := h
  obtain ⟨m, w, h', hw, hq⟩ := h'
  refine ⟨n + m, v ++ w, h.trans h', ?_, ?_⟩
  · rw [List.length_append]
    exact hv.append hw
  · rw [pairsUpTo_add, hp, h.leads, hq, List.map_append]

/-- Among ordinary tokens no end tag is found. -/
theorem PassesIn.pairsUpTo_eq_nil {n : Nat} {words : List Lexeme} (h : PassesIn n s a words t)
    (hwords : ∀ l ∈ words, l.kind ≠ .endTag) : s.pairsUpTo n = [] := by
  rw [pairsUpTo, List.filterMap_eq_nil_iff]
  intro i hi
  refine if_neg fun hevent => ?_
  refine hwords ⟨.endTag, (s.after (i + 1)).reader.token⟩ ?_ rfl
  rw [← h.words, lexemesUpTo, List.mem_filter, List.mem_filterMap]
  exact ⟨⟨i, hi, lexemeAt_of_token hevent⟩, rfl⟩

/-- A passage over ordinary tokens pairs none. -/
theorem Passes.paired {words : List Lexeme} (h : s.Passes a words t)
    (hwords : ∀ l ∈ words, l.kind.isOrdinary = true) : s.PassesPaired a [] t := by
  obtain ⟨n, h⟩ := h
  refine ⟨n, words, h, .of_ordinary hwords, h.pairsUpTo_eq_nil fun l hl hk => ?_⟩
  have := hwords l hl
  rw [hk] at this
  cases this

/-- The text is passed over without a fault, and its end tags close the given tags; then `k` is
    left, and the scanner is between tags and holds the given blocks and number. -/
def Leads (s : Scanner Lookup) (text : List Char) (pairs : List Nat) (k : List Char)
    (dialect : Dialect) (blocks : Blocks) (nodes : Nat) : Prop :=
  ∃ t, s.PassesPaired text pairs t ∧ t.reader.rest = k ∧ t.machine.Holds dialect blocks nodes ∧
    t.machine.phase = .literal

/-- What leads to a place where the rest leads on leads on, too. -/
theorem Leads.then {rest : List Char} {blocks' : Blocks} {nodes' : Nat}
    (h : s.Leads a p rest dialect blocks nodes)
    (h' : ∀ t : Scanner Lookup, t.machine.Holds dialect blocks nodes →
      t.machine.phase = .literal → t.reader.rest = rest → t.Leads b q k dialect blocks' nodes') :
    s.Leads (a ++ b) (p ++ q) k dialect blocks' nodes' := by
  obtain ⟨t, ht, hrest, hm, hp⟩ := h
  obtain ⟨u, hu, hend⟩ := h' t hm hp hrest
  exact ⟨u, ht.trans hu, hend⟩

-- ── literal text ─────────────────────────────────────────────────────────────────

/-- Text up to the next brace, or to the end of the document, is passed over at once. -/
theorem passes_literal (hm : s.machine.Holds dialect blocks nodes)
    (hassociates : dialect.associates.isEmpty = true) (hp : s.machine.phase = .literal)
    (hplain : '{' ∉ a) (hr : s.reader.rest = a ++ k) (hk : k = [] ∨ k.head? = some '{') :
    s.Leads a [] k dialect blocks nodes := by
  cases a with
  | nil => exact ⟨s, (Passes.refl s).paired nofun, hr, hm, hp⟩
  | cons c cs =>
      have hnone : Grammar.hasAssociates s.machine.grammar = false := by
        show (!s.machine.grammar.dialect.associates.isEmpty) = false
        rw [hm.dialect, hassociates]
        rfl
      have hopener : ∀ form, s.reader.isNext (TagForm.opener form) = false := by
        intro form
        rw [Reader.isNext, hr, Bool.eq_false_iff, ne_eq, List.isPrefixOf_iff_prefix]
        intro hpre
        obtain ⟨tail, htail⟩ := hpre
        have hc : c = '{' := by cases form <;> exact (List.cons.inj htail).1.symm
        exact hplain (hc ▸ List.mem_cons_self ..)
      have hlength : literalLength false s.reader.rest = (c :: cs).length := by
        have htake : (cs ++ k).takeWhile (fun c => !interrupts false c) = cs := by
          have hall : ∀ d ∈ cs, (!interrupts false d) = true := by
            intro d hd
            have hne : d ≠ '{' := fun h => hplain (h ▸ List.mem_cons_of_mem _ hd)
            simpa [interrupts] using hne
          rw [List.takeWhile_append_of_pos hall]
          rcases hk with rfl | hk
          · simp
          · obtain ⟨tail, rfl⟩ := List.head?_eq_some_iff.mp hk
            rw [List.takeWhile_cons_of_neg (by decide), List.append_nil]
        rw [literalLength, hr, List.cons_append, List.tail_cons, htake, List.length_cons,
          Nat.add_comm]
      have hstep : s.machine.step s.reader = ⟨.text, .take (c :: cs).length, s.machine⟩ := by
        have hend : s.reader.atEnd = false := by rw [Reader.atEnd, hr]; rfl
        have hsame : { s.machine with phase := .literal } = s.machine := by rw [← hp]
        rw [Machine.step, hend, if_neg Bool.false_ne_true, if_pos hp, Machine.stepPhase, hp]
        show s.machine.stepLiteral s.reader = _
        rw [Machine.stepLiteral, hm.body]
        dsimp only
        rw [hopener, hopener, hnone, if_neg Bool.false_ne_true, if_neg Bool.false_ne_true,
          if_neg Bool.false_ne_true, Machine.passText, hnone, hlength, hsame]
      obtain ⟨t, ht, htm, hrest⟩ := passes_text hr hstep
      exact ⟨t, ht.paired nofun, hrest, by rw [htm]; exact hm, by rw [htm]; exact hp⟩

-- ── end tags ─────────────────────────────────────────────────────────────────────

/-- **An end tag closes the block opened last**, when it has its name. -/
theorem passes_endTag (block : Block) (hm : s.machine.Holds dialect (blocks.push block) nodes)
    (hp : s.machine.phase = .literal)
    (hname : identifier? block.name.toList = some block.name.toList)
    (hr : s.reader.rest = printStatement ("end".toList ++ block.name.toList) ++ k) :
    s.Leads (printStatement ("end".toList ++ block.name.toList)) [block.node] k dialect blocks
      (nodes + 1) := by
  obtain ⟨hend, hclosed⟩ := identifier?_end hname
  have hr : s.reader.rest = TagForm.opener .statement ++ ' ' :: 'e' :: ("nd".toList ++
      (block.name.toList ++ ' ' :: (TagForm.closer .statement ++ k))) := by
    rw [hr]
    simp [printStatement]
  -- the open delimiter
  obtain ⟨t, ht, htm, hrest, -⟩ := passes_opener hp hm.body hr rfl
  have hrest : t.reader.rest = "end".toList ++ block.name.toList ++
      ' ' :: (TagForm.closer .statement ++ k) := by
    rw [hrest]
    simp
  have hinside := hm.openTag .statement s.reader.offset
  rw [← htm] at hinside
  -- the name of the end tag
  have hread := identifier?_append hend (k := ' ' :: (TagForm.closer .statement ++ k)) rfl
  have hstep := Machine.step_named (m := t.machine) (r := t.reader) (by rw [htm]; rfl)
    (by rw [htm]; rfl) (by rw [hrest]; exact hread)
  rw [hclosed] at hstep
  have hself : String.ofList block.name.toList = block.name := String.ofList_toList
  have hafter : (t.after 1).machine = { t.machine with
      phase := .close true, pair := some block.node, blocks := blocks } := by
    rw [after_succ, after_zero, machine_scanHere, hstep]
    show ({ t.machine with
      phase := .close true
      pair := (t.machine.blocks.nearest? (String.ofList block.name.toList)).map Block.node
      blocks := t.machine.blocks.close (String.ofList block.name.toList) } : Machine Lookup) = _
    rw [hself, hinside.blocks, Blocks.nearest?_push_self, Blocks.close_push_self]
    rfl
  have hrest' : (t.after 1).reader.rest = ' ' :: (TagForm.closer .statement ++ k) := by
    rw [after_succ, after_zero, reader_scanHere, hstep]
    show (t.reader.rest.drop _) = _
    rw [hrest, List.drop_left]
  have hone : PassesIn 1 t ("end".toList ++ block.name.toList) _ (t.after 1) :=
    passesIn_one (congrArg Reply.event hstep) (by rintro ⟨⟩) (by rw [hrest', hrest])
  have hpairs : t.pairsUpTo 1 = [some block.node] := by
    have hevent : t.eventAt 0 = .token .endTag := congrArg Reply.event hstep
    rw [pairsUpTo, List.range_one, List.filterMap_cons, pairAt, if_pos hevent, pairAfter, hafter]
    rfl
  -- the close delimiter
  have hcloses : ∀ r : Reader, TagForm.closer .statement <+: r.rest →
      (t.after 1).machine.step r = (t.after 1).machine.close true r.rest := by
    intro r hcloser
    obtain ⟨c, tail, hr, hblank, -⟩ := Machine.exists_head_of_ends (Or.inr hcloser)
    rw [Machine.step_eq_stepPhase (c := c) (by rw [hafter]; rintro ⟨⟩) (by rw [hr]; rfl) hblank,
      Machine.stepPhase, hafter]
  obtain ⟨u, ⟨n, hu⟩, hum, hrest⟩ := passes_closer (by rw [hafter]; rintro ⟨⟩) hrest' hcloses
    (by rw [hafter, htm]; rfl) (by rw [hafter, htm]; rfl)
  have hname : t.PassesPaired ("end".toList ++ block.name.toList ++
      ' ' :: TagForm.closer .statement) [block.node] u := by
    refine ⟨1 + n, _, hone.trans hu, ⟨?_, rfl, rfl⟩, ?_⟩
    · intro l hl
      simp only [List.mem_append, List.mem_cons, List.not_mem_nil, or_false] at hl
      rcases hl with rfl | rfl <;> rfl
    · rw [pairsUpTo_add, hpairs, hu.pairsUpTo_eq_nil (by simp)]
      rfl
  refine ⟨u, ?_, hrest, ?_, by rw [hum]; rfl⟩
  · have hall := (ht.paired (by simp [TokenKind.isOrdinary])).trans hname
    simpa [printStatement] using hall
  · rw [hum, hafter]
    exact ⟨hinside.body, hinside.dialect, rfl, rfl, hinside.nodes, hinside.notices,
      hinside.flushed⟩

end Scanner

-- ── tags of the standard dialect ─────────────────────────────────────────────────

/-- A loop over a collection. -/
def Dialect.loopBlock : TagRule :=
  { kind := .iteration, block := true, arguments := true,
    parameters := [⟨"limit", true⟩, ⟨"offset", true⟩, ⟨"reversed", false⟩] }

theorem hasTag_assign :
    Dialect.standard.HasTag "assign" (TagRule.ofKind .assignment).withArguments :=
  ⟨rfl, rfl, rfl, rfl⟩

theorem hasTag_else :
    Dialect.standard.HasTag "else" ((TagRule.ofKind .control).within elseParents) :=
  ⟨rfl, rfl, rfl, rfl⟩

/-- The rule of the tag in the standard dialect. -/
def BlockTag.rule : BlockTag → TagRule
  | .condition _ _ _ => Dialect.conditionalBlock
  | .loop _ _ => Dialect.loopBlock
  | .capture _ => (TagRule.ofKind .assignment).asBlock

/-- The standard dialect has each of the block tags. -/
theorem BlockTag.hasTag (tag : BlockTag) : Dialect.standard.HasTag tag.name tag.rule := by
  cases tag with
  | condition name known operand =>
      simp only [List.mem_cons, List.not_mem_nil, or_false] at known
      rcases known with rfl | rfl | rfl
      · show Dialect.standard.HasTag "if" _
        exact ⟨rfl, rfl, rfl, rfl⟩
      · show Dialect.standard.HasTag "unless" _
        exact ⟨rfl, rfl, rfl, rfl⟩
      · show Dialect.standard.HasTag "case" _
        exact ⟨rfl, rfl, rfl, rfl⟩
  | loop _ _ =>
      show Dialect.standard.HasTag "for" _
      exact ⟨rfl, rfl, rfl, rfl⟩
  | capture _ =>
      show Dialect.standard.HasTag "capture" _
      exact ⟨rfl, rfl, rfl, rfl⟩

namespace Scanner

variable {blocks : Blocks} {nodes : Nat} {s : Scanner Lookup} {k : List Char}

/-- A tag that opens a block is passed over, and its block is the one opened last. -/
theorem passes_blockTag (tag : BlockTag) (hm : s.machine.Holds .standard blocks nodes)
    (hp : s.machine.phase = .literal)
    (hr : s.reader.rest = printStatement (tag.name.toList ++ tag.operands) ++ k) :
    ∃ span, s.Leads (printStatement (tag.name.toList ++ tag.operands)) [] k .standard
      (blocks.push ⟨tag.name, nodes, span⟩) (nodes + 1) := by
  have hblock : tag.rule.block = true := by cases tag <;> rfl
  have hplace : tag.rule.MayStand blocks.parent? := by cases tag <;> rfl
  obtain ⟨t, words, span, ht, hwords, hrest, hinside, hphase⟩ := passes_statement rfl hm hp
    tag.hasTag hplace (by cases tag <;> exact fun k => ⟨_, rfl⟩) hr
    (fun t hu hphase hs k hrest => by
      cases tag with
      | condition name known operand => exact passes_condition operand hu hphase hs rfl hrest
      | loop item collection =>
          refine passes_loop item collection hu hphase hs ?_
          rw [hrest, BlockTag.operands]
          simp
      | capture target => exact passes_captured target hu hphase hs rfl hrest)
  rw [if_pos hblock] at hinside
  exact ⟨span, t, ht.paired hwords, hrest, hinside, hphase⟩

/-- A tag that opens no block is passed over. -/
theorem passes_plainTag {name : String} {rule : TagRule} {operands : List Char}
    (hm : s.machine.Holds .standard blocks nodes) (hp : s.machine.phase = .literal)
    (htag : Dialect.standard.HasTag name rule) (hplace : rule.MayStand blocks.parent?)
    (hblock : rule.block = false) (hspaced : ∀ k, ∃ k', operands ++ ' ' :: k = ' ' :: k')
    (hr : s.reader.rest = printStatement (name.toList ++ operands) ++ k)
    (hoperands : ∀ t : Scanner Lookup, t.machine.Unchecked → t.machine.phase = rule.identity.2 →
      t.machine.InStatement name rule → ∀ k, t.reader.rest = operands ++ ' ' :: k →
      t.PassesOperands operands (' ' :: k)) :
    s.Leads (printStatement (name.toList ++ operands)) [] k .standard blocks (nodes + 1) := by
  obtain ⟨t, words, span, ht, hwords, hrest, hinside, hphase⟩ := passes_statement rfl hm hp htag
    hplace hspaced hr hoperands
  rw [if_neg (by rw [hblock]; exact Bool.false_ne_true)] at hinside
  exact ⟨t, ht.paired hwords, hrest, hinside, hphase⟩

/-- **A block is passed over** when its body is, and leads back to the blocks around it: its end tag
    closes the tag that has opened it. -/
theorem passes_block (tag : BlockTag) {text : List Char} {pairs : List Nat} {tags : Nat}
    (hm : s.machine.Holds .standard blocks nodes) (hp : s.machine.phase = .literal)
    (hr : s.reader.rest = printStatement (tag.name.toList ++ tag.operands) ++
      (text ++ (printStatement ("end".toList ++ tag.name.toList) ++ k)))
    (hbody : ∀ (t : Scanner Lookup) (span : Span),
      t.machine.Holds .standard (blocks.push ⟨tag.name, nodes, span⟩) (nodes + 1) →
      t.machine.phase = .literal →
      t.reader.rest = text ++ (printStatement ("end".toList ++ tag.name.toList) ++ k) →
      t.Leads text pairs (printStatement ("end".toList ++ tag.name.toList) ++ k) .standard
        (blocks.push ⟨tag.name, nodes, span⟩) (nodes + 1 + tags)) :
    s.Leads (printStatement (tag.name.toList ++ tag.operands) ++
        (text ++ printStatement ("end".toList ++ tag.name.toList))) (pairs ++ [nodes]) k
      .standard blocks (nodes + 1 + tags + 1) := by
  obtain ⟨span, hopening⟩ := passes_blockTag tag hm hp hr
  refine hopening.then (p := []) fun t hm hp hrest => ?_
  refine (hbody t span hm hp hrest).then fun u hm hp hrest => ?_
  exact passes_endTag ⟨tag.name, nodes, span⟩ hm hp tag.hasTag.isName hrest

-- ── templates ────────────────────────────────────────────────────────────────────

/-- **A template is passed over** behind any text, and leaves the open blocks as it found them. -/
theorem passes_template {parent : Option String} (template : Template parent)
    (before : List Char) (hplain : '{' ∉ before) (hm : s.machine.Holds .standard blocks nodes)
    (hp : s.machine.phase = .literal) (hparent : blocks.parent? = parent)
    (hr : s.reader.rest = before ++ (template.print ++ k)) (hk : k = [] ∨ k.head? = some '{') :
    s.Leads (before ++ template.print) (template.pairs nodes) k .standard blocks
      (nodes + template.tags) := by
  induction template generalizing s blocks nodes before k with
  | nil =>
      rw [Template.print, List.append_nil]
      exact passes_literal hm rfl hp hplain hr hk
  | text chars plain next ih =>
      have hnext := ih (before ++ chars) (by simp [hplain, plain]) hm hp hparent
        (by simpa [Template.print] using hr) hk
      simpa [Template.print, Template.pairs, Template.tags] using hnext
  | output expression fits next ih =>
      have hr : s.reader.rest = before ++ (expression.print ++ (next.print ++ k)) := by
        rw [hr, Template.print, List.append_assoc]
      have hall := (passes_literal hm rfl hp hplain hr (Or.inr rfl)).then fun t hm hp hrest => by
        have htag : t.Leads expression.print [] (next.print ++ k) .standard blocks (nodes + 1) := by
          obtain ⟨u, hu, hrest, hm, hp⟩ := passes_expression expression rfl fits hm hp hrest
          exact ⟨u, hu.paired (isOrdinary_of_expression expression), hrest, hm, hp⟩
        exact htag.then fun u hm hp hrest => ih [] List.not_mem_nil hm hp hparent hrest hk
      simpa [Template.print, Template.pairs, Template.tags, Nat.add_assoc] using hall
  | assign target number next ih =>
      have hr : s.reader.rest = before ++ (printStatement ("assign".toList ++ ' ' :: (target.text ++
          ' ' :: '=' :: ' ' :: number.text)) ++ (next.print ++ k)) := by
        rw [hr, Template.print, List.append_assoc]
      have hall := (passes_literal hm rfl hp hplain hr (Or.inr rfl)).then fun t hm hp hrest =>
        (passes_plainTag hm hp hasTag_assign rfl rfl (fun k => ⟨_, rfl⟩) hrest
          fun u hu hp hs k hrest => passes_assigned target number hu hp hs
            (by simpa using hrest)).then
          fun u hm hp hrest => ih [] List.not_mem_nil hm hp hparent hrest hk
      simpa [Template.print, Template.pairs, Template.tags, Nat.add_assoc] using hall
  | otherwise allowed next ih =>
      have hplace : ((TagRule.ofKind .control).within elseParents).MayStand blocks.parent? := by
        obtain ⟨name, hname, hallowed⟩ := allowed
        rw [hparent, hname]
        simp [TagRule.MayStand, TagRule.allowsParent, TagRule.within, hallowed]
      have hr : s.reader.rest = before ++ (printStatement ("else".toList ++ []) ++
          (next.print ++ k)) := by
        rw [hr, Template.print, List.append_assoc, List.append_nil]
      have hall := (passes_literal hm rfl hp hplain hr (Or.inr rfl)).then fun t hm hp hrest =>
        (passes_plainTag hm hp hasTag_else hplace rfl (fun k => ⟨_, rfl⟩) hrest
          fun u hu hp hs k hrest => passes_bareControl hu hp hs rfl hrest).then
          fun u hm hp hrest => ih [] List.not_mem_nil hm hp hparent hrest hk
      simpa [Template.print, Template.pairs, Template.tags, Nat.add_assoc] using hall
  | block tag body next ihBody ihNext =>
      have hr : s.reader.rest = before ++ (printStatement (tag.name.toList ++ tag.operands) ++
          (body.print ++ (printStatement ("end".toList ++ tag.name.toList) ++
            (next.print ++ k)))) := by
        rw [hr, Template.print]
        simp only [List.append_assoc]
      have hall := (passes_literal hm rfl hp hplain hr (Or.inr rfl)).then fun t hm hp hrest =>
        (passes_block tag hm hp hrest fun u span hm hp hrest =>
          ihBody [] List.not_mem_nil hm hp (by rw [Blocks.parent?, Blocks.innermost?_push]; rfl)
            hrest (Or.inr rfl)).then
          fun u hm hp hrest => ihNext [] List.not_mem_nil hm hp hparent hrest hk
      simpa [Template.print, Template.pairs, Template.tags, Nat.add_assoc] using hall

end Scanner

/-- **Well-formed nested documents are clean and exactly paired.**  Scanning a template in the
    standard dialect finds no fault and reports nothing; each block has one end tag with one end
    delimiter, and each end tag is paired with the tag that opens its block in the tree. -/
theorem tokenize_template (template : Template none) :
    (tokenize (String.ofList template.print) Dialect.standard.lookup).faults = [] ∧
      (tokenize (String.ofList template.print) Dialect.standard.lookup).notices = [] ∧
      (tokenize (String.ofList template.print) Dialect.standard.lookup).kinds.count .endTag =
        template.blocks ∧
      (tokenize (String.ofList template.print) Dialect.standard.lookup).kinds.count
        .endDelimiter = template.blocks ∧
      (Scanner.ofString (String.ofList template.print) Dialect.standard.lookup).pairs =
        (template.pairs 0).map some := by
  have hrest : (Scanner.ofString (String.ofList template.print)
      Dialect.standard.lookup).reader.rest = [] ++ (template.print ++ []) := by
    rw [List.nil_append, List.append_nil]
    exact String.toList_ofList
  have hstart : (Scanner.ofString (String.ofList template.print)
      Dialect.standard.lookup).machine.Holds .standard ∅ 0 := ⟨rfl, rfl, rfl, rfl, rfl, rfl, rfl⟩
  obtain ⟨t, ⟨n, words, hpass, hmatched, hpairs⟩, hend, hholds, hphase⟩ :=
    Scanner.passes_template template [] nofun hstart rfl rfl hrest (Or.inl rfl)
  have hfinds := hpass.findsWords hend hphase
  have hfinished := hpass.finished hend hphase
  rw [Template.length_pairs] at hmatched
  refine ⟨hfinds.faults hmatched.faults, ?_, ?_, ?_, ?_⟩
  · rw [hpass.tokenize hend hphase]
    exact hholds.notices_flush _
  · rw [hfinds.count (by decide), hmatched.endTags]
  · rw [hfinds.count (by decide), hmatched.endDelimiters]
  · rw [Scanner.pairs_eq hfinished hpass.goesOn, hpairs]

end TemplateScan
