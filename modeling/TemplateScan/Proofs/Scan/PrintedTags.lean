import TemplateScan.Proofs.Scan.BodyEnd
import TemplateScan.Proofs.Scan.PrintedExpressions
import TemplateScan.Proofs.Scan.Template

/-! # Printed tags — statement tags written down are scanned back

    A statement tag is passed over in three parts: its open delimiter and its name, the operands
    behind the name, and its close delimiter.  The first part opens a block when the rule of the tag
    says so; the other two leave the blocks alone.

    * **`passes_tagName`** — up to the name of a tag that the dialect has.
    * **`passes_condition`**, **`passes_loop`**, **`passes_assigned`**, **`passes_captured`** — what
      stands behind it.
    * **`passes_statement`** — the whole tag. -/

namespace TemplateScan

open Text

theorem TagRule.identity_ne_spacing (rule : TagRule) : rule.identity.1 ≠ .spacing := by
  unfold identity
  split
  · nofun
  · split <;> nofun

theorem TagRule.isOrdinary_identity (rule : TagRule) : rule.identity.1.isOrdinary = true := by
  unfold identity
  split
  · rfl
  · split <;> rfl

/-- The dialect has the tag, which is neither an end tag nor one with a body that is passed over. -/
structure Dialect.HasTag (dialect : Dialect) (name : String) (rule : TagRule) : Prop where
  isName : identifier? name.toList = some name.toList
  no_end : Machine.closedName? name.toList = none
  entry : dialect.tags.get? name = some rule
  no_body : rule.body? = none

/-- A tag of the rule may stand directly inside the given block. -/
def TagRule.MayStand (rule : TagRule) (parent : Option String) : Prop :=
  (rule.hasPlacement && !rule.allowsParent parent) = false

namespace Machine

variable {m m' : Machine Lookup} {r : Reader} {tail : List Char}

-- ── steps ────────────────────────────────────────────────────────────────────────

/-- The name of a tag that the dialect has is taken for it, where the tag may stand. -/
theorem step_tagName {name : String} {rule : TagRule} (hp : m.phase = .opened)
    (hf : m.tag.form = .statement) (htag : m.grammar.dialect.HasTag name rule)
    (hplace : rule.MayStand m.blocks.parent?) (hr : r.rest = name.toList ++ tail)
    (ht : continuesIdentifier tail = false) :
    ∃ span, m.step r = { m with
      grammar := { m.grammar with expect := .tag, tag := some (name, rule) }
      blocks := if rule.block then m.blocks.push ⟨name, m.tag.node, span⟩ else m.blocks
      }.emit rule.identity.1 name.toList.length rule.identity.2 := by
  have hread := identifier?_append htag.isName ht
  rw [← hr] at hread
  have hself : String.ofList name.toList = name := String.ofList_toList
  have hget : m.grammar.dialect.tags.get? (String.ofList name.toList) = some rule := by
    rw [hself, htag.entry]
  refine ⟨r.document.spanOf m.tag.start (m.tag.start + m.tag.form.opener.length), ?_⟩
  rw [step_named_eq hp hf hread htag.no_end hget, if_neg (Bool.eq_false_iff.mp hplace), named,
    htag.no_body, openedBlock, hself]
  rfl

/-- Behind a value that is no argument, the tag may end. -/
theorem AfterValue.awaitsClose {resume : Resume} (h : m.AfterValue resume) (hu : m.Unchecked)
    (hb : m.brackets.isEmpty = true) (hresume : resume ≠ .arguments) : m.AwaitsClose where
  phase_ne := h.phase_ne
  step := by
    refine ⟨m, ⟨rfl, rfl, hu.object⟩, fun r hcloses => ?_⟩
    obtain ⟨c, tail, hr, hblank, hc, -⟩ := exists_head_of_ends (Or.inr hcloses)
    have hclose := atClose_closer hcloses
    rw [h.step hu hb hr hblank hc]
    cases resume with
    | filters =>
        exact (if_neg (head_ne_of_closer hcloses)).trans (if_pos hclose)
    | condition => exact if_pos hclose
    | parameters => exact if_pos hclose
    | arguments => exact absurd rfl hresume

/-- The machine is inside a statement tag, in which no bracket is open. -/
structure InStatement (name : String) (rule : TagRule) (m : Machine Lookup) : Prop where
  form : m.tag.form = .statement
  settled : m.brackets.isEmpty = true
  tag : m.grammar.tag = some (name, rule)

theorem InStatement.rule? {name : String} {rule : TagRule} (h : m.InStatement name rule) :
    m.grammar.tagRule? = some rule := by
  rw [Lookup.tagRule?, h.tag]
  rfl

end Machine

namespace Scanner

variable {dialect : Dialect} {blocks : Blocks} {nodes : Nat} {s : Scanner Lookup} {k : List Char}
  {name : String} {rule : TagRule}

/-- **The name of a tag is passed over** with its open delimiter, and opens a block when its rule
    says so. -/
theorem passes_tagName (hm : s.machine.Holds dialect blocks nodes)
    (hp : s.machine.phase = .literal) (htag : dialect.HasTag name rule)
    (hplace : rule.MayStand blocks.parent?)
    (hr : s.reader.rest = TagForm.opener .statement ++ ' ' :: (name.toList ++ ' ' :: k)) :
    ∃ t span, s.Passes (TagForm.opener .statement ++ ' ' :: name.toList)
        [⟨.openDelimiter, TagForm.opener .statement⟩, ⟨rule.identity.1, name.toList⟩] t ∧
      t.reader.rest = ' ' :: k ∧
      t.machine.Holds dialect (if rule.block then blocks.push ⟨name, nodes, span⟩ else blocks)
        (nodes + 1) ∧
      t.machine.phase = rule.identity.2 ∧ t.machine.InStatement name rule := by
  obtain ⟨c, cs, hhead, -, hspacing, -⟩ :=
    (Ident.begins ⟨name.toList, htag.isName⟩ (k := ' ' :: k) rfl).head
  dsimp only at hhead
  rw [hhead] at hr
  obtain ⟨t, ht, htm, hrest, -⟩ := passes_opener hp hm.body hr hspacing
  rw [← hhead] at hrest
  have hopened := hm.openTag .statement s.reader.offset
  rw [← htm] at hopened
  have hknown : t.machine.grammar.dialect.HasTag name rule := by
    rw [hopened.dialect]
    exact htag
  obtain ⟨span, hstep⟩ := Machine.step_tagName (by rw [htm]; rfl) (by rw [htm]; rfl) hknown
    (by rw [hopened.blocks]; exact hplace) hrest rfl
  obtain ⟨u, hu, hum, hrest, -⟩ := passes_token _ hrest hstep rule.identity_ne_spacing
  refine ⟨u, span, ?_, hrest, ?_, by rw [hum], ?_⟩
  · simpa using ht.trans hu
  · have hnode : t.machine.tag.node = nodes := by
      rw [htm]
      exact hm.nodes
    rw [hum]
    refine ⟨hopened.body, hopened.dialect, hopened.object, ?_, hopened.nodes, hopened.notices,
      hopened.flushed⟩
    show (if rule.block then t.machine.blocks.push ⟨name, t.machine.tag.node, span⟩
      else t.machine.blocks) = _
    rw [hopened.blocks, hnode]
  · rw [hum, htm]
    exact ⟨rfl, rfl, rfl⟩

-- ── what stands behind the name ──────────────────────────────────────────────────

/-- A name and the space before it are passed over, as a token of the given kind. -/
theorem passes_spacedName (n : Ident) (kind : TokenKind) (phase : Phase) {tail : List Char}
    (hp : s.machine.phase ≠ .literal)
    (hr : s.reader.rest = ' ' :: (n.text ++ tail)) (ht : continuesIdentifier tail = false)
    (hstep : ∀ r : Reader, r.rest = n.text ++ tail →
      s.machine.step r = s.machine.emit kind n.text.length phase)
    (hk : kind ≠ .spacing) :
    ∃ t, s.Passes (' ' :: n.text) [⟨kind, n.text⟩] t ∧ t.machine = { s.machine with phase } ∧
      t.reader.rest = tail := by
  obtain ⟨c, cs, hhead, -, hspacing, -⟩ := (n.begins ht).head
  rw [hhead] at hr
  obtain ⟨t, ht, htm, hrest, -⟩ := passes_space hp hr hspacing
  rw [← hhead] at hrest
  have hstep := hstep _ hrest
  rw [← htm] at hstep ⊢
  obtain ⟨u, hu, hum, hrest', -⟩ := passes_token _ hrest hstep hk
  exact ⟨u, ht.trans hu, hum, hrest'⟩

/-- What stands behind the name of a tag is passed over, and the tag may end there. -/
def PassesOperands (s : Scanner Lookup) (text k : List Char) : Prop :=
  ∃ t words, s.Passes text words t ∧ (∀ l ∈ words, l.kind.isOrdinary = true) ∧
    t.reader.rest = k ∧ s.machine.SameTag t.machine ∧ t.machine.AwaitsClose

theorem PassesOperands.behind {t : Scanner Lookup} {a b : List Char} {words : List Lexeme}
    (h : t.PassesOperands b k) (ht : s.Passes a words t)
    (hwords : ∀ l ∈ words, l.kind.isOrdinary = true) (hm : s.machine.SameTag t.machine) :
    s.PassesOperands (a ++ b) k := by
  obtain ⟨u, more, hu, hmore, hrest, hsame, hawaits⟩ := h
  refine ⟨u, words ++ more, ht.trans hu, ?_, hrest, hm.trans hsame, hawaits⟩
  intro l hl
  rcases List.mem_append.mp hl with hl | hl
  · exact hwords l hl
  · exact hmore l hl

/-- A value that ends a tag, and the space before it. -/
theorem PassesOperands.of_value {text : List Char} (kind : TokenKind) (resume : Resume)
    (hu : s.machine.Unchecked) (hb : s.machine.brackets.isEmpty = true)
    (hp : s.machine.phase ≠ .literal) (hr : s.reader.rest = ' ' :: (text ++ k))
    (hbegins : BeginsValue (text ++ k))
    (hvalue : ∀ t : Scanner Lookup, t.machine = s.machine → t.reader.rest = text ++ k →
      t.PassesValue text [⟨kind, text⟩] resume k)
    (hkind : kind.isOrdinary = true) (hresume : resume ≠ .arguments) :
    s.PassesOperands (' ' :: text) k := by
  obtain ⟨c, cs, hhead, -, hspacing, -⟩ := hbegins.head
  rw [hhead] at hr
  obtain ⟨t, ht, htm, hrest, -⟩ := passes_space hp hr hspacing
  obtain ⟨u, hpass, hrest, hafter, expect, phase, hum⟩ := hvalue t htm (hrest.trans hhead.symm)
  rw [htm] at hum
  refine ⟨u, _, ht.trans hpass, by simpa using hkind, hrest, ?_, ?_⟩
  · rw [hum]
    exact ⟨rfl, rfl, hu.object⟩
  · exact hafter.awaitsClose (by rw [hum]; exact ⟨hu.none_known, hu.object⟩)
      (by rw [hum]; exact hb) hresume

/-- **A condition is passed over** that is a name; it may be the word for a truth value. -/
theorem passes_condition (operand : Ident) (hu : s.machine.Unchecked)
    (hp : s.machine.phase = .control .start) (hs : s.machine.InStatement name rule)
    (harguments : rule.arguments = true)
    (hr : s.reader.rest = ' ' :: (operand.text ++ ' ' :: k)) :
    s.PassesOperands (' ' :: operand.text) (' ' :: k) := by
  have hne : s.machine.phase ≠ .literal := by rw [hp]; rintro ⟨⟩
  have hvalue : ∀ r : Reader, r.rest = operand.text ++ ' ' :: k → s.machine.step r =
      (s.machine.value? .variableName .condition r.rest).getD (s.machine.unexpected r.rest) := by
    intro r hr
    have hhas : Grammar.hasArguments s.machine.grammar = true := by
      show s.machine.grammar.tagRule?.any (·.arguments) = true
      rw [hs.rule?, Option.any_some, harguments]
    have hexpects : s.machine.stepPhase r =
        s.machine.expectValue .missingCondition .variableName .condition r.rest := by
      rw [Machine.stepPhase, hp]
      exact if_pos hhas
    exact Machine.step_expectValue hne hexpects (hr ▸ operand.begins rfl)
  by_cases hbool : operand.text ∈ Machine.booleans
  · obtain ⟨b, hb⟩ : ∃ b, operand.text = boolText b := by
      simp only [Machine.booleans, List.mem_cons, List.not_mem_nil, or_false] at hbool
      rcases hbool with h | h
      · exact ⟨true, h⟩
      · exact ⟨false, h⟩
    refine .of_value .boolean .condition hu hs.settled hne hr
      (operand.begins rfl) (fun t htm hrest => .of_token hrest ?_ (by rintro ⟨⟩)) rfl
      (by rintro ⟨⟩)
    rw [htm, hvalue _ hrest, hrest, hb, Machine.value?_boolean b rfl]
    rfl
  · refine .of_value .variableName .condition hu hs.settled hne hr
      (operand.begins rfl) (fun t htm hrest => .of_name (htm ▸ hu) hrest ?_ (by rintro ⟨⟩)) rfl
      (by rintro ⟨⟩)
    have hread := identifier?_append operand.isName (k := ' ' :: k) rfl
    rw [htm, hvalue _ hrest, hrest, Machine.value?_name hread hbool, hu.referenceKind]
    rfl

/-- **The head of a loop is passed over**: its variable, the word `in`, and its collection. -/
theorem passes_loop (item collection : Ident) (hu : s.machine.Unchecked)
    (hp : s.machine.phase = .loop .variableName) (hs : s.machine.InStatement name rule)
    (hr : s.reader.rest = ' ' :: (item.text ++
      ' ' :: ("in".toList ++ ' ' :: (collection.text ++ ' ' :: k)))) :
    s.PassesOperands (' ' :: (item.text ++ ' ' :: ("in".toList ++ ' ' :: collection.text)))
      (' ' :: k) := by
  -- the variable
  obtain ⟨t, ht, htm, hrest⟩ := passes_spacedName item .loopVariable (.loop .operator)
    (by rw [hp]; rintro ⟨⟩) hr rfl (fun r hr => by
      rw [Machine.step_of_name (by rw [hp]; rintro ⟨⟩) hr rfl, Machine.stepPhase, hp]
      show s.machine.stepLoopVariable r.rest = _
      rw [Machine.stepLoopVariable, hr, identifier?_append item.isName rfl]) (by rintro ⟨⟩)
  have htp : t.machine.phase = .loop .operator := by rw [htm]
  have hts := Machine.SameTag.of_phase htm hu
  -- the word between them
  obtain ⟨u, hpass, hum, hrest⟩ := passes_spacedName ⟨"in".toList, rfl⟩ .loopOperator
    (.loop .collection) (by rw [htp]; rintro ⟨⟩) hrest rfl (fun r hr => by
      rw [Machine.step_of_name (by rw [htp]; rintro ⟨⟩) hr rfl, Machine.stepPhase, htp]
      show t.machine.stepLoopOperator r.rest = _
      have hin : startsWithWord ['i', 'n'] r.rest = true := by rw [hr]; rfl
      rw [Machine.stepLoopOperator, if_pos hin]
      rfl) (by rintro ⟨⟩)
  have hup : u.machine.phase = .loop .collection := by rw [hum]
  have hus := Machine.SameTag.of_phase hum (hts.unchecked hu)
  have huu := hus.unchecked (hts.unchecked hu)
  -- the collection
  have hcollection : u.PassesOperands (' ' :: collection.text) (' ' :: k) := by
    refine .of_value .collection .parameters huu
      (by rw [hum, htm]; exact hs.settled) (by rw [hup]; rintro ⟨⟩) hrest (collection.begins rfl)
      (fun v hvm hrest => .of_name (hvm ▸ huu) hrest ?_ (by rintro ⟨⟩)) rfl (by rintro ⟨⟩)
    have hbegins : BeginsValue v.reader.rest := by
      rw [hrest]
      exact collection.begins rfl
    have hread := identifier?_append collection.isName (k := ' ' :: k) rfl
    have hparen : v.reader.rest.head? ≠ some '(' := by
      obtain ⟨c, cs, heq, hstart, -⟩ := startsValue_of_identifier hread
      rw [hrest, heq]
      rintro ⟨⟩
      cases hstart
    rw [hvm, Machine.step_of_name (by rw [hup]; rintro ⟨⟩) hrest rfl, Machine.stepPhase, hup]
    show u.machine.stepCollection v.reader.rest = _
    rw [Machine.stepCollection, hbegins.not_close, if_neg Bool.false_ne_true, if_neg hparen, hrest,
      hread]
  have hall := (hcollection.behind hpass (by simp [TokenKind.isOrdinary]) hus).behind ht
    (by simp [TokenKind.isOrdinary]) hts
  simpa using hall

/-- A name to which something is assigned is passed over. -/
theorem passes_target (target : Ident) (hu : s.machine.Unchecked)
    (hp : s.machine.phase = .assignment .name)
    (hr : s.reader.rest = ' ' :: (target.text ++ ' ' :: k)) :
    ∃ t, s.Passes (' ' :: target.text) [⟨.assignedName, target.text⟩] t ∧
      t.machine = { s.machine with phase := .assignment .operator } ∧ t.reader.rest = ' ' :: k ∧
      s.machine.SameTag t.machine := by
  obtain ⟨t, ht, htm, hrest⟩ := passes_spacedName target .assignedName
    (.assignment .operator) (by rw [hp]; nofun) hr rfl (fun r hr => by
      rw [Machine.step_of_name (by rw [hp]; nofun) hr rfl, Machine.stepPhase, hp]
      show s.machine.stepAssignedName r.rest = _
      rw [Machine.stepAssignedName, hr, identifier?_append target.isName rfl]) nofun
  exact ⟨t, ht, htm, hrest, .of_phase htm hu⟩

/-- **An assignment of a number is passed over**: the name, the equals sign and the number. -/
theorem passes_assigned (target : Ident) (number : Numeral) (hu : s.machine.Unchecked)
    (hp : s.machine.phase = .assignment .name) (hs : s.machine.InStatement name rule)
    (hr : s.reader.rest = ' ' :: (target.text ++ ' ' :: '=' :: ' ' :: (number.text ++ ' ' :: k))) :
    s.PassesOperands (' ' :: (target.text ++ ' ' :: '=' :: ' ' :: number.text)) (' ' :: k) := by
  obtain ⟨t, ht, htm, hrest, hts⟩ := passes_target target hu hp hr
  have htp : t.machine.phase = .assignment .operator := by rw [htm]
  -- the equals sign
  obtain ⟨u, hpass, hum, hrest, -⟩ := passes_space (by rw [htp]; rintro ⟨⟩) hrest rfl
  have hstep : u.machine.step u.reader =
      t.machine.emit .assignmentOperator 1 (.assignment .value) := by
    rw [hum, Machine.step_eq_stepPhase (c := '=') (by rw [htp]; rintro ⟨⟩) (by rw [hrest]; rfl) rfl,
      Machine.stepPhase, htp]
    show t.machine.stepAssignmentOperator u.reader.rest = _
    rw [Machine.stepAssignmentOperator, if_pos (by rw [hrest]; rfl)]
  obtain ⟨v, hv, hvm, hrest, -⟩ := passes_token ['='] hrest hstep (by rintro ⟨⟩)
  have hvp : v.machine.phase = .assignment .value := by rw [hvm]
  have hvs := Machine.SameTag.of_phase hvm (hts.unchecked hu)
  -- the number
  have hnumber : v.PassesOperands (' ' :: number.text) (' ' :: k) := by
    have hbegins : BeginsValue (number.text ++ ' ' :: k) := .of_number number.isNumber
    refine .of_value .number .filters (hvs.unchecked (hts.unchecked hu))
      (by rw [hvm, htm]; exact hs.settled) (by rw [hvp]; rintro ⟨⟩) hrest hbegins
      (fun w hwm hrest => .of_token hrest ?_ (by rintro ⟨⟩)) rfl (by rintro ⟨⟩)
    have hexpects : v.machine.stepPhase w.reader =
        v.machine.expectValue .missingAssignment .variableName .filters w.reader.rest := by
      rw [Machine.stepPhase, hvp]
      rfl
    rw [hwm, Machine.step_expectValue (by rw [hvp]; rintro ⟨⟩) hexpects (hrest ▸ hbegins), hrest,
      Machine.value?_number number rfl]
    rfl
  have hall := (hnumber.behind (hpass.trans hv) (by simp [TokenKind.isOrdinary]) hvs).behind ht
    (by simp [TokenKind.isOrdinary]) hts
  simpa using hall

/-- **The name of what is captured is passed over**; no value is given to it in the tag. -/
theorem passes_captured (target : Ident) (hu : s.machine.Unchecked)
    (hp : s.machine.phase = .assignment .name) (hs : s.machine.InStatement name rule)
    (hblock : rule.block = true) (hr : s.reader.rest = ' ' :: (target.text ++ ' ' :: k)) :
    s.PassesOperands (' ' :: target.text) (' ' :: k) := by
  obtain ⟨t, ht, htm, hrest, hts⟩ := passes_target target hu hp hr
  have htp : t.machine.phase = .assignment .operator := by rw [htm]
  have hmust : t.machine.mustAssign = false := by
    have hopens : Grammar.isBlock t.machine.grammar = true := by
      rw [htm]
      show s.machine.grammar.tagRule?.any (·.block) = true
      rw [hs.rule?, Option.any_some, hblock]
    rw [Machine.mustAssign, hopens, Bool.not_true, Bool.and_false]
  refine ⟨t, _, ht, by simp [TokenKind.isOrdinary], hrest, hts, by rw [htp]; rintro ⟨⟩, t.machine,
    .of_phase rfl (hts.unchecked hu), fun r hcloses => ?_⟩
  obtain ⟨c, tail, hr, hblank, -⟩ := Machine.exists_head_of_ends (Or.inr hcloses)
  have hequals : r.rest.head? ≠ some '=' := by
    obtain ⟨tail, htail⟩ := hcloses
    rw [← htail]
    cases t.machine.tag.form <;> rintro ⟨⟩
  rw [Machine.step_eq_stepPhase (c := c) (by rw [htp]; rintro ⟨⟩) (by rw [hr]; rfl) hblank,
    Machine.stepPhase, htp]
  show t.machine.stepAssignmentOperator r.rest = _
  rw [Machine.stepAssignmentOperator, if_neg hequals, if_pos (Machine.atClose_closer hcloses), hmust]
  rfl

/-- A control tag without arguments may end behind its name. -/
theorem passes_bareControl (hu : s.machine.Unchecked) (hp : s.machine.phase = .control .start)
    (hs : s.machine.InStatement name rule) (harguments : rule.arguments = false)
    (hr : s.reader.rest = k) : s.PassesOperands [] k := by
  refine ⟨s, [], .refl s, List.forall_mem_nil _, hr, .of_phase rfl hu, by rw [hp]; rintro ⟨⟩,
    s.machine, .of_phase rfl hu, fun r hcloses => ?_⟩
  obtain ⟨c, tail, hr, hblank, -⟩ := Machine.exists_head_of_ends (Or.inr hcloses)
  have hhas : Grammar.hasArguments s.machine.grammar = false := by
    show s.machine.grammar.tagRule?.any (·.arguments) = false
    rw [hs.rule?, Option.any_some, harguments]
  rw [Machine.step_eq_stepPhase (c := c) (by rw [hp]; rintro ⟨⟩) (by rw [hr]; rfl) hblank,
    Machine.stepPhase, hp]
  exact if_neg (by rw [hhas]; rintro ⟨⟩)

-- ── whole tags ───────────────────────────────────────────────────────────────────

/-- **A statement tag is passed over** that the dialect has and that may stand where it stands, when
    its operands are. -/
theorem passes_statement {operands : List Char} (hobjects : dialect.objects = ∅)
    (hm : s.machine.Holds dialect blocks nodes) (hp : s.machine.phase = .literal)
    (htag : dialect.HasTag name rule) (hplace : rule.MayStand blocks.parent?)
    (hspaced : ∀ k, ∃ k', operands ++ ' ' :: k = ' ' :: k')
    (hr : s.reader.rest = printStatement (name.toList ++ operands) ++ k)
    (hoperands : ∀ t : Scanner Lookup, t.machine.Unchecked → t.machine.phase = rule.identity.2 →
      t.machine.InStatement name rule → ∀ k, t.reader.rest = operands ++ ' ' :: k →
      t.PassesOperands operands (' ' :: k)) :
    ∃ t words span, s.Passes (printStatement (name.toList ++ operands)) words t ∧
      (∀ l ∈ words, l.kind.isOrdinary = true) ∧ t.reader.rest = k ∧
      t.machine.Holds dialect (if rule.block then blocks.push ⟨name, nodes, span⟩ else blocks)
        (nodes + 1) ∧ t.machine.phase = .literal := by
  obtain ⟨k', hk⟩ := hspaced (TagForm.closer .statement ++ k)
  have hr : s.reader.rest = TagForm.opener .statement ++ ' ' :: (name.toList ++ ' ' :: k') := by
    rw [hr, ← hk]
    simp [printStatement]
  obtain ⟨t, span, ht, hrest, hinside, hphase, hstatement⟩ := passes_tagName hm hp htag hplace hr
  obtain ⟨u, words, hu, hwords, hrest, hsame, hawaits⟩ := hoperands t
    (hinside.unchecked hobjects) hphase hstatement _ (hrest.trans hk.symm)
  obtain ⟨v, hv, hrest, hfinal⟩ := passes_tagEnd (hinside.sameTag hsame) hawaits
    (by rw [hsame.same]; exact hstatement.form) (by rw [hsame.same]; exact hstatement.settled) hrest
  have hprint : printStatement (name.toList ++ operands) = TagForm.opener .statement ++
      ' ' :: name.toList ++ (operands ++ ' ' :: TagForm.closer .statement) := by
    simp [printStatement]
  rw [hprint]
  refine ⟨v, _, span, ht.trans (hu.trans hv), fun l hl => ?_, hrest, hfinal⟩
  simp only [List.mem_append, List.mem_cons, List.not_mem_nil, or_false] at hl
  rcases hl with (rfl | rfl) | hl | rfl
  · rfl
  · exact rule.isOrdinary_identity
  · exact hwords l hl
  · rfl

end Scanner

end TemplateScan
