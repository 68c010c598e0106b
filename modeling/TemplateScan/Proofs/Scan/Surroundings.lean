import TemplateScan.Proofs.Scan.Outcome
import TemplateScan.Scan.Scanner

/-! # Surroundings — what the steps inside a tag do not look at

    Once the name of a tag has been taken, what stands open around the tag, the numbers given, and
    in most phases the rule of the tag play no part in its scan: they may be exchanged before a step
    or after it.  The step functions are gone through once more, one lemma for each.

    * **`Phase.readsRule`** — the phases that lead to a question about the rule of the tag.
    * **`Blind`** — two replies that differ in their surroundings only.
    * **`blind_step`** — a step inside a tag does not look at its surroundings. -/

namespace TemplateScan

open Text

-- ── phases ───────────────────────────────────────────────────────────────────────

/-- Behind the value comes something that may ask for the rule of the tag. -/
def Resume.readsRule : Resume → Bool
  | .condition | .parameters => true
  | .filters | .arguments => false

/-- The phase belongs to a part of the tag in which its rule may be asked for. -/
def Phase.readsRule : Phase → Bool
  | .loop _ | .assignment _ | .control _ | .embedded => true
  | .path _ resume => resume.readsRule
  | _ => false

/-- The phase behind a value asks for the rule exactly if the way to go on does. -/
theorem Resume.readsRule_phase (resume : Resume) : resume.phase.readsRule = resume.readsRule := by
  cases resume <;> rfl

-- ── surroundings ─────────────────────────────────────────────────────────────────

/-- What surrounds the scan of a tag. -/
structure Surroundings where
  /-- The tag looked up last, with its name. -/
  rule : Option (String × TagRule)
  /-- The number of the tag. -/
  node : Nat
  blocks : Blocks
  nodes : Nat
  pair : Option Nat

namespace Machine

/-- The surroundings of the tag that the machine scans. -/
def surroundings (m : Machine Lookup) : Surroundings where
  rule := m.grammar.tag
  node := m.tag.node
  blocks := m.blocks
  nodes := m.nodes
  pair := m.pair

/-- The machine in other surroundings. -/
def within (m : Machine Lookup) (σ : Surroundings) : Machine Lookup :=
  { m with
    grammar := { m.grammar with tag := σ.rule }
    tag := { m.tag with node := σ.node }
    blocks := σ.blocks
    nodes := σ.nodes
    pair := σ.pair }

variable {m : Machine Lookup} {σ : Surroundings}

@[simp] theorem within_surroundings (m : Machine Lookup) : m.within m.surroundings = m := rfl

@[simp] theorem surroundings_within (m : Machine Lookup) (σ : Surroundings) :
    (m.within σ).surroundings = σ := rfl

@[simp] theorem form_within (m : Machine Lookup) (σ : Surroundings) :
    (m.within σ).tag.form = m.tag.form := rfl

/-- Where the rule of the tag is the same, so is all that the grammar answers. -/
theorem grammar_within (h : σ.rule = m.grammar.tag) : (m.within σ).grammar = m.grammar := by
  show { m.grammar with tag := σ.rule } = m.grammar
  rw [h]

/-- What is known of an object does not depend on the tag it is named in. -/
theorem enterProperty_within (l : Lookup) (rule : Option (String × TagRule)) (name : String) :
    ({ l with tag := rule } : Lookup).enterProperty name =
      { l.enterProperty name with tag := rule } := by
  have hanswer : ({ l with tag := rule } : Lookup).answer name = l.answer name := rfl
  rw [Lookup.enterProperty, Lookup.enterProperty, hanswer]
  cases l.answer name <;> rfl

/-- Arguments are counted by the filter, whatever the tag. -/
theorem nextArgument_within (m : Machine Lookup) (σ : Surroundings) :
    (m.within σ).nextArgument = m.nextArgument.within σ := by
  have h : ({ m.grammar with tag := σ.rule } : Lookup).nextArgument =
      { m.grammar.nextArgument with tag := σ.rule } := by
    show (if m.grammar.isLastArgument then ({ m.grammar with tag := σ.rule } : Lookup) else _) = _
    rw [Lookup.nextArgument]
    split <;> rfl
  show { m.within σ with grammar := ({ m.grammar with tag := σ.rule } : Lookup).nextArgument } = _
  rw [h]
  rfl

-- ── replies ──────────────────────────────────────────────────────────────────────

/-- The second reply is the first in other surroundings.  Unless `reads` is set, what follows does
    not ask for the rule of the tag. -/
structure Blind (σ : Surroundings) (reads : Bool) (reply reply' : Reply Lookup) : Prop where
  event : reply'.event = reply.event
  extent : reply'.extent = reply.extent
  machine : reply'.machine = reply.machine.within σ
  reads : reply.machine.phase.readsRule = true → reads = true

variable {reads ending : Bool} {rest : List Char} {r : Reader} {kind : TokenKind} {n : Nat}
  {fault : Fault} {resume : Resume}

/-- A condition that does not look at the surroundings may choose between replies that do not. -/
theorem Blind.ite {c : Prop} [Decidable c] {a b a' b' : Reply Lookup} (ha : Blind σ reads a a')
    (hb : Blind σ reads b b') : Blind σ reads (if c then a else b) (if c then a' else b') := by
  split
  · exact ha
  · exact hb

/-- A token taken in other surroundings is the same token. -/
theorem Blind.emit {p : Phase} (hp : p.readsRule = true → reads = true) :
    Blind σ reads (m.emit kind n p) ((m.within σ).emit kind n p) :=
  ⟨rfl, rfl, rfl, hp⟩

/-- In most phases the rule of the tag is not asked for again. -/
theorem Blind.plain {p : Phase} (hp : p.readsRule = false) :
    Blind σ reads (m.emit kind n p) ((m.within σ).emit kind n p) :=
  .emit fun hr => absurd (hp.symm.trans hr) Bool.false_ne_true

/-- Going on behind a value asks for the rule only if that is what the value goes back to. -/
theorem blind_resume (hr : resume.readsRule = true → reads = true) :
    Blind σ reads (m.emit kind n resume.phase) ((m.within σ).emit kind n resume.phase) := by
  refine .emit ?_
  rwa [Resume.readsRule_phase]

-- ── the end of the tag ───────────────────────────────────────────────────────────

/-- Brackets, dash and close delimiter belong to the tag itself, not to what surrounds it. -/
theorem blind_close : Blind σ reads (m.close ending rest) ((m.within σ).close ending rest) := by
  refine .ite ?_ (.ite ?_ ?_)
  · exact .plain rfl
  · exact .plain rfl
  · rw [form_within]
    split
    · exact .plain rfl
    · refine .ite ?_ ?_
      · exact .plain rfl
      · split
        · exact .plain rfl
        · exact .plain rfl

theorem blind_recover :
    Blind σ reads (m.recover fault rest) ((m.within σ).recover fault rest) :=
  .plain rfl

/-- What is out of place is so by the text alone. -/
theorem blind_unexpected : Blind σ reads (m.unexpected rest) ((m.within σ).unexpected rest) := by
  simp only [unexpected, form_within]
  split
  · exact blind_close
  · exact blind_recover

theorem blind_skipRest : Blind σ reads (m.skipRest rest) ((m.within σ).skipRest rest) := by
  refine .ite ?_ ?_
  · exact blind_close
  · exact .plain rfl

-- ── values ───────────────────────────────────────────────────────────────────────

/-- The value that is expected is the same in any surroundings. -/
theorem blind_expectValue {bare : TokenKind} (hr : resume.readsRule = true → reads = true) :
    Blind σ reads (m.expectValue fault bare resume rest)
      ((m.within σ).expectValue fault bare resume rest) := by
  refine .ite (.plain rfl) ?_
  simp only [value?, form_within]
  split
  · exact blind_resume hr
  · exact .plain rfl
  · split
    · exact blind_resume hr
    · split
      · exact blind_resume hr
      · cases identifier? rest with
        | some name => exact .emit hr
        | none => exact blind_unexpected

-- ── filters ──────────────────────────────────────────────────────────────────────

theorem blind_pipe : Blind σ reads (m.stepPipe rest) ((m.within σ).stepPipe rest) := by
  refine .ite ?_ (.ite ?_ ?_)
  · exact .plain rfl
  · exact blind_close
  · exact blind_unexpected

/-- The filters that the dialect knows do not depend on the tag. -/
theorem blind_filterName :
    Blind σ reads (m.stepFilterName rest) ((m.within σ).stepFilterName rest) := by
  simp only [stepFilterName]
  split
  · exact .ite (.plain rfl) (.plain rfl)
  · exact .ite (.plain rfl) blind_recover

/-- The rule of the filter decides about the colon, not the rule of the tag. -/
theorem blind_colon : Blind σ reads (m.stepColon rest) ((m.within σ).stepColon rest) := by
  refine .ite (.ite ?_ ?_) (.ite ?_ ?_)
  · exact .plain rfl
  · exact blind_recover
  · exact .plain rfl
  · exact blind_pipe (m := m.forgetFilter)

/-- Whether a filter accepts an argument is a question about the filter. -/
theorem blind_acceptArgument {value : ValueType} :
    Blind σ reads (m.acceptArgument value kind n) ((m.within σ).acceptArgument value kind n) :=
  .plain rfl

theorem blind_acceptReference {name : List Char} :
    Blind σ reads (m.acceptReference name) ((m.within σ).acceptReference name) := by
  refine .ite ?_ ?_
  · exact .plain rfl
  · exact .plain rfl

/-- The values of arguments are checked against the filter alone. -/
theorem blind_argumentValue :
    Blind σ reads (m.stepArgumentValue rest) ((m.within σ).stepArgumentValue rest) := by
  refine .ite (.plain rfl) (.ite (.plain rfl) ?_)
  rw [form_within]
  split
  · exact blind_acceptArgument
  · exact .plain rfl
  · split
    · exact blind_acceptArgument
    · exact blind_acceptArgument
    · split
      · exact blind_acceptArgument
      · split
        · exact blind_acceptReference
        · exact blind_unexpected

theorem blind_argument : Blind σ reads (m.stepArgument rest) ((m.within σ).stepArgument rest) := by
  have hkind : Grammar.argumentKind? (m.within σ).grammar = Grammar.argumentKind? m.grammar := rfl
  rw [stepArgument, stepArgument, hkind]
  split
  · exact blind_skipRest
  · exact blind_argumentValue
  · exact blind_close

/-- What follows an argument is decided by the arguments that the filter still declares. -/
theorem blind_separator :
    Blind σ reads (m.stepSeparator rest) ((m.within σ).stepSeparator rest) := by
  rw [stepSeparator, stepSeparator, nextArgument_within, form_within]
  refine .ite (.ite ?_ (.ite ?_ ?_)) (.ite (.ite ?_ (.ite ?_ ?_)) ?_)
  · exact .plain rfl
  · exact blind_recover
  · exact .plain rfl
  · exact blind_pipe (m := m.forgetFilter)
  · exact .plain rfl
  · exact blind_pipe (m := m.nextArgument.forgetFilter)
  · split
    · exact blind_close
    · exact blind_recover

theorem blind_filter {phase : FilterPhase} :
    Blind σ reads (m.stepFilter phase rest) ((m.within σ).stepFilter phase rest) := by
  cases phase with
  | pipe => exact blind_pipe
  | name => exact blind_filterName
  | colon => exact blind_colon
  | argument => exact blind_argument
  | separator => exact blind_separator

-- ── conditions ───────────────────────────────────────────────────────────────────

/-- An operator leads to the next value of the condition, still in a part that asks for the rule. -/
theorem blind_operator : Blind σ true (m.stepOperator rest) ((m.within σ).stepOperator rest) := by
  refine .ite blind_close ?_
  split
  · exact .emit fun _ => rfl
  · exact .ite (.emit fun _ => rfl) blind_recover

/-- The first step of a condition asks whether the tag takes arguments, so its rule must be the
    same. -/
theorem blind_control {phase : ControlPhase} (hσ : σ.rule = m.grammar.tag) :
    Blind σ true (m.stepControl phase rest) ((m.within σ).stepControl phase rest) := by
  cases phase with
  | start =>
      rw [stepControl, stepControl, grammar_within hσ]
      exact .ite (blind_expectValue fun _ => rfl) blind_close
  | condition => exact blind_expectValue fun _ => rfl
  | operator => exact blind_operator

-- ── loops ────────────────────────────────────────────────────────────────────────

theorem blind_range : Blind σ true (m.stepRange rest) ((m.within σ).stepRange rest) := by
  rw [stepRange, stepRange, form_within]
  split
  · exact .ite (.emit fun _ => rfl) (.emit fun _ => rfl)
  · exact blind_recover

/-- The collection of a loop is a range or a path, in any surroundings. -/
theorem blind_collection :
    Blind σ true (m.stepCollection rest) ((m.within σ).stepCollection rest) := by
  refine .ite (.plain rfl) (.ite blind_range ?_)
  split
  · exact .emit fun _ => rfl
  · exact blind_recover

/-- The parameters of a loop are declared by the rule of its tag, which must be the same. -/
theorem blind_parameter (hσ : σ.rule = m.grammar.tag) :
    Blind σ true (m.stepParameter rest) ((m.within σ).stepParameter rest) := by
  refine .ite blind_close ?_
  rw [grammar_within hσ]
  split
  · split
    · exact .emit fun _ => rfl
    · exact .emit fun _ => rfl
    · exact .emit fun _ => rfl
  · exact blind_unexpected

/-- The value of a parameter is a number or a path, in any surroundings. -/
theorem blind_parameterValue :
    Blind σ true (m.stepParameterValue r) ((m.within σ).stepParameterValue r) := by
  refine .ite (.emit fun _ => rfl) (.ite (.plain rfl) (.ite blind_recover ?_))
  split
  · exact .emit fun _ => rfl
  · split
    · exact .emit fun _ => rfl
    · exact blind_recover

/-- The parameters of a loop are the only part of it that asks for the rule. -/
theorem blind_loop {phase : LoopPhase} (hσ : σ.rule = m.grammar.tag) :
    Blind σ true (m.stepLoop phase r) ((m.within σ).stepLoop phase r) := by
  cases phase with
  | variableName =>
      rw [stepLoop, stepLoop, stepLoopVariable, stepLoopVariable]
      split
      · exact .emit fun _ => rfl
      · exact .ite (.plain rfl) blind_recover
  | operator => exact .ite (.emit fun _ => rfl) (.ite (.plain rfl) blind_recover)
  | collection => exact blind_collection
  | parameter => exact blind_parameter hσ
  | parameterValue => exact blind_parameterValue

-- ── assignments ──────────────────────────────────────────────────────────────────

/-- Whether a value must follow is a question about the rule of the tag, which must be the same. -/
theorem blind_assignment {phase : AssignmentPhase} (hσ : σ.rule = m.grammar.tag) :
    Blind σ true (m.stepAssignment phase rest) ((m.within σ).stepAssignment phase rest) := by
  cases phase with
  | name =>
      rw [stepAssignment, stepAssignment, stepAssignedName, stepAssignedName]
      split
      · exact .emit fun _ => rfl
      · exact .ite (.plain rfl) blind_recover
  | operator =>
      have hmust : (m.within σ).mustAssign = m.mustAssign := by
        rw [mustAssign, mustAssign, grammar_within hσ]
      refine .ite (.emit fun _ => rfl) (.ite ?_ blind_recover)
      rw [hmust]
      exact .ite (.plain rfl) blind_close
  | value => exact blind_expectValue fun _ => rfl

-- ── paths ────────────────────────────────────────────────────────────────────────

/-- The bracket that is closed belongs to the tag. -/
theorem blind_keyEnd (hr : resume.readsRule = true → reads = true) :
    Blind σ reads (m.stepKeyEnd resume rest) ((m.within σ).stepKeyEnd resume rest) := by
  refine .ite ?_ (.ite blind_close blind_recover)
  have hbrackets : (m.within σ).brackets = m.brackets := rfl
  rw [hbrackets]
  split
  · exact blind_recover
  · next bracket _ =>
      cases bracket.dynamic with
      | true => exact .emit hr
      | false => exact .emit hr

/-- Behind a value the rule is asked for only where the value goes back to parameters. -/
theorem blind_stepResume (hr : resume.readsRule = true → reads = true)
    (hσ : resume.readsRule = true → σ.rule = m.grammar.tag) :
    Blind σ reads (m.stepResume resume rest) ((m.within σ).stepResume resume rest) := by
  cases resume with
  | filters => exact blind_pipe
  | condition =>
      obtain rfl := hr rfl
      exact blind_operator
  | parameters =>
      obtain rfl := hr rfl
      exact blind_parameter (hσ rfl)
  | arguments => exact blind_separator

/-- A path ends the checking of its object as it does in other surroundings. -/
theorem blind_member (hr : resume.readsRule = true → reads = true)
    (hσ : resume.readsRule = true → σ.rule = m.grammar.tag) :
    Blind σ reads (m.stepMember resume r) ((m.within σ).stepMember resume r) := by
  rw [stepMember, stepMember]
  split
  · exact .ite (.emit hr) (.ite blind_recover blind_recover)
  · exact .emit hr
  · refine .ite (blind_keyEnd hr) (.ite blind_recover ?_)
    exact blind_stepResume (m := m.releaseObject) hr hσ

/-- Properties are looked up in the object, not in the tag. -/
theorem blind_takeProperty {name : List Char} {p : Phase}
    (hp : p.readsRule = true → reads = true) :
    Blind σ reads (m.takeProperty name kind n p) ((m.within σ).takeProperty name kind n p) := by
  refine ⟨rfl, rfl, ?_, hp⟩
  show { m.within σ with
    phase := p
    grammar := ({ m.grammar with tag := σ.rule } : Lookup).enterProperty (String.ofList name) } = _
  rw [enterProperty_within]
  rfl

/-- The key in a bracket is taken in any surroundings. -/
theorem blind_key (hr : resume.readsRule = true → reads = true) :
    Blind σ reads (m.stepKey resume rest) ((m.within σ).stepKey resume rest) := by
  refine .ite (.emit hr) (.ite (.plain rfl) ?_)
  rw [form_within]
  split
  · exact .ite (.emit hr) (blind_takeProperty hr)
  · exact .plain rfl
  · dsimp only
    split
    · exact Blind.emit (m := m.releaseObject) hr
    · split
      · exact .emit hr
      · exact blind_unexpected (m := m.releaseObject)

/-- A path asks for nothing but its object, until it ends and the scan goes back. -/
theorem blind_path {phase : PathPhase} (hr : resume.readsRule = true → reads = true)
    (hσ : resume.readsRule = true → σ.rule = m.grammar.tag) :
    Blind σ reads (m.stepPath phase resume r) ((m.within σ).stepPath phase resume r) := by
  cases phase with
  | member => exact blind_member hr hσ
  | dot =>
      rw [stepPath, stepPath, stepDot, stepDot]
      split
      · exact blind_takeProperty hr
      · exact blind_recover
  | key => exact blind_key hr
  | keyEnd => exact blind_keyEnd hr

-- ── any step ─────────────────────────────────────────────────────────────────────

/-- In each phase behind the name of a tag the step is blind, provided the rule is the same where it
    is asked for. -/
theorem blind_stepPhase (hp : m.phase.isNamed = true)
    (hσ : m.phase.readsRule = true → σ.rule = m.grammar.tag) :
    Blind σ m.phase.readsRule (m.stepPhase r) ((m.within σ).stepPhase r) := by
  have hphase : (m.within σ).phase = m.phase := rfl
  rw [stepPhase, stepPhase, hphase]
  cases h : m.phase with
  | literal | markup _ | opened => rw [h] at hp; cases hp
  | outputValue => exact blind_expectValue id
  | unknownTag | skipRest => exact blind_skipRest
  | loop phase => exact blind_loop (hσ (by rw [h]; rfl))
  | assignment phase => exact blind_assignment (hσ (by rw [h]; rfl))
  | control phase => exact blind_control (hσ (by rw [h]; rfl))
  | embedded =>
      -- whether the rest is passed over is a question about the rule
      have hgrammar := grammar_within (hσ (by rw [h]; rfl))
      show Blind σ true (m.stepEmbedded r.rest) ((m.within σ).stepEmbedded r.rest)
      rw [stepEmbedded, stepEmbedded, hgrammar]
      exact .ite blind_skipRest blind_close
  | path phase resume =>
      rw [h] at hσ
      exact blind_path id hσ
  | filter phase => exact blind_filter
  | close ending => exact blind_close

/-- At the end of the document an open tag is reported as it is in other surroundings. -/
theorem blind_stepEnd {size : Nat} (hp : m.phase.inTag = true)
    (hr : m.phase.readsRule = true → reads = true) :
    Blind σ reads (m.stepEnd size) ((m.within σ).stepEnd size) := by
  have hphase : (m.within σ).phase = m.phase := rfl
  rw [stepEnd, stepEnd, hphase, if_pos hp, if_pos hp]
  refine .ite ?_ ?_
  · exact .emit hr
  · exact .plain rfl

/-- A step inside a tag is that of its phase, unless the text ends or white space comes next. -/
theorem blind_of_stepPhase (hp : m.phase.inTag = true)
    (hr : m.phase.readsRule = true → reads = true)
    (h : Blind σ reads (m.stepPhase r) ((m.within σ).stepPhase r)) :
    Blind σ reads (m.step r) ((m.within σ).step r) := by
  have hliteral : m.phase ≠ .literal := by
    intro hliteral
    rw [hliteral] at hp
    cases hp
  have hphase : (m.within σ).phase = m.phase := rfl
  rw [step, step, hphase, if_neg hliteral, if_neg hliteral]
  refine .ite (blind_stepEnd hp hr) (.ite ?_ (.ite ?_ h))
  · exact .emit hr
  · exact .emit hr

/-- **Surroundings.**  Once the name of the tag has been taken, a step inside the tag is the same in
    other surroundings, unless it asks for the rule of the tag and that is another one. -/
theorem blind_step (hp : m.phase.isNamed = true)
    (hσ : m.phase.readsRule = true → σ.rule = m.grammar.tag) :
    Blind σ m.phase.readsRule (m.step r) ((m.within σ).step r) :=
  blind_of_stepPhase (Phase.inTag_of_isNamed hp) id (blind_stepPhase hp hσ)

/-- A step inside a tag that is the same in other surroundings leaves them alone. -/
theorem Blind.surroundings_eq {f : Machine Lookup → Reply Lookup}
    (h : Blind m.surroundings reads (f m) (f (m.within m.surroundings))) :
    (f m).machine.surroundings = m.surroundings := by
  have hmachine := h.machine
  rw [within_surroundings] at hmachine
  rw [hmachine, surroundings_within]

end Machine

end TemplateScan
