import TemplateScan.Dialect.Standard
import TemplateScan.Proofs.Scan.PrintedPaths
import TemplateScan.Proofs.Scan.Run

/-! # Readiness — between two scans the machine has all that its phase relies on

    A phase relies on things that an earlier step has left behind: on the open bracket that its key
    stands in, on the current filter and the argument reached in it, on the way in which the value
    goes on behind its path.  The step functions are gone through once for them.

    * **`Phase.Filtered`**, **`Phase.Bracketed`** — what a phase relies on.
    * **`Phase.next`** — the phases that may come next.
    * **`Reply.Settles`** — what an answer leaves behind; one lemma for each step function, put
      together in **`settles_step`**.
    * **`Machine.Ready`** — the invariant, with the body that is still to be passed over.
    * **`session_ready`** — it holds throughout every session, and so no step has to do without. -/

namespace TemplateScan

open Text

-- ── what a phase relies on ───────────────────────────────────────────────────────

/-- The filter that the phase relies on is there, and where values are given, the argument, too. -/
def Phase.Filtered (p : Phase) (l : Lookup) : Prop :=
  match p with
  | .filter .colon => l.filter.isSome = true ∧ l.argumentIndex = 0
  | .filter .argument | .filter .separator | .path _ .arguments => l.argument?.isSome = true
  | _ => True

/-- The bracket that the phase stands in is open. -/
def Phase.Bracketed (p : Phase) (b : Brackets) : Prop :=
  match p with
  | .path .key _ | .path .keyEnd _ => b.isEmpty = false
  | _ => True

/-- The phase relies on nothing. -/
def Phase.isPlain : Phase → Bool
  | .filter .colon | .filter .argument | .filter .separator | .path _ _ => false
  | _ => true

/-- Where the phase of a value leads to, once nothing belongs to the value any more. -/
def Resume.onward : Resume → List Phase
  | .filters => [.close false, .filter .name]
  | .condition => [.close false, .control .condition]
  | .parameters => [.close false, .loop .parameter, .loop .parameterValue]
  | .arguments => [.close false, .filter .argument, .filter .pipe, .filter .name]

/-- The phases to which a scan may lead, beside the one in which white space and marks leave the
    machine, and literal text.  A fault, the name of a tag or of an element, and arguments written
    by name are dealt with in the scan that meets them: it goes on to what comes behind them. -/
def Phase.onward : Phase → List Phase
  | .literal => [.opened, .markup .attributeName, .markup .closeName]
  | .markup .attributeName => [.opened, .markup .attributeOperator]
  | .markup .attributeOperator => [.opened, .markup .attributeValue]
  | .markup .attributeValue =>
      [.opened, .markup .attributeName, .markup .attributeOperator]
  | .opened => [.close false, .close true, .outputValue, .unknownTag, .skipRest, .embedded,
      .control .start, .loop .variableName, .assignment .name]
  | .outputValue | .assignment .value => [.close false, .path .member .filters, .filter .pipe]
  | .control .start | .control .condition =>
      [.close false, .path .member .condition, .control .operator]
  | .loop .variableName => [.close false, .loop .operator]
  | .loop .operator => [.close false, .loop .collection]
  | .loop .collection | .loop .parameterValue =>
      [.close false, .path .member .parameters, .loop .parameter]
  | .assignment .name => [.close false, .assignment .operator]
  | .assignment .operator => [.close false, .assignment .value]
  | .filter .name => [.close false, .filter .colon, .skipRest]
  | .filter .colon => [.close false, .filter .argument, .filter .pipe, .filter .name]
  | .filter .argument =>
      [.close false, .path .member .arguments, .filter .separator, .filter .pipe]
  | .path .member resume => .path .dot resume :: .path .key resume :: resume.onward
  | .path .dot resume | .path .keyEnd resume => [.close false, .path .member resume]
  | .path .key resume => [.close false, .path .keyEnd resume, .path .member resume]
  | .filter .pipe => Resume.filters.onward
  | .control .operator => Resume.condition.onward
  | .loop .parameter => Resume.parameters.onward
  | .filter .separator => Resume.arguments.onward
  | .unknownTag | .skipRest | .embedded => [.close false]
  | .markup .closeName | .close _ => []

/-- The phases that may come next. -/
def Phase.next (p : Phase) : List Phase :=
  p :: .literal :: p.onward

/-- How things go on behind a path that begins in the phase, or in which the phase stands. -/
def Phase.begins? : Phase → Option Resume
  | .outputValue | .assignment _ => some .filters
  | .control _ => some .condition
  | .loop _ => some .parameters
  | .filter _ => some .arguments
  | .path _ resume => some resume
  | _ => none

/-- Behind a path that has ended no path comes next. -/
theorem Resume.path_not_mem_onward (behind : Resume) (phase : PathPhase) (resume : Resume) :
    Phase.path phase resume ∉ behind.onward := by
  cases behind <;> simp [onward]

/-- Where a path may come next, things go on behind it as they do behind a path that begins here. -/
theorem Phase.begins?_of_mem_next {p : Phase} {phase : PathPhase} {resume : Resume}
    (h : .path phase resume ∈ p.next) : p.begins? = some resume := by
  cases p with
  | path phase' resume' =>
      have hother := resume'.path_not_mem_onward phase resume
      have hsame : resume' = resume := by
        cases phase' <;> simp only [next, onward, List.mem_cons, hother, Phase.path.injEq,
          reduceCtorEq, List.not_mem_nil, or_false, false_or] at h <;> grind
      exact congrArg some hsame
  | markup phase' | loop phase' | assignment phase' | control phase' | filter phase' =>
      cases phase' <;> simp_all [next, onward, Resume.onward, begins?]
  | _ => simp_all [next, onward, begins?]

/-- An argument is the current one when there is a filter, and its place is in range. -/
theorem Lookup.isSome_argument? {l : Lookup} :
    l.argument?.isSome = true ↔
      ∃ rule, l.filter = some rule ∧ l.argumentIndex < rule.arguments.length := by
  rw [Lookup.argument?]
  cases l.filter with
  | none => simp
  | some rule => simp

/-- A path has what it relies on when the argument that it may be is the current one. -/
theorem Phase.filtered_path {phase : PathPhase} {resume : Resume} {l : Lookup}
    (h : resume = .arguments → l.argument?.isSome = true) :
    (Phase.path phase resume).Filtered l := by
  cases resume with
  | arguments => exact h rfl
  | filters | condition | parameters => trivial

/-- And an argument that is a path is the current one. -/
theorem Phase.argument_of_path {phase : PathPhase} {resume : Resume} {l : Lookup}
    (h : (Phase.path phase resume).Filtered l) (hr : resume = .arguments) :
    l.argument?.isSome = true := by
  subst hr
  exact h

/-- Behind a path the same argument is relied on. -/
theorem Phase.filtered_resume {resume : Resume} {l : Lookup}
    (h : resume = .arguments → l.argument?.isSome = true) : resume.phase.Filtered l := by
  cases resume with
  | arguments => exact h rfl
  | filters | condition | parameters => trivial

/-- Behind a path no bracket is relied on. -/
theorem Phase.bracketed_resume (resume : Resume) (b : Brackets) : resume.phase.Bracketed b := by
  cases resume <;> trivial

-- ── what an answer leaves behind ─────────────────────────────────────────────────

/-- The phase after the answer is one of those given, and has what it relies on. -/
structure Reply.Settles (reply : Reply Lookup) (next : List Phase) : Prop where
  filtered : reply.machine.phase.Filtered reply.machine.grammar
  bracketed : reply.machine.phase.Bracketed reply.machine.brackets
  next : reply.machine.phase ∈ next

/-- Both branches of a choice settle in the same phases. -/
theorem Reply.Settles.ite {c : Prop} [Decidable c] {a b : Reply Lookup} {next : List Phase}
    (ha : a.Settles next) (hb : b.Settles next) : (if c then a else b).Settles next := by
  split
  · exact ha
  · exact hb

/-- More phases may be given. -/
theorem Reply.Settles.mono {reply : Reply Lookup} {next next' : List Phase}
    (h : reply.Settles next) (hsub : next ⊆ next') : reply.Settles next' :=
  ⟨h.filtered, h.bracketed, hsub h.next⟩

/-- A plain phase has what it relies on. -/
theorem Reply.settles_of_plain {reply : Reply Lookup} {next : List Phase}
    (h : reply.machine.phase.isPlain = true) (hn : reply.machine.phase ∈ next) :
    reply.Settles next := by
  have hf : ∀ {p : Phase} (l : Lookup), p.isPlain = true → p.Filtered l := by
    intro p l hp
    cases p with
    | filter phase => cases phase <;> trivial
    | path phase resume => exact nomatch hp
    | _ => trivial
  have hb : ∀ {p : Phase} (b : Brackets), p.isPlain = true → p.Bracketed b := by
    intro p b hp
    cases p with
    | path phase resume => exact nomatch hp
    | _ => trivial
  exact ⟨hf _ h, hb _ h, hn⟩

/-- Among filters the bracket does not matter. -/
theorem Reply.settles_of_filter {reply : Reply Lookup} {next : List Phase} {phase : FilterPhase}
    (hp : reply.machine.phase = .filter phase)
    (h : (Phase.filter phase).Filtered reply.machine.grammar) (hn : .filter phase ∈ next) :
    reply.Settles next where
  filtered := by rwa [hp]
  bracketed := by rw [hp]; trivial
  next := by rwa [hp]

namespace Machine

variable {m : Machine Lookup} {r : Reader} {rest : List Char} {ending : Bool} {next : List Phase}
  {kind bare : TokenKind} {fault : Fault} {resume : Resume} {n : Nat} {p : Phase}

-- ── plain answers ────────────────────────────────────────────────────────────────

/-- A token that leads to a plain phase. -/
theorem settles_emit (h : p.isPlain = true) (hn : p ∈ next) : (m.emit kind n p).Settles next :=
  Reply.settles_of_plain h hn

/-- A fault that leads to a plain phase. -/
theorem settles_report (h : p.isPlain = true) (hn : p ∈ next) :
    (m.report fault n p).Settles next :=
  Reply.settles_of_plain h hn

/-- At its end a tag goes on to its close delimiter, or is left. -/
theorem settles_close : (m.close ending rest).Settles [.close ending, .literal] := by
  refine Reply.settles_of_plain ?_ ?_ <;>
    rcases phase_close m ending rest with h | h <;> rw [h] <;> simp [Phase.isPlain]

/-- Recovery leads to the close delimiter. -/
theorem settles_recover (hn : .close false ∈ next) : (m.recover fault rest).Settles next :=
  settles_report rfl hn

/-- So does what is out of place, unless the tag is left. -/
theorem settles_unexpected : (m.unexpected rest).Settles [.close false, .literal] := by
  unfold unexpected
  split
  · exact settles_close
  · exact settles_recover (by decide)

/-- And so does passing over the rest of the tag. -/
theorem settles_skipRest : (m.skipRest rest).Settles [.close false, .literal] :=
  .ite settles_close (settles_emit rfl (by decide))

-- ── values ───────────────────────────────────────────────────────────────────────

/-- Behind a value things go on in the phase of its resume. -/
theorem settles_value (h : resume = .arguments → m.grammar.argument?.isSome = true)
    (hn : resume.phase ∈ next) : (m.emit kind n resume.phase).Settles next :=
  ⟨Phase.filtered_resume h, Phase.bracketed_resume resume _, hn⟩

/-- A name that begins a path leaves the filter as it is. -/
theorem settles_beginPath {name : List Char}
    (h : resume = .arguments → m.grammar.argument?.isSome = true)
    (hn : .path .member resume ∈ next) : (m.beginPath name kind resume).Settles next where
  filtered := Phase.filtered_path h
  bracketed := trivial
  next := hn

/-- Where a value is expected, a value follows, or a path, or the end of the tag. -/
theorem settles_expectValue (h : resume ≠ .arguments) :
    (m.expectValue fault bare resume rest).Settles
      [.literal, .close false, .path .member resume, resume.phase] := by
  have hvalue : ∀ {kind : TokenKind} {n : Nat}, (m.emit kind n resume.phase).Settles
      [.literal, .close false, .path .member resume, resume.phase] := fun {_ _} =>
    settles_value (fun hr => absurd hr h) (by simp)
  rw [expectValue]
  refine .ite (settles_report rfl (by simp)) ?_
  unfold value?
  split
  · exact hvalue
  · exact settles_report rfl (by simp)
  · split
    · exact hvalue
    · split
      · exact hvalue
      · cases identifier? rest with
        | some name => exact settles_beginPath (fun hr => absurd hr h) (by simp)
        | none => exact settles_unexpected.mono (by simp)

-- ── filters ──────────────────────────────────────────────────────────────────────

/-- A pipe leads to the name of a filter. -/
theorem settles_stepPipe : (m.stepPipe rest).Settles [.literal, .close false, .filter .name] :=
  .ite (settles_emit rfl (by decide))
    (.ite (settles_close.mono (by simp)) (settles_unexpected.mono (by simp)))

/-- A filter that the grammar knows becomes the current one, at its first argument. -/
theorem settles_stepFilterName :
    (m.stepFilterName rest).Settles [.close false, .filter .colon, .skipRest] := by
  unfold stepFilterName
  split
  · dsimp only
    split
    · next hk => exact Reply.settles_of_filter rfl ⟨hk, rfl⟩ (by decide)
    · exact settles_report rfl (by decide)
  · exact .ite (settles_report rfl (by decide)) (settles_recover (by decide))

/-- Behind the colon stands the first of the arguments that the filter takes. -/
theorem settles_stepColon (h : (Phase.filter .colon).Filtered m.grammar) :
    (m.stepColon rest).Settles
      [.literal, .close false, .filter .argument, .filter .pipe, .filter .name] := by
  obtain ⟨hf, hi⟩ := h
  rw [stepColon]
  split
  · split
    · next ht =>
        refine Reply.settles_of_filter rfl ?_ (by decide)
        obtain ⟨rule, hrule⟩ := Option.isSome_iff_exists.mp hf
        have ht : m.grammar.filter.any (·.hasArguments) = true := ht
        rw [hrule] at ht
        have hne : rule.arguments ≠ [] := List.isEmpty_eq_false_iff.mp (Bool.not_eq_true' _ ▸ ht)
        exact Lookup.isSome_argument?.mpr ⟨rule, hrule, hi ▸ List.length_pos_iff.mpr hne⟩
    · exact settles_recover (by decide)
  · exact .ite (settles_report rfl (by decide)) (settles_stepPipe.mono (by simp))

/-- An argument leaves the place in the filter as it is. -/
theorem settles_acceptArgument {value : ValueType} (h : m.grammar.argument?.isSome = true)
    (hn : .filter .separator ∈ next) : (m.acceptArgument value kind n).Settles next :=
  Reply.settles_of_filter rfl h hn

/-- Where an argument is expected, one follows, or a path, or the argument is missing. -/
theorem settles_stepArgumentValue (h : m.grammar.argument?.isSome = true) :
    (m.stepArgumentValue rest).Settles
      [.literal, .close false, .path .member .arguments, .filter .separator, .filter .pipe] := by
  rw [stepArgumentValue]
  refine .ite (settles_report rfl (by decide)) (.ite (settles_report rfl (by decide)) ?_)
  split
  · exact settles_acceptArgument h (by decide)
  · exact settles_report rfl (by decide)
  · split
    · exact settles_acceptArgument h (by decide)
    · exact settles_acceptArgument h (by decide)
    · split
      · exact settles_acceptArgument h (by decide)
      · split
        · exact .ite (settles_beginPath (fun _ => h) (by decide))
            (Reply.settles_of_filter rfl h (by decide))
        · exact settles_unexpected.mono (by simp)

/-- Arguments that are written by name are passed over at once. -/
theorem settles_stepArgument (h : m.grammar.argument?.isSome = true) :
    (m.stepArgument rest).Settles
      [.literal, .close false, .path .member .arguments, .filter .separator, .filter .pipe] := by
  rw [stepArgument]
  split
  · exact settles_skipRest.mono (by simp)
  · exact settles_stepArgumentValue h
  · exact settles_close.mono (by simp)

/-- Going on from an argument that is not the last leads to an argument. -/
theorem isSome_argument?_nextArgument {l : Lookup} (h : l.isLastArgument = false) :
    l.nextArgument.argument?.isSome = true := by
  rw [Lookup.nextArgument, if_neg (by rw [h]; exact Bool.false_ne_true)]
  rw [Lookup.isLastArgument] at h
  cases hf : l.filter with
  | none =>
      rw [hf] at h
      cases h
  | some rule =>
      rw [hf] at h
      have hlt : l.argumentIndex + 1 < rule.arguments.length :=
        Nat.lt_of_not_le (of_decide_eq_false h)
      exact Lookup.isSome_argument?.mpr ⟨rule, rfl, hlt⟩

/-- Behind an argument the next one may follow, or the next filter. -/
theorem settles_stepSeparator (h : m.grammar.argument?.isSome = true) :
    (m.stepSeparator rest).Settles
      [.literal, .close false, .filter .argument, .filter .pipe, .filter .name] := by
  rw [stepSeparator]
  split
  · split
    · exact Reply.settles_of_filter rfl h (by decide)
    · split
      · exact settles_recover (by decide)
      · next hlast =>
          exact Reply.settles_of_filter rfl
            (isSome_argument?_nextArgument (Bool.not_eq_true _ ▸ hlast)) (by decide)
  · refine .ite (.ite (settles_stepPipe.mono (by simp))
      (.ite (settles_report rfl (by decide)) (settles_stepPipe.mono (by simp)))) ?_
    split
    · exact settles_close.mono (by simp)
    · exact settles_recover (by decide)

/-- In a list of filters, each phase finds what it relies on. -/
theorem settles_stepFilter {phase : FilterPhase} (h : (Phase.filter phase).Filtered m.grammar) :
    (m.stepFilter phase rest).Settles (Phase.filter phase).next := by
  cases phase with
  | pipe => exact settles_stepPipe.mono (by simp [Phase.next, Phase.onward, Resume.onward])
  | name => exact settles_stepFilterName.mono (by simp [Phase.next, Phase.onward])
  | colon => exact (settles_stepColon h).mono (by simp [Phase.next, Phase.onward])
  | argument => exact (settles_stepArgument h).mono (by simp [Phase.next, Phase.onward])
  | separator =>
      exact (settles_stepSeparator h).mono (by simp [Phase.next, Phase.onward, Resume.onward])

-- ── conditions, loops and assignments ────────────────────────────────────────────

/-- An operator, or a comma, leads to the next value of a condition. -/
theorem settles_stepOperator :
    (m.stepOperator rest).Settles [.literal, .close false, .control .condition] := by
  rw [stepOperator]
  refine .ite (settles_close.mono (by simp)) ?_
  split
  · exact settles_emit rfl (by decide)
  · exact .ite (settles_emit rfl (by decide)) (settles_recover (by decide))

/-- The phases of a condition. -/
theorem settles_stepControl (phase : ControlPhase) :
    (m.stepControl phase rest).Settles (Phase.control phase).next := by
  have hvalue : (m.stepCondition rest).Settles
      [.literal, .close false, .path .member .condition, .control .operator] :=
    settles_expectValue (by decide)
  cases phase with
  | start =>
      exact .ite (hvalue.mono (by simp [Phase.next, Phase.onward]))
        (settles_close.mono (by simp [Phase.next, Phase.onward]))
  | condition => exact hvalue.mono (by simp [Phase.next, Phase.onward])
  | operator => exact settles_stepOperator.mono (by simp [Phase.next, Phase.onward, Resume.onward])

/-- A range, valid or not, leads to the modifiers of the loop. -/
theorem settles_stepRange (hc : .close false ∈ next) (hn : .loop .parameter ∈ next) :
    (m.stepRange rest).Settles next := by
  unfold stepRange
  split
  · exact .ite (settles_emit rfl hn) (settles_report rfl hn)
  · exact settles_recover hc

/-- A modifier is followed by its value, or by the next one. -/
theorem settles_stepParameter :
    (m.stepParameter rest).Settles
      [.literal, .close false, .loop .parameter, .loop .parameterValue] := by
  rw [stepParameter]
  refine .ite (settles_close.mono (by simp)) ?_
  split
  · split
    · exact settles_emit rfl (by decide)
    · exact settles_emit rfl (by decide)
    · exact settles_report rfl (by decide)
  · exact settles_unexpected.mono (by simp)

/-- The value of a modifier is a number or a path. -/
theorem settles_stepParameterValue :
    (m.stepParameterValue r).Settles (Phase.loop .parameterValue).next := by
  rw [stepParameterValue]
  refine .ite (settles_emit rfl (by decide)) (.ite (settles_report rfl (by decide))
    (.ite (settles_recover (by decide)) ?_))
  split
  · exact settles_emit rfl (by decide)
  · split
    · exact settles_beginPath (fun hr => absurd hr (by decide)) (by decide)
    · exact settles_recover (by decide)

/-- The phases of a loop. -/
theorem settles_stepLoop (phase : LoopPhase) :
    (m.stepLoop phase r).Settles (Phase.loop phase).next := by
  cases phase with
  | variableName =>
      simp only [stepLoop, stepLoopVariable]
      split
      · exact settles_emit rfl (by decide)
      · exact .ite (settles_report rfl (by decide)) (settles_recover (by decide))
  | operator =>
      exact .ite (settles_emit rfl (by decide))
        (.ite (settles_report rfl (by decide)) (settles_recover (by decide)))
  | collection =>
      simp only [stepLoop, stepCollection]
      refine .ite (settles_report rfl (by decide))
        (.ite (settles_stepRange (by decide) (by decide)) ?_)
      split
      · exact settles_beginPath (fun hr => absurd hr (by decide)) (by decide)
      · exact settles_recover (by decide)
  | parameter =>
      exact settles_stepParameter.mono (by simp [Phase.next, Phase.onward, Resume.onward])
  | parameterValue => exact settles_stepParameterValue

/-- The phases of an assignment. -/
theorem settles_stepAssignment (phase : AssignmentPhase) :
    (m.stepAssignment phase rest).Settles (Phase.assignment phase).next := by
  cases phase with
  | name =>
      simp only [stepAssignment, stepAssignedName]
      split
      · exact settles_emit rfl (by decide)
      · exact .ite (settles_report rfl (by decide)) (settles_recover (by decide))
  | operator =>
      exact .ite (settles_emit rfl (by decide)) (.ite (.ite (settles_report rfl (by decide))
        (settles_close.mono (by simp [Phase.next, Phase.onward]))) (settles_recover (by decide)))
  | value =>
      exact (settles_expectValue (by decide)).mono
        (by simp [Phase.next, Phase.onward, Resume.phase])

-- ── paths ────────────────────────────────────────────────────────────────────────

/-- Behind a path things go on as they do in the phase of its resume. -/
theorem settles_stepResume (h : resume = .arguments → m.grammar.argument?.isSome = true) :
    (m.stepResume resume rest).Settles (.literal :: resume.onward) := by
  cases resume with
  | filters => exact settles_stepPipe
  | condition => exact settles_stepOperator
  | parameters => exact settles_stepParameter
  | arguments => exact settles_stepSeparator (h rfl)

/-- Inside a path an answer goes on in the same path when the filter is as it was, and the bracket
    of a key is open. -/
theorem settles_path {phase : PathPhase} {m' : Machine Lookup}
    (h : resume = .arguments → m'.grammar.argument?.isSome = true)
    (hb : (Phase.path phase resume).Bracketed m'.brackets) (hn : .path phase resume ∈ next) :
    (m'.emit kind n (.path phase resume)).Settles next where
  filtered := Phase.filtered_path h
  bracketed := hb
  next := hn

/-- A property leaves the filter as it is. -/
theorem settles_takeProperty {name : List Char} {phase : PathPhase}
    (h : resume = .arguments → m.grammar.argument?.isSome = true)
    (hb : (Phase.path phase resume).Bracketed m.brackets) (hn : .path phase resume ∈ next) :
    (m.takeProperty name kind n (.path phase resume)).Settles next := by
  obtain ⟨object, hobject⟩ := Lookup.enterProperty_eq m.grammar (String.ofList name)
  refine settles_path (fun hr => ?_) hb hn
  show (m.grammar.enterProperty (String.ofList name)).argument?.isSome = true
  rw [hobject]
  exact h hr

/-- Behind a key its bracket is closed, or the tag. -/
theorem settles_stepKeyEnd (h : resume = .arguments → m.grammar.argument?.isSome = true) :
    (m.stepKeyEnd resume rest).Settles [.literal, .close false, .path .member resume] := by
  rw [stepKeyEnd]
  refine .ite ?_ (.ite (settles_close.mono (by simp)) (settles_recover (by simp)))
  split
  · exact settles_recover (by simp)
  · refine settles_path (fun hr => ?_) trivial (by simp)
    split
    · exact h hr
    · exact h hr

/-- A path goes on with a property, or ends. -/
theorem settles_stepMember (h : resume = .arguments → m.grammar.argument?.isSome = true) :
    (m.stepMember resume r).Settles (Phase.path .member resume).next := by
  have hkey :
      [.literal, .close false, .path .member resume] ⊆ (Phase.path .member resume).next := by
    cases resume <;> simp [Phase.next, Phase.onward, Resume.onward]
  have hresume : .literal :: resume.onward ⊆ (Phase.path .member resume).next := by
    cases resume <;> simp [Phase.next, Phase.onward, Resume.onward]
  have hclose : .close false ∈ (Phase.path .member resume).next := hkey (by simp)
  unfold stepMember
  split
  · exact .ite (settles_path h trivial (by simp [Phase.next, Phase.onward]))
      (.ite (settles_recover hclose) (settles_recover hclose))
  · exact settles_path h rfl (by simp [Phase.next, Phase.onward])
  · exact .ite ((settles_stepKeyEnd h).mono hkey) (.ite (settles_recover hclose)
      ((settles_stepResume (m := m.releaseObject) h).mono hresume))

/-- A key is a string, a number, or a path of its own. -/
theorem settles_stepKey (h : resume = .arguments → m.grammar.argument?.isSome = true)
    (hb : m.brackets.isEmpty = false) :
    (m.stepKey resume rest).Settles (Phase.path .key resume).next := by
  have hend : .path .keyEnd resume ∈ (Phase.path .key resume).next := by
    simp [Phase.next, Phase.onward]
  have hclose : .close false ∈ (Phase.path .key resume).next := by
    simp [Phase.next, Phase.onward]
  rw [stepKey]
  refine .ite (settles_path h hb hend) (.ite (settles_report rfl hclose) ?_)
  split
  · exact .ite (settles_path h hb hend) (settles_takeProperty h hb hend)
  · exact settles_report rfl hclose
  · split
    · exact settles_path h hb hend
    · split
      · exact settles_beginPath h (by simp [Phase.next, Phase.onward])
      · exact settles_unexpected.mono (by simp [Phase.next, Phase.onward])

/-- In a path, each phase finds what it relies on, and the path goes on behind its end as it was
    begun. -/
theorem settles_stepPath {phase : PathPhase} (h : (Phase.path phase resume).Filtered m.grammar)
    (hb : (Phase.path phase resume).Bracketed m.brackets) :
    (m.stepPath phase resume r).Settles (Phase.path phase resume).next := by
  have hargument := fun hr => Phase.argument_of_path h hr
  cases phase with
  | member => exact settles_stepMember hargument
  | dot =>
      simp only [stepPath, stepDot]
      split
      · exact settles_takeProperty hargument trivial (by simp [Phase.next, Phase.onward])
      · exact settles_recover (by simp [Phase.next, Phase.onward])
  | key => exact settles_stepKey hargument hb
  | keyEnd => exact (settles_stepKeyEnd hargument).mono (by simp [Phase.next, Phase.onward])

-- ── the name of the tag ──────────────────────────────────────────────────────────

/-- The phase in which a tag goes on behind its name relies on nothing. -/
theorem isPlain_identity (m : Machine Lookup) : m.identity.2.isPlain = true := by
  rw [identity]
  split
  · rfl
  · split <;> first | rfl | (split <;> rfl)

/-- It is one of those that follow the open delimiter. -/
theorem identity_mem_next (m : Machine Lookup) : m.identity.2 ∈ Phase.opened.next := by
  rw [identity]
  split
  · decide
  · split <;> first | decide | (split <;> decide)

/-- The name of a tag leads to the phase in which that tag goes on. -/
theorem settles_stepTagName : (m.stepTagName r).Settles Phase.opened.next := by
  rw [stepTagName]
  refine .ite (settles_report rfl (by decide)) (.ite (settles_emit rfl (by decide)) ?_)
  split
  · exact settles_recover (by decide)
  · exact .ite (Reply.settles_of_plain (isPlain_identity _) (identity_mem_next _))
      (settles_emit rfl (by decide))

/-- Behind the open delimiter the tag is decided in one scan. -/
theorem settles_stepOpened : (m.stepOpened r).Settles Phase.opened.next := by
  unfold stepOpened
  refine .ite (settles_emit rfl (by decide)) ?_
  split
  · exact settles_emit rfl (by decide)
  · split
    · split
      · exact Reply.settles_of_plain rfl (by simp [takeEndTag, Phase.next, Phase.onward])
      · exact settles_stepTagName
    · exact settles_stepTagName

-- ── text and markup ──────────────────────────────────────────────────────────────

/-- A body is passed over into literal text. -/
theorem settles_stepBody {body : Body} (hn : .literal ∈ next) :
    (m.stepBody body rest).Settles next := by
  rw [stepBody]
  split
  · exact Reply.settles_of_plain rfl hn
  · exact Reply.settles_of_plain rfl hn

/-- The name of an element is followed by its attributes, or by the bracket that ends it. -/
theorem settles_stepMarkupText : (m.stepMarkupText r).Settles Phase.literal.next := by
  have hpass : (m.passText r.rest).Settles Phase.literal.next :=
    Reply.settles_of_plain rfl (List.mem_cons_self ..)
  unfold stepMarkupText
  split
  · split
    · exact .ite (settles_emit rfl (by decide)) (settles_emit rfl (by decide))
    · exact hpass
  · split
    · exact .ite (settles_emit rfl (by decide)) (settles_emit rfl (by decide))
    · exact hpass
  · exact hpass

/-- In literal text a tag opens, an element begins or ends, or text goes on. -/
theorem settles_stepLiteral : (m.stepLiteral r).Settles Phase.literal.next := by
  unfold stepLiteral
  split
  · exact settles_stepBody (by decide)
  · exact .ite (settles_emit rfl (by decide)) (.ite (settles_emit rfl (by decide))
      (.ite settles_stepMarkupText (Reply.settles_of_plain rfl (List.mem_cons_self ..))))

/-- At an open delimiter a tag opens, unless a body comes first. -/
theorem settles_opener (h : startsWithOpener r.rest = true) (hl : .literal ∈ next)
    (ho : .opened ∈ next) : (m.stepLiteral r).Settles next := by
  unfold stepLiteral
  split
  · exact settles_stepBody hl
  · have hone : r.isNext (TagForm.opener .output) = true ∨
        r.isNext (TagForm.opener .statement) = true := by
      simpa [startsWithOpener, openers, Reader.isNext] using h
    split
    · exact settles_emit rfl ho
    · next hother =>
        rw [if_pos (hone.resolve_left hother)]
        exact settles_emit rfl ho

/-- The name of an attribute, the end of the markup, or a tag. -/
theorem settles_stepAttributeName (hl : .literal ∈ next) (ho : .opened ∈ next)
    (hn : .markup .attributeOperator ∈ next) : (m.stepAttributeName r).Settles next := by
  rw [stepAttributeName]
  refine .ite (settles_emit rfl hl) (.ite (settles_emit rfl hl) ?_)
  split
  · next h => exact settles_opener h hl ho
  · exact .ite (settles_emit rfl hl) (settles_emit rfl hn)

/-- The phases of markup. -/
theorem settles_stepMarkup (phase : MarkupPhase) :
    (m.stepMarkup phase r).Settles (Phase.markup phase).next := by
  cases phase with
  | attributeName => exact settles_stepAttributeName (by decide) (by decide) (by decide)
  | attributeOperator =>
      exact .ite (settles_emit rfl (by decide))
        (settles_stepAttributeName (by decide) (by decide) (by decide))
  | attributeValue =>
      simp only [stepMarkup, stepAttributeValue]
      split
      · exact settles_emit rfl (by decide)
      · exact settles_emit rfl (by decide)
      · exact .ite (settles_stepAttributeName (by decide) (by decide) (by decide))
          (settles_emit rfl (by decide))
  | closeName => exact .ite (settles_emit rfl (by decide)) (settles_emit rfl (by decide))

-- ── any step ─────────────────────────────────────────────────────────────────────

/-- Each phase finds what it relies on, and leads to one that may come next. -/
theorem settles_stepPhase (hf : m.phase.Filtered m.grammar)
    (hb : m.phase.Bracketed m.brackets) : (m.stepPhase r).Settles m.phase.next := by
  rw [stepPhase]
  cases h : m.phase with
  | literal => exact settles_stepLiteral
  | markup phase => exact settles_stepMarkup phase
  | opened => exact settles_stepOpened
  | outputValue =>
      exact (settles_expectValue (by decide)).mono
        (by simp [Phase.next, Phase.onward, Resume.phase])
  | unknownTag | skipRest => exact settles_skipRest.mono (by simp [Phase.next, Phase.onward])
  | embedded =>
      exact .ite (settles_skipRest.mono (by simp [Phase.next, Phase.onward]))
        (settles_close.mono (by simp [Phase.next, Phase.onward]))
  | loop phase => exact settles_stepLoop phase
  | assignment phase => exact settles_stepAssignment phase
  | control phase => exact settles_stepControl phase
  | path phase resume => exact settles_stepPath (h ▸ hf) (h ▸ hb)
  | filter phase => exact settles_stepFilter (h ▸ hf)
  | close ending => exact settles_close

/-- Where text is left, the phase after a step is one that may come next, and has what it relies
    on. -/
theorem settles_step (hf : m.phase.Filtered m.grammar) (hb : m.phase.Bracketed m.brackets)
    (hr : r.rest ≠ []) : (m.step r).Settles m.phase.next := by
  have hend : r.atEnd = false := List.isEmpty_eq_false_iff.mpr hr
  have hspace : ∀ kind n, (m.emit kind n m.phase).Settles m.phase.next := fun _ _ =>
    ⟨hf, hb, List.mem_cons_self ..⟩
  have hphase := settles_stepPhase (r := r) hf hb
  rw [step, hend, if_neg Bool.false_ne_true]
  exact .ite hphase (.ite (hspace _ _) (.ite (hspace _ _) hphase))

/-- At the end of the document a tag stays in its phase, or is left. -/
theorem filtered_stepEnd (h : m.phase.Filtered m.grammar) (size : Nat) :
    (m.stepEnd size).machine.phase.Filtered (m.stepEnd size).machine.grammar ∧
      ((m.stepEnd size).machine.phase = m.phase ∨ (m.stepEnd size).machine.phase = .literal) := by
  rw [stepEnd]
  split
  · split
    · exact ⟨h, Or.inl rfl⟩
    · exact ⟨trivial, Or.inr rfl⟩
  · have hp := phase_flush { m with phase := .literal } size
    refine ⟨?_, Or.inr hp⟩
    show (({ m with phase := .literal } : Machine Lookup).flush size).phase.Filtered _
    rw [hp]
    trivial

/-- **The phases**: a step leads to one that may come next, also at the end of the document. -/
theorem mem_next_step (hf : m.phase.Filtered m.grammar)
    (hb : r.rest ≠ [] → m.phase.Bracketed m.brackets) :
    (m.step r).machine.phase ∈ m.phase.next := by
  by_cases hr : r.rest = []
  · have hstep : m.step r = m.stepEnd r.document.size := by
      rw [Machine.step, if_pos (show r.atEnd = true from List.isEmpty_iff.mpr hr)]
    rw [hstep]
    rcases (filtered_stepEnd hf r.document.size).2 with hkept | hleft
    · rw [hkept]
      exact List.mem_cons_self ..
    · rw [hleft]
      exact List.mem_cons_of_mem _ (List.mem_cons_self ..)
  · exact (settles_step hf (hb hr) hr).next

-- ── the body to be passed over ───────────────────────────────────────────────────

/-- The phases in which a body may wait to be passed over: its text comes next, or nothing but the
    end of the tag that it belongs to. -/
def waiting : List Phase :=
  [.literal, .skipRest, .embedded, .close false]

/-- A tag whose body is to be passed over goes on with nothing but its end. -/
theorem phase_step_waiting (h : m.phase ∈ waiting) (r : Reader) (hp : m.phase ≠ .literal) :
    (m.step r).machine.phase ∈ [m.phase, .close false, .literal] := by
  simp only [waiting, List.mem_cons, List.not_mem_nil, or_false] at h
  have hsub : m.phase.next ⊆ [m.phase, .close false, .literal] := by
    rcases h with h | h | h | h
    · exact absurd h hp
    all_goals rw [h]; simp [Phase.next, Phase.onward]
  refine hsub (mem_next_step ?_ fun _ => ?_) <;> rcases h with h | h | h | h <;> rw [h] <;> trivial

/-- A tag with a body that is passed over is passed over itself, up to its end. -/
theorem identity_of_bodyKind? (h : m.bodyKind? ≠ none) : m.identity.2 ∈ waiting := by
  rw [bodyKind?] at h
  rw [identity]
  split at h
  · exact absurd rfl h
  · next hs =>
      rw [if_neg hs]
      split at h
      · next hk => simp [hk, waiting]
      · next hk => simp [hk, waiting]
      · next hk => simp [hk, waiting]
      · exact absurd rfl h

/-- A body begins to wait at the name of its tag. -/
theorem TagStep.waits {bound : Nat} {reply : Reply Lookup} (h : TagStep ending bound m r reply)
    (hm : m.body = none) (hb : reply.machine.body ≠ none) : reply.machine.phase ∈ waiting := by
  cases h with
  | @startTag g name _ _ _ _ =>
      refine identity_of_bodyKind? (m := { m with grammar := g }) fun hk => hb ?_
      show ((bodyKind? { m with grammar := g }).map (Body.mk name)).or m.body = none
      rw [hk, hm]
      rfl
  | _ => exact absurd hm hb

/-- Outside tags a body waits in literal text only. -/
theorem TextStep.waits {reply : Reply Lookup} (h : TextStep m r reply)
    (hm : m.body ≠ none → m.phase ∈ waiting) (hb : reply.machine.body ≠ none) :
    reply.machine.phase ∈ waiting := by
  have hmarkup : ∀ phase, m.phase = .markup phase → m.body = none := by
    intro phase hp
    refine Decidable.byContradiction fun hne => ?_
    have hmem := hm hne
    rw [hp] at hmem
    simp [waiting] at hmem
  cases h with
  | @body body _ =>
      have hp : (m.stepBody body r.rest).machine.phase = .literal := by
        rw [stepBody]
        split <;> rfl
      rw [hp]
      exact List.mem_cons_self ..
  | opens hnone _ => exact absurd hnone hb
  | element hnone _ _ =>
      rw [stepElement] at hb
      split at hb <;> exact absurd hnone hb
  | endElement hnone _ _ =>
      rw [stepEndElement] at hb
      split at hb <;> exact absurd hnone hb
  | text _ _ _ | selfClose _ _ | leave _ => exact List.mem_cons_self ..
  | markup _ _ _ _ hphase _ =>
      obtain ⟨phase, hp⟩ := hphase
      exact absurd (hmarkup phase hp) hb
  | space _ _ _ hp => exact absurd (hmarkup _ hp) hb

/-- A body waits in no other phase than these. -/
theorem waits_step (hm : m.body ≠ none → m.phase ∈ waiting) (r : Reader)
    (hb : (m.step r).machine.body ≠ none) : (m.step r).machine.phase ∈ waiting := by
  cases hp : m.phase.inTag with
  | false =>
      cases hr : r.atEnd with
      | true =>
          rw [step_atEnd hp hr, phase_flush]
          exact List.mem_cons_self ..
      | false => exact (step_outside m r hp hr).waits hm hb
  | true =>
      by_cases hnone : m.body = none
      · exact (step_inTag m r hp).waits hnone hb
      · have hmem := phase_step_waiting (hm hnone) r fun h => by rw [h] at hp; exact nomatch hp
        have hwaiting := hm hnone
        simp only [List.mem_cons, List.not_mem_nil, or_false] at hmem
        rcases hmem with h | h | h <;> rw [h]
        · exact hwaiting
        · simp [waiting]
        · simp [waiting]

-- ── the invariant ────────────────────────────────────────────────────────────────

/-- The machine has what its phase relies on; a bracket may be missing at the end of the document,
    where nothing is taken any more. -/
structure Ready (m : Machine Lookup) (r : Reader) : Prop where
  filtered : m.phase.Filtered m.grammar
  bracketed : r.rest ≠ [] → m.phase.Bracketed m.brackets
  waits : m.body ≠ none → m.phase ∈ waiting

/-- Literal text with no body in wait relies on nothing. -/
theorem Ready.of_literal (hp : m.phase = .literal) (hb : m.body = none) : m.Ready r := by
  refine ⟨?_, fun _ => ?_, fun hne => absurd hb hne⟩ <;> rw [hp] <;> trivial

/-- A scan keeps the machine ready for the next one. -/
theorem Ready.step (h : m.Ready r) : (m.step r).machine.Ready ((m.step r).extent.apply r) := by
  by_cases hr : r.rest = []
  · have hstep : m.step r = m.stepEnd r.document.size := by
      rw [Machine.step, if_pos (show r.atEnd = true from List.isEmpty_iff.mpr hr)]
    refine ⟨?_, fun hne => absurd ?_ hne, waits_step h.waits r⟩
    · rw [hstep]
      exact (filtered_stepEnd h.filtered _).1
    · rw [rest_apply, hr, List.drop_nil]
  · have hsettles := settles_step h.filtered (h.bracketed hr) hr
    exact ⟨hsettles.filtered, fun _ => hsettles.bracketed, waits_step h.waits r⟩

end Machine

namespace Scanner

variable {s : Scanner Lookup} {resume : Resume} {c : Char}

/-- The machine is ready throughout every session that never scans from elsewhere. -/
theorem ready_session (source : String) (l : Lookup) {moves : List Move}
    (h : ∀ move ∈ moves, move.isOrderly = true) :
    let s := (ofString source l).session moves
    s.machine.Ready s.reader := by
  refine session_induction (P := fun s => s.machine.Ready s.reader)
    (Q := fun move => move.isOrderly = true) (fun _ h => h.step) (fun s offset ho h => ?_)
    (fun _ _ _ _ => .of_literal rfl rfl) (fun _ _ => .of_literal rfl rfl) (.of_literal rfl rfl) h
  obtain rfl : offset = 0 := beq_iff_eq.mp ho
  exact h.step

-- ── no step has to do without ────────────────────────────────────────────────────

/-- Between two scans everything is there that the next one relies on. -/
structure Unfailing (s : Scanner Lookup) : Prop where
  /-- A scan leads to one of the phases listed for the phase it comes from: none in which a fault, a
      name or an argument written by name would still have to be dealt with. -/
  rests : s.scanHere.2.machine.phase ∈ s.machine.phase.next
  /-- Around the key of a bracket a bracket is open, unless the document ends at the cursor. -/
  bracket : ∀ phase resume, s.machine.phase = .path phase resume → phase = .key ∨ phase = .keyEnd →
    s.reader.rest ≠ [] → s.machine.brackets.isEmpty = false
  /-- Behind the name of a filter, among its arguments, and in a path that is one of them, there is
      a current filter; behind the colon, the place of the current argument is in range. -/
  filter : s.machine.phase ∈ [.filter .colon, .filter .argument, .filter .separator] ∨
      (∃ phase, s.machine.phase = .path phase .arguments) →
    ∃ rule, s.machine.grammar.filter = some rule ∧
      (s.machine.phase ≠ .filter .colon →
        s.machine.grammar.argumentIndex < rule.arguments.length)
  /-- A body waits in literal text, or in a phase from which the next scan only goes on to the end
      of the tag. -/
  body : s.machine.body ≠ none → s.machine.phase = .literal ∨
    s.machine.phase ∈ [.skipRest, .embedded, .close false] ∧
      s.scanHere.2.machine.phase ∈ [s.machine.phase, .close false, .literal]
  /-- In a path the way on behind it is kept, and it is the way on behind a value in the phase where
      the path begins. -/
  saved : ∀ phase resume, s.scanHere.2.machine.phase = .path phase resume →
    s.machine.phase.begins? = some resume
  /-- Behind a path, the scan is that of the phase that has been kept. -/
  returns : ∀ resume c, s.machine.phase = .path .member resume →
    s.machine.brackets.isEmpty = true → s.reader.rest.head? = some c → isTagBlank c = false →
      c ∉ ['.', '[', ']'] →
        s.machine.step s.reader =
          ({ s.machine.releaseObject with phase := resume.phase } : Machine Lookup).step s.reader
  /-- Behind a key a closing bracket closes one. -/
  closes : ∀ resume, s.machine.phase = .path .keyEnd resume ∨
      s.machine.phase = .path .member resume ∧ s.machine.brackets.isEmpty = false →
    s.reader.rest.head? = some ']' → s.scanHere.1 = .token .closeBracket
  /-- Where an argument is expected, one is declared. -/
  argument : s.machine.phase = .filter .argument →
    Grammar.argumentKind? s.machine.grammar ≠ none

/-- The filter and the argument that a phase relies on, read off the grammar. -/
theorem filter_of_filtered (h : s.machine.phase.Filtered s.machine.grammar)
    (hp : s.machine.phase ∈ [.filter .colon, .filter .argument, .filter .separator] ∨
      ∃ phase, s.machine.phase = .path phase .arguments) :
    ∃ rule, s.machine.grammar.filter = some rule ∧
      (s.machine.phase ≠ .filter .colon →
        s.machine.grammar.argumentIndex < rule.arguments.length) := by
  have hargument : s.machine.grammar.argument?.isSome = true →
      ∃ rule, s.machine.grammar.filter = some rule ∧
        (s.machine.phase ≠ .filter .colon →
          s.machine.grammar.argumentIndex < rule.arguments.length) := by
    intro harg
    obtain ⟨rule, hrule, hlt⟩ := Lookup.isSome_argument?.mp harg
    exact ⟨rule, hrule, fun _ => hlt⟩
  simp only [List.mem_cons, List.not_mem_nil, or_false] at hp
  rcases hp with (hp | hp | hp) | ⟨phase, hp⟩ <;> rw [hp] at h
  · obtain ⟨rule, hrule⟩ := Option.isSome_iff_exists.mp h.1
    exact ⟨rule, hrule, fun hne => absurd hp hne⟩
  · exact hargument h
  · exact hargument h
  · exact hargument h

/-- Behind a key, the closing bracket that comes next closes a bracket. -/
theorem closeBracket_of_open {phase : PathPhase} (hp : s.machine.phase = .path phase resume)
    (hphase : phase = .member ∨ phase = .keyEnd) (hb : s.machine.brackets.isEmpty = false)
    (hh : s.reader.rest.head? = some ']') : s.scanHere.1 = .token .closeBracket := by
  obtain ⟨tail, hrest⟩ := List.head?_eq_some_iff.mp hh
  obtain ⟨bracket, hbracket⟩ : ∃ bracket, s.machine.brackets.innermost? = some bracket :=
    Option.isSome_iff_exists.mp (List.isSome_head?.mpr (List.isEmpty_eq_false_iff.mp hb))
  rw [event_scanHere, Machine.step_closeBracket hp hphase hbracket hrest]
  rfl

/-- Where neither the path nor a bracket goes on, the step is the one of the phase that has been
    kept. -/
theorem step_of_returns (hp : s.machine.phase = .path .member resume)
    (hb : s.machine.brackets.isEmpty = true) (hh : s.reader.rest.head? = some c)
    (hblank : isTagBlank c = false) (hc : c ∉ ['.', '[', ']']) :
    s.machine.step s.reader =
      ({ s.machine.releaseObject with phase := resume.phase } : Machine Lookup).step s.reader := by
  obtain ⟨tail, hrest⟩ := List.head?_eq_some_iff.mp hh
  simp only [List.mem_cons, List.not_mem_nil, or_false, not_or] at hc
  have hother : resume.phase ≠ .literal := by cases resume <;> nofun
  rw [Machine.step_eq_stepPhase (by rw [hp]; nofun) hh hblank,
    Machine.step_eq_stepPhase hother hh hblank, Machine.stepPhase, hp]
  show s.machine.stepMember resume s.reader = _
  rw [Machine.stepMember_other hrest hc.1 hc.2.1, hb, if_neg (by decide),
    if_neg (by rw [hrest]; simpa using hc.2.2)]
  cases resume <;> rfl

/-- **Readiness.**  In a session on any text, with any lookup, that goes back to offsets and reads
    on from where it is: a key stands in an open bracket, arguments belong to a filter and are
    declared, a body waits only where nothing but the end of its tag comes before it, and behind a
    path things go on as they were to go on when it began. -/
theorem session_ready (source : String) (l : Lookup) (moves : List Move)
    (h : ∀ move ∈ moves, move.isOrderly = true) :
    ((ofString source l).session moves).Unfailing := by
  generalize hs : (ofString source l).session moves = s
  have hready : s.machine.Ready s.reader := hs ▸ ready_session source l h
  have hnext : s.scanHere.2.machine.phase ∈ s.machine.phase.next :=
    Machine.mem_next_step hready.filtered hready.bracketed
  have hbracket : ∀ phase resume, s.machine.phase = .path phase resume →
      phase = .key ∨ phase = .keyEnd → s.reader.rest ≠ [] →
        s.machine.brackets.isEmpty = false := by
    intro phase resume hp hphase hr
    have hb := hready.bracketed hr
    rw [hp] at hb
    rcases hphase with rfl | rfl <;> exact hb
  refine ⟨hnext, hbracket, filter_of_filtered hready.filtered, fun hb => ?_,
    fun phase resume hp => Phase.begins?_of_mem_next (hp ▸ hnext),
    fun resume c hp hb hh hblank hc => step_of_returns hp hb hh hblank hc,
    fun resume hp hh => ?_, fun hp => ?_⟩
  · have hwaits := hready.waits hb
    rcases List.mem_cons.mp hwaits with hp | hp
    · exact Or.inl hp
    · refine Or.inr ⟨hp, Machine.phase_step_waiting hwaits s.reader fun hl => ?_⟩
      rw [hl] at hp
      simp at hp
  · have hr : s.reader.rest ≠ [] := Machine.ne_nil_of_head? hh
    rcases hp with hp | ⟨hp, hb⟩
    · exact closeBracket_of_open hp (Or.inr rfl) (hbracket _ _ hp (Or.inr rfl) hr) hh
    · exact closeBracket_of_open hp (Or.inl rfl) hb hh
  · have hargument := hready.filtered
    rw [hp] at hargument
    exact fun hnone => absurd (Option.map_eq_none_iff.mp hnone)
      (Option.isSome_iff_ne_none.mp hargument)

/-- After a rewind, in the key of a path that is an argument. -/
theorem session_ready_in_key :
    let moves := [Move.tokens 4, .rewind 0, .tokens 11, .scan 0]
    let s := (ofString "\x7b\x7b a | append: b[c" Dialect.standard.lookup).session moves
    (∀ move ∈ moves, move.isOrderly = true) ∧ s.machine.phase = .path .key .arguments ∧
      s.reader.rest = ['c'] ∧ s.Unfailing := by
  intro moves s
  have horderly : ∀ move ∈ moves, move.isOrderly = true := by decide
  obtain ⟨hphase, hrest⟩ : s.machine.phase = .path .key .arguments ∧ s.reader.rest = ['c'] := by
    decide +kernel
  exact ⟨horderly, hphase, hrest, session_ready _ Dialect.standard.lookup moves horderly⟩

end Scanner

end TemplateScan
