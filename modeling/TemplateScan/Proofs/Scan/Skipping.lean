import TemplateScan.Proofs.Scan.TagShape

/-! # Skipping — a part of a tag that is passed over reaches as far as recovery does

    A part of a tag is passed over without being scanned in one way only.  The step functions are
    gone through once more for it: all but three of them find something else whenever they answer,
    and those three pass over everything up to the end of the tag.

    * **`Reply.Scanned`** — the reply has found something else.
    * **`SkipsRest`** — what is passed over is the rest of the tag.
    * **`step_skipped`** — in any step. -/

namespace TemplateScan

open Text

/-- The reply does not pass over a part of the tag without scanning it. -/
def Reply.Scanned {γ : Type} (reply : Reply γ) : Prop :=
  reply.event ≠ .token .skipped

/-- Two replies that scan, chosen by a condition, scan. -/
theorem Reply.Scanned.ite {γ : Type} {c : Prop} [Decidable c] {a b : Reply γ} (ha : a.Scanned)
    (hb : b.Scanned) : (if c then a else b).Scanned := by
  split
  · exact ha
  · exact hb

namespace Machine

variable {γ : Type} [Grammar γ] {m : Machine γ} {r : Reader} {rest : List Char} {ending : Bool}
  {kind bare : TokenKind} {fault : Fault} {resume : Resume} {n : Nat} {p : Phase}

-- ── replies that scan ────────────────────────────────────────────────────────────

omit [Grammar γ] in
/-- A token of any other kind is scanned. -/
theorem scanned_emit (hk : kind ≠ .skipped) : (m.emit kind n p).Scanned :=
  fun he => hk (Event.token.inj he)

omit [Grammar γ] in
/-- A fault is reported on text that has been looked at. -/
theorem scanned_report : (m.report fault n p).Scanned :=
  scanned_emit (by rintro ⟨⟩)

/-- The end of a tag is scanned piece by piece. -/
theorem scanned_close : (m.close ending rest).Scanned := by
  unfold close
  refine .ite scanned_report (.ite (scanned_emit (by rintro ⟨⟩)) ?_)
  split
  · exact scanned_report
  · refine .ite (scanned_emit ?_) ?_
    · split <;> rintro ⟨⟩
    · split <;> exact scanned_report

/-- What is out of place is reported, not passed over. -/
theorem scanned_unexpected : (m.unexpected rest).Scanned := by
  unfold unexpected
  split
  · exact scanned_close
  · exact scanned_report

-- ── values ───────────────────────────────────────────────────────────────────────

/-- A name that begins a path is an object, or what its place asks for. -/
theorem scanned_beginPath {name : List Char} (hk : bare ≠ .skipped) :
    (m.beginPath name (m.referenceKind name bare) resume).Scanned := by
  refine scanned_emit ?_
  rw [referenceKind]
  split
  · rintro ⟨⟩
  · exact hk

/-- Where a value is expected, one is taken or a fault is reported. -/
theorem scanned_expectValue (hk : bare ≠ .skipped) :
    (m.expectValue fault bare resume rest).Scanned := by
  rw [expectValue]
  refine .ite scanned_report ?_
  unfold value?
  split
  · exact scanned_emit (by rintro ⟨⟩)
  · exact scanned_report
  · split
    · exact scanned_emit (by rintro ⟨⟩)
    · split
      · exact scanned_emit (by rintro ⟨⟩)
      · cases identifier? rest with
        | some name => exact scanned_beginPath hk
        | none => exact scanned_unexpected

-- ── filters ──────────────────────────────────────────────────────────────────────

theorem scanned_stepPipe : (m.stepPipe rest).Scanned :=
  .ite (scanned_emit (by rintro ⟨⟩)) (.ite scanned_close scanned_unexpected)

/-- An unknown filter is reported on its name. -/
theorem scanned_stepFilterName : (m.stepFilterName rest).Scanned := by
  unfold stepFilterName
  split
  · exact .ite (scanned_emit (by rintro ⟨⟩)) scanned_report
  · exact .ite scanned_report scanned_report

/-- Where the colon is missing, the filter is reported or left. -/
theorem scanned_stepColon : (m.stepColon rest).Scanned :=
  .ite (.ite (scanned_emit (by rintro ⟨⟩)) scanned_report) (.ite scanned_report scanned_stepPipe)

/-- An argument that is not accepted is reported on its own text. -/
theorem scanned_acceptArgument {value : ValueType} (hk : kind ≠ .skipped) :
    (m.acceptArgument value kind n).Scanned := by
  refine scanned_emit ?_
  split
  · exact hk
  · rintro ⟨⟩

/-- Each kind of argument is taken by itself, accepted or not. -/
theorem scanned_stepArgumentValue : (m.stepArgumentValue rest).Scanned := by
  rw [stepArgumentValue]
  refine .ite scanned_report (.ite scanned_report ?_)
  split
  · exact scanned_acceptArgument (by rintro ⟨⟩)
  · exact scanned_report
  · split
    · exact scanned_acceptArgument (by rintro ⟨⟩)
    · exact scanned_acceptArgument (by rintro ⟨⟩)
    · split
      · exact scanned_acceptArgument (by rintro ⟨⟩)
      · split
        · exact .ite (scanned_beginPath (by rintro ⟨⟩)) scanned_report
        · exact scanned_unexpected

/-- Arguments that are missing or too many are reported. -/
theorem scanned_stepSeparator : (m.stepSeparator rest).Scanned := by
  rw [stepSeparator]
  refine .ite (.ite (scanned_emit ?_) (.ite scanned_report (scanned_emit ?_))) (.ite ?_ ?_)
  · rintro ⟨⟩
  · rintro ⟨⟩
  · exact .ite scanned_stepPipe (.ite scanned_report scanned_stepPipe)
  · split
    · exact scanned_close
    · exact scanned_report

-- ── conditions, loops and assignments ────────────────────────────────────────────

/-- Where no operator follows, the rest of the tag is reported. -/
theorem scanned_stepOperator : (m.stepOperator rest).Scanned := by
  rw [stepOperator]
  refine .ite scanned_close ?_
  split
  · exact scanned_emit (by rintro ⟨⟩)
  · exact .ite (scanned_emit (by rintro ⟨⟩)) scanned_report

/-- A condition is scanned from its first value on. -/
theorem scanned_stepControl (phase : ControlPhase) : (m.stepControl phase rest).Scanned := by
  cases phase with
  | start => exact .ite (scanned_expectValue (by rintro ⟨⟩)) scanned_close
  | condition => exact scanned_expectValue (by rintro ⟨⟩)
  | operator => exact scanned_stepOperator

omit [Grammar γ] in
/-- A range is a token of its own, valid or not. -/
theorem scanned_stepRange : (m.stepRange rest).Scanned := by
  unfold stepRange
  split
  · exact .ite (scanned_emit (by rintro ⟨⟩)) scanned_report
  · exact scanned_report

/-- A parameter that the tag does not declare is reported on its name. -/
theorem scanned_stepParameter : (m.stepParameter rest).Scanned := by
  rw [stepParameter]
  refine .ite scanned_close ?_
  split
  · split
    · exact scanned_emit (by rintro ⟨⟩)
    · exact scanned_emit (by rintro ⟨⟩)
    · exact scanned_report
  · exact scanned_unexpected

/-- Where the value of a parameter is missing, that is reported. -/
theorem scanned_stepParameterValue : (m.stepParameterValue r).Scanned := by
  rw [stepParameterValue]
  refine .ite (scanned_emit (by rintro ⟨⟩)) (.ite scanned_report (.ite scanned_report ?_))
  split
  · exact scanned_emit (by rintro ⟨⟩)
  · split
    · exact scanned_emit (by rintro ⟨⟩)
    · exact scanned_report

theorem scanned_stepLoop (phase : LoopPhase) : (m.stepLoop phase r).Scanned := by
  cases phase with
  | variableName =>
      simp only [stepLoop, stepLoopVariable]
      split
      · exact scanned_emit (by rintro ⟨⟩)
      · exact .ite scanned_report scanned_report
  | operator => exact .ite (scanned_emit (by rintro ⟨⟩)) (.ite scanned_report scanned_report)
  | collection =>
      simp only [stepLoop, stepCollection]
      refine .ite scanned_report (.ite scanned_stepRange ?_)
      split
      · exact scanned_emit (by rintro ⟨⟩)
      · exact scanned_report
  | parameter => exact scanned_stepParameter
  | parameterValue => exact scanned_stepParameterValue

theorem scanned_stepAssignment (phase : AssignmentPhase) :
    (m.stepAssignment phase rest).Scanned := by
  cases phase with
  | name =>
      simp only [stepAssignment, stepAssignedName]
      split
      · exact scanned_emit (by rintro ⟨⟩)
      · exact .ite scanned_report scanned_report
  | operator =>
      exact .ite (scanned_emit (by rintro ⟨⟩))
        (.ite (.ite scanned_report scanned_close) scanned_report)
  | value => exact scanned_expectValue (by rintro ⟨⟩)

-- ── paths ────────────────────────────────────────────────────────────────────────

theorem scanned_stepResume : (m.stepResume resume rest).Scanned := by
  cases resume with
  | filters => exact scanned_stepPipe
  | condition => exact scanned_stepOperator
  | parameters => exact scanned_stepParameter
  | arguments => exact scanned_stepSeparator

/-- A property that the object does not have is reported on its name. -/
theorem scanned_takeProperty {name : List Char} (hk : kind ≠ .skipped) :
    (m.takeProperty name kind n p).Scanned := by
  refine scanned_emit ?_
  split
  · rintro ⟨⟩
  · exact hk

/-- The bracket that closes a key is taken by itself. -/
theorem scanned_stepKeyEnd : (m.stepKeyEnd resume rest).Scanned := by
  rw [stepKeyEnd]
  refine .ite ?_ (.ite scanned_close scanned_report)
  split
  · exact scanned_report
  · exact scanned_emit (by rintro ⟨⟩)

/-- Where a path may go on, it does, or what follows it is scanned. -/
theorem scanned_stepMember : (m.stepMember resume r).Scanned := by
  unfold stepMember
  split
  · exact .ite (scanned_emit (by rintro ⟨⟩)) (.ite scanned_report scanned_report)
  · exact scanned_emit (by rintro ⟨⟩)
  · exact .ite scanned_stepKeyEnd (.ite scanned_report scanned_stepResume)

/-- A key of any kind is taken by itself. -/
theorem scanned_stepKey : (m.stepKey resume rest).Scanned := by
  rw [stepKey]
  refine .ite scanned_report (.ite scanned_report ?_)
  split
  · exact .ite scanned_report (scanned_takeProperty (by rintro ⟨⟩))
  · exact scanned_report
  · split
    · exact scanned_emit (by rintro ⟨⟩)
    · split
      · exact scanned_beginPath (by rintro ⟨⟩)
      · exact scanned_unexpected

theorem scanned_stepPath (phase : PathPhase) : (m.stepPath phase resume r).Scanned := by
  cases phase with
  | member => exact scanned_stepMember
  | dot =>
      simp only [stepPath, stepDot]
      split
      · exact scanned_takeProperty (by rintro ⟨⟩)
      · exact scanned_report
  | key => exact scanned_stepKey
  | keyEnd => exact scanned_stepKeyEnd

-- ── the name of the tag ──────────────────────────────────────────────────────────

/-- The name of a tag gives a token of the category of the tag, and none of these is passed over. -/
theorem scanned_takeStartTag {name : List Char} {d : Document} :
    (m.takeStartTag name d).Scanned := by
  have hk : (if m.isMisplaced then .invalid .misplacedTag else m.identity.1) ≠
      TokenKind.skipped := by
    split
    · rintro ⟨⟩
    · rw [identity]
      split
      · rintro ⟨⟩
      · split <;> rintro ⟨⟩
  exact fun he => hk (Event.token.inj he)

theorem scanned_stepTagName : (m.stepTagName r).Scanned := by
  rw [stepTagName]
  refine .ite scanned_report (.ite (scanned_emit (by rintro ⟨⟩)) ?_)
  split
  · exact scanned_report
  · exact .ite scanned_takeStartTag (scanned_emit (by rintro ⟨⟩))

/-- Behind the open delimiter a dash, a name or an end tag is taken. -/
theorem scanned_stepOpened : (m.stepOpened r).Scanned := by
  unfold stepOpened
  refine .ite (scanned_emit (by rintro ⟨⟩)) ?_
  split
  · exact scanned_emit (by rintro ⟨⟩)
  · split
    · split
      · rintro ⟨⟩
      · exact scanned_stepTagName
    · exact scanned_stepTagName

-- ── steps ────────────────────────────────────────────────────────────────────────

/-- When the reply passes over a part of the tag without scanning it, that part is everything up to
    where recovery stops, and what follows is the close delimiter. -/
def SkipsRest (m : Machine γ) (rest : List Char) (reply : Reply γ) : Prop :=
  reply.event = .token .skipped →
    0 < recoveryEnd m.tag.form rest ∧
      reply = m.emit .skipped (recoveryEnd m.tag.form rest) (.close false)

omit [Grammar γ] in
/-- A reply that scans passes over nothing. -/
theorem skipsRest_of_scanned {reply : Reply γ} (h : reply.Scanned) : m.SkipsRest rest reply :=
  fun he => absurd he h

/-- The step that passes over the rest of a tag does so up to where recovery stops; with nothing
    left there it closes the tag. -/
theorem skipsRest_skipRest : m.SkipsRest rest (m.skipRest rest) := by
  unfold skipRest
  by_cases hn : recoveryEnd m.tag.form rest = 0
  · simp only [hn, if_true]
    exact skipsRest_of_scanned scanned_close
  · simp only [hn, if_false]
    exact fun _ => ⟨Nat.pos_of_ne_zero hn, rfl⟩

/-- Named arguments are not scanned: they are passed over with the rest of the tag. -/
theorem skipsRest_stepArgument : m.SkipsRest rest (m.stepArgument rest) := by
  rw [stepArgument]
  split
  · exact skipsRest_skipRest
  · exact skipsRest_of_scanned scanned_stepArgumentValue
  · exact skipsRest_of_scanned scanned_close

/-- The arguments of an embedded tag are not scanned, either. -/
theorem skipsRest_stepEmbedded : m.SkipsRest rest (m.stepEmbedded rest) := by
  rw [stepEmbedded]
  split
  · exact skipsRest_skipRest
  · exact skipsRest_of_scanned scanned_close

theorem skipsRest_stepFilter (phase : FilterPhase) :
    m.SkipsRest rest (m.stepFilter phase rest) := by
  cases phase with
  | pipe => exact skipsRest_of_scanned scanned_stepPipe
  | name => exact skipsRest_of_scanned scanned_stepFilterName
  | colon => exact skipsRest_of_scanned scanned_stepColon
  | argument => exact skipsRest_stepArgument
  | separator => exact skipsRest_of_scanned scanned_stepSeparator

/-- The phases of unknown and plain tags, of embedded tags and of arguments are those that pass over
    the rest. -/
theorem skipsRest_stepPhase (hp : m.phase.inTag = true) :
    m.SkipsRest r.rest (m.stepPhase r) := by
  rw [stepPhase]
  cases h : m.phase with
  | literal | markup _ => rw [h] at hp; cases hp
  | opened => exact skipsRest_of_scanned scanned_stepOpened
  | outputValue => exact skipsRest_of_scanned (scanned_expectValue (by rintro ⟨⟩))
  | unknownTag | skipRest => exact skipsRest_skipRest
  | embedded => exact skipsRest_stepEmbedded
  | loop phase => exact skipsRest_of_scanned (scanned_stepLoop phase)
  | assignment phase => exact skipsRest_of_scanned (scanned_stepAssignment phase)
  | control phase => exact skipsRest_of_scanned (scanned_stepControl phase)
  | path phase resume => exact skipsRest_of_scanned (scanned_stepPath phase)
  | filter phase => exact skipsRest_stepFilter phase
  | close ending => exact skipsRest_of_scanned scanned_close

/-- Inside a tag a part that is passed over reaches as far as recovery does. -/
theorem skipsRest_step (hp : m.phase.inTag = true) : m.SkipsRest r.rest (m.step r) := by
  have hend : (m.stepEnd r.document.size).Scanned := by
    rw [stepEnd, if_pos hp]
    exact .ite scanned_report scanned_report
  have hliteral : m.phase ≠ .literal := by
    rintro h
    rw [h] at hp
    cases hp
  rw [step, if_neg hliteral]
  split
  · exact skipsRest_of_scanned hend
  · dsimp only
    split
    · exact skipsRest_of_scanned (scanned_emit (by rintro ⟨⟩))
    · split
      · exact skipsRest_of_scanned (scanned_emit (by rintro ⟨⟩))
      · exact skipsRest_stepPhase hp

/-- **Skipped parts.**  A part that is passed over without being scanned lies inside a tag, and
    reaches as far as recovery does. -/
theorem step_skipped (hm : m.BodySound) (h : (m.step r).event = .token .skipped) :
    m.phase.inTag = true ∧ 0 < recoveryEnd m.tag.form r.rest ∧
      m.step r = m.emit .skipped (recoveryEnd m.tag.form r.rest) (.close false) := by
  cases hp : m.phase.inTag with
  | true => exact ⟨rfl, skipsRest_step hp h⟩
  | false =>
      -- outside tags text is passed over as text, or as a body of its own kind
      obtain ⟨hr, hne⟩ := rest_ne_nil_of_outside hp (by rw [h]; rintro ⟨⟩)
      have hout := (step_outside m r hp hr).isOutside hm hne (by rw [h]; rintro ⟨⟩) h
      cases hout

end Machine

end TemplateScan
