import TemplateScan.Proofs.Scan.BodyEnd
import TemplateScan.Proofs.Scan.Lookahead
import TemplateScan.Proofs.Scan.Twins
import TemplateScan.Proofs.Text.Frames

/-! # Relocation — a step in the middle of a longer document

    A document may be part of a longer one.  A machine that scans the part is moved into the longer
    document by moving what it keeps of its places: the start of its tag, its brackets, and the
    spans of its blocks and reports.  Where no search leaves the part, the step of the machine that
    is moved is the step of the machine, moved.

    * **`Machine.moveTo`** — the machine with all its places moved.
    * **`Machine.Enclosed`** — no search of the next step goes beyond the text.
    * **`step_moveTo`** — the step of a machine that is moved. -/

namespace TemplateScan

open Text

-- ── what is moved ────────────────────────────────────────────────────────────────

/-- The token of a part of a document as one of the document. -/
def Token.moveTo (d : Document) (k : Nat) (t : Token) : Token :=
  { t with span := t.span.moveTo d k }

/-- The report about a part of a document as one about the document. -/
def Notice.moveTo (d : Document) (k : Nat) (n : Notice) : Notice :=
  { n with span := n.span.moveTo d k }

/-- The block of a part of a document as one of the document. -/
def Block.moveTo (d : Document) (k : Nat) (block : Block) : Block :=
  { block with span := block.span.moveTo d k }

namespace Brackets

/-- The brackets that stand `k` bytes further on. -/
def moveTo (k : Nat) (b : Brackets) : Brackets :=
  ⟨b.stack.map fun bracket => { bracket with offset := bracket.offset + k }⟩

variable {k : Nat}

@[simp] theorem isEmpty_moveTo (b : Brackets) : (b.moveTo k).isEmpty = b.isEmpty := by
  rw [isEmpty, isEmpty, moveTo, List.isEmpty_map]

@[simp] theorem pop_moveTo (b : Brackets) : (b.moveTo k).pop = b.pop.moveTo k := by
  rw [pop, pop, moveTo, moveTo, List.map_tail]

@[simp] theorem markDynamic_moveTo (b : Brackets) :
    (b.moveTo k).markDynamic = b.markDynamic.moveTo k := by
  obtain ⟨stack⟩ := b
  cases stack <;> rfl

theorem innermost?_moveTo (b : Brackets) : (b.moveTo k).innermost? =
    b.innermost?.map fun bracket => { bracket with offset := bracket.offset + k } := by
  rw [innermost?, innermost?, moveTo, List.head?_map]

end Brackets

/-- The move of the cursor in the longer document. -/
def Extent.moveTo (k : Nat) : Extent → Extent
  | .hold => .hold
  | .take n => .take n
  | .takeFrom start n => .takeFrom (start + k) n

/-- The machine with its places moved. -/
def Machine.moveTo {γ : Type} (d : Document) (k : Nat) (m : Machine γ) : Machine γ :=
  { m with
    tag := { m.tag with start := m.tag.start + k }
    brackets := m.brackets.moveTo k
    blocks := m.blocks.map (Block.moveTo d k)
    notices := m.notices.map (Notice.moveTo d k) }

/-- The reply with its places moved. -/
def Reply.moveTo {γ : Type} (d : Document) (k : Nat) (reply : Reply γ) : Reply γ where
  event := reply.event
  extent := reply.extent.moveTo k
  machine := reply.machine.moveTo d k

/-- The cursor moves over the same characters in both documents, and an earlier start of the token
    moves with the text. -/
theorem Text.Reader.Framed.apply {front back : List Char} {r r' : Reader} {e : Extent}
    (h : r.Framed front back r') (he : e.count ≤ r.rest.length) :
    (e.apply r).Framed front back ((e.moveTo (byteSize front)).apply r') := by
  cases e with
  | hold => exact h
  | take n => exact h.capture he
  | takeFrom start n => exact (h.capture he).rewindStart start

namespace Machine

variable {γ : Type} {d : Document} {k : Nat} {m : Machine γ} {text next : List Char} {r : Reader}

@[simp] theorem phase_moveTo : (m.moveTo d k).phase = m.phase := rfl
@[simp] theorem grammar_moveTo : (m.moveTo d k).grammar = m.grammar := rfl
@[simp] theorem body_moveTo : (m.moveTo d k).body = m.body := rfl
@[simp] theorem form_moveTo : (m.moveTo d k).tag.form = m.tag.form := rfl
@[simp] theorem isEmpty_brackets_moveTo :
    (m.moveTo d k).brackets.isEmpty = m.brackets.isEmpty :=
  Brackets.isEmpty_moveTo m.brackets

/-- The two replies differ in their places only. -/
def Moved (d : Document) (k : Nat) (reply reply' : Reply γ) : Prop :=
  reply' = reply.moveTo d k

/-- Two replies chosen by the same condition differ in their places only, when both choices do. -/
theorem Moved.ite {c : Prop} [Decidable c] {a b a' b' : Reply γ} (ha : Moved d k a a')
    (hb : Moved d k b b') : Moved d k (if c then a else b) (if c then a' else b') := by
  split
  · exact ha
  · exact hb

variable [Grammar γ]

omit [Grammar γ] in
theorem pop_moveTo : ({ m.moveTo d k with brackets := (m.moveTo d k).brackets.pop } : Machine γ) =
    ({ m with brackets := m.brackets.pop } : Machine γ).moveTo d k := by
  show ({ m.moveTo d k with brackets := (m.brackets.moveTo k).pop } : Machine γ) = _
  rw [Brackets.pop_moveTo]
  rfl

omit [Grammar γ] in
theorem markDynamic_moveTo :
    ({ m.moveTo d k with brackets := (m.moveTo d k).brackets.markDynamic } : Machine γ) =
      ({ m with brackets := m.brackets.markDynamic } : Machine γ).moveTo d k := by
  show ({ m.moveTo d k with brackets := (m.brackets.moveTo k).markDynamic } : Machine γ) = _
  rw [Brackets.markDynamic_moveTo]
  rfl

-- ── inside a tag ─────────────────────────────────────────────────────────────────

section

variable (h : Bounded m.tag.form.stringStops text next)
include h

/-- The brackets still open, the dash and the close delimiter are the same ones in the longer text.
    -/
theorem close_moveTo (ending : Bool) :
    Moved d k (m.close ending text) ((m.moveTo d k).close ending (text ++ next)) := by
  have hs := h.sealed
  rw [close, close, isEmpty_brackets_moveTo, form_moveTo, hs.dashCloser_append,
    hs.spacedDash?_append, hs.closer_append, h.tagEnd?_append, pop_moveTo]
  refine .ite rfl (.ite rfl ?_)
  split
  · rfl
  · refine .ite rfl ?_
    split
    · next n hn =>
        rw [Bounded.take_tagEnd_append hn next]
        rfl
    · rfl

omit [Grammar γ] in
/-- Recovery stops where it did, because it stops in the part. -/
theorem recover_moveTo (fault : Fault) :
    Moved d k (m.recover fault text) ((m.moveTo d k).recover fault (text ++ next)) := by
  rw [recover, recover, form_moveTo, h.recoveryEnd_append]
  rfl

/-- What is out of place reaches up to the same end of the tag. -/
theorem unexpected_moveTo :
    Moved d k (m.unexpected text) ((m.moveTo d k).unexpected (text ++ next)) := by
  rw [unexpected, unexpected, form_moveTo, h.tagEnd?_append]
  split
  · exact close_moveTo h false
  · next n hn =>
      rw [Bounded.take_tagEnd_append hn next]
      exact recover_moveTo h _

/-- What is passed over reaches as far as before. -/
theorem skipRest_moveTo : Moved d k (m.skipRest text) ((m.moveTo d k).skipRest (text ++ next)) := by
  rw [skipRest, skipRest, form_moveTo, h.recoveryEnd_append]
  exact .ite (close_moveTo h false) rfl

-- ── values ───────────────────────────────────────────────────────────────────────

/-- The value that comes first lies within the part, whatever its kind. -/
theorem value?_moveTo (bare : TokenKind) (resume : Resume) :
    (m.moveTo d k).value? bare resume (text ++ next) =
      (m.value? bare resume text).map (Reply.moveTo d k) := by
  have hs := h.sealed
  rw [value?, value?, form_moveTo, h.string?_append, hs.number?_append, hs.boolean?_append,
    hs.identifier?_append]
  split
  · rfl
  · rfl
  · split
    · rfl
    · split
      · rfl
      · rw [Option.map_map]
        rfl

/-- Where a value is expected, the same one is taken or the same fault is reported. -/
theorem expectValue_moveTo (missing : Fault) (bare : TokenKind) (resume : Resume) :
    Moved d k (m.expectValue missing bare resume text)
      ((m.moveTo d k).expectValue missing bare resume (text ++ next)) := by
  rw [expectValue, expectValue, form_moveTo, h.sealed.atClose_append, value?_moveTo h]
  refine .ite rfl ?_
  cases m.value? bare resume text with
  | none => exact unexpected_moveTo h
  | some reply => rfl

-- ── assignments and conditions ───────────────────────────────────────────────────

theorem stepAssignment_moveTo (phase : AssignmentPhase) :
    Moved d k (m.stepAssignment phase text)
      ((m.moveTo d k).stepAssignment phase (text ++ next)) := by
  have hs := h.sealed
  cases phase with
  | name =>
      rw [stepAssignment, stepAssignment, stepAssignedName, stepAssignedName,
        hs.identifier?_append, form_moveTo, hs.atClose_append]
      split
      · rfl
      · exact .ite rfl (recover_moveTo h _)
  | operator =>
      rw [stepAssignment, stepAssignment, stepAssignmentOperator, stepAssignmentOperator,
        hs.head?_append, form_moveTo, hs.atClose_append]
      exact .ite rfl (.ite (.ite rfl (close_moveTo h false)) (recover_moveTo h _))
  | value => exact expectValue_moveTo h _ _ _

/-- An operator of a condition ends within the part. -/
theorem stepOperator_moveTo :
    Moved d k (m.stepOperator text) ((m.moveTo d k).stepOperator (text ++ next)) := by
  have hs := h.sealed
  rw [stepOperator, stepOperator, form_moveTo, hs.atClose_append, hs.operator?_append,
    hs.head?_append]
  refine .ite (close_moveTo h false) ?_
  split
  · rfl
  · exact .ite rfl (recover_moveTo h _)

theorem stepControl_moveTo (phase : ControlPhase) :
    Moved d k (m.stepControl phase text) ((m.moveTo d k).stepControl phase (text ++ next)) := by
  cases phase with
  | start => exact .ite (expectValue_moveTo h _ _ _) (close_moveTo h false)
  | condition => exact expectValue_moveTo h _ _ _
  | operator => exact stepOperator_moveTo h

-- ── loops ────────────────────────────────────────────────────────────────────────

omit [Grammar γ] in
/-- The parenthesis that ends a range is found within the part, or none is. -/
theorem stepRange_moveTo :
    Moved d k (m.stepRange text) ((m.moveTo d k).stepRange (text ++ next)) := by
  rw [stepRange, stepRange, form_moveTo, h.range?_append]
  split
  · next i hi =>
      have hfit := indexOf?_add_length_le (indexBefore?_eq_some_iff.mp hi).1
      rw [List.take_append_of_le_length (Nat.le_of_succ_le hfit)]
      exact .ite rfl rfl
  · exact recover_moveTo h _

/-- The name of a parameter ends within the part. -/
theorem stepParameter_moveTo :
    Moved d k (m.stepParameter text) ((m.moveTo d k).stepParameter (text ++ next)) := by
  have hs := h.sealed
  rw [stepParameter, stepParameter, form_moveTo, hs.atClose_append, hs.identifier?_append]
  refine .ite (close_moveTo h false) ?_
  split
  · rw [grammar_moveTo]
    split <;> rfl
  · exact unexpected_moveTo h

/-- The collection of a loop, a range or a path, is scanned as before. -/
theorem stepCollection_moveTo :
    Moved d k (m.stepCollection text) ((m.moveTo d k).stepCollection (text ++ next)) := by
  have hs := h.sealed
  rw [stepCollection, stepCollection, form_moveTo, hs.atClose_append, hs.head?_append,
    hs.identifier?_append]
  refine .ite rfl (.ite (stepRange_moveTo h) ?_)
  split
  · rfl
  · exact recover_moveTo h _

-- ── filters ──────────────────────────────────────────────────────────────────────

/-- A pipe is a single character, and what is out of place ends in the part. -/
theorem stepPipe_moveTo : Moved d k (m.stepPipe text) ((m.moveTo d k).stepPipe (text ++ next)) := by
  have hs := h.sealed
  rw [stepPipe, stepPipe, form_moveTo, hs.atClose_append, hs.head?_append]
  exact .ite rfl (.ite (close_moveTo h false) (unexpected_moveTo h))

/-- The name of a filter ends within the part. -/
theorem stepFilterName_moveTo :
    Moved d k (m.stepFilterName text) ((m.moveTo d k).stepFilterName (text ++ next)) := by
  have hs := h.sealed
  rw [stepFilterName, stepFilterName, hs.identifier?_append, form_moveTo, hs.atClose_append]
  split
  · exact .ite rfl rfl
  · exact .ite rfl (recover_moveTo h _)

/-- The character behind the name of a filter decides as before. -/
theorem stepColon_moveTo :
    Moved d k (m.stepColon text) ((m.moveTo d k).stepColon (text ++ next)) := by
  rw [stepColon, stepColon, h.sealed.head?_append]
  refine .ite (.ite rfl (recover_moveTo h _)) (.ite rfl ?_)
  exact stepPipe_moveTo (m := m.forgetFilter) h

/-- The value of an argument lies within the part, and is accepted or rejected as before. -/
theorem stepArgumentValue_moveTo :
    Moved d k (m.stepArgumentValue text)
      ((m.moveTo d k).stepArgumentValue (text ++ next)) := by
  have hs := h.sealed
  rw [stepArgumentValue, stepArgumentValue, form_moveTo, hs.atClose_append, hs.head?_append,
    h.string?_append, hs.number?_append, hs.boolean?_append, hs.identifier?_append]
  refine .ite rfl (.ite rfl ?_)
  split
  · rfl
  · rfl
  · split
    · rfl
    · rfl
    · split
      · rfl
      · split
        · exact .ite rfl rfl
        · exact unexpected_moveTo h

/-- An argument is scanned as its rule says, which moves do not change. -/
theorem stepArgument_moveTo :
    Moved d k (m.stepArgument text) ((m.moveTo d k).stepArgument (text ++ next)) := by
  rw [stepArgument, stepArgument, grammar_moveTo]
  split
  · exact skipRest_moveTo h
  · exact stepArgumentValue_moveTo h
  · exact close_moveTo h false

/-- What separates two arguments, or ends them, is seen as before. -/
theorem stepSeparator_moveTo :
    Moved d k (m.stepSeparator text) ((m.moveTo d k).stepSeparator (text ++ next)) := by
  have hs := h.sealed
  rw [stepSeparator, stepSeparator, form_moveTo, hs.atClose_append, hs.head?_append,
    h.tagEnd?_append]
  refine .ite (.ite rfl (.ite (recover_moveTo h _) rfl)) (.ite (.ite ?_ (.ite rfl ?_)) ?_)
  · exact stepPipe_moveTo (m := m.forgetFilter) h
  · exact stepPipe_moveTo (m := m.nextArgument.forgetFilter) h
  · split
    · exact close_moveTo h false
    · exact recover_moveTo h _

theorem stepFilter_moveTo (phase : FilterPhase) :
    Moved d k (m.stepFilter phase text) ((m.moveTo d k).stepFilter phase (text ++ next)) := by
  cases phase with
  | pipe => exact stepPipe_moveTo h
  | name => exact stepFilterName_moveTo h
  | colon => exact stepColon_moveTo h
  | argument => exact stepArgument_moveTo h
  | separator => exact stepSeparator_moveTo h

-- ── paths ────────────────────────────────────────────────────────────────────────

/-- Behind a value the scan goes on as before, whatever it goes back to. -/
theorem stepResume_moveTo (resume : Resume) :
    Moved d k (m.stepResume resume text) ((m.moveTo d k).stepResume resume (text ++ next)) := by
  cases resume with
  | filters => exact stepPipe_moveTo h
  | condition => exact stepOperator_moveTo h
  | parameters => exact stepParameter_moveTo h
  | arguments => exact stepSeparator_moveTo h

/-- The bracket that is closed is the same one, with the same mark. -/
theorem stepKeyEnd_moveTo (resume : Resume) :
    Moved d k (m.stepKeyEnd resume text)
      ((m.moveTo d k).stepKeyEnd resume (text ++ next)) := by
  have hs := h.sealed
  have hinner : (m.moveTo d k).brackets.innermost? =
      m.brackets.innermost?.map fun bracket => { bracket with offset := bracket.offset + k } :=
    Brackets.innermost?_moveTo m.brackets
  rw [stepKeyEnd, stepKeyEnd, hs.head?_append, form_moveTo, hs.atClose_append, h.tagEnd?_append,
    hinner]
  refine .ite ?_ (.ite (close_moveTo h false) (recover_moveTo h _))
  cases m.brackets.innermost? with
  | none => exact recover_moveTo h _
  | some bracket =>
      obtain ⟨offset, dynamic⟩ := bracket
      cases dynamic with
      | false => exact congrArg (Machine.emit · .closeBracket 1 (.path .member resume)) pop_moveTo
      | true =>
          exact congrArg (Machine.emit · .closeBracket 1 (.path .member resume))
            (pop_moveTo (m := m.releaseObject))

/-- The name of a property ends within the part. -/
theorem stepDot_moveTo (resume : Resume) :
    Moved d k (m.stepDot resume text) ((m.moveTo d k).stepDot resume (text ++ next)) := by
  rw [stepDot, stepDot, h.sealed.identifier?_append]
  split
  · rfl
  · exact recover_moveTo h _

/-- The key in a bracket, a string, a number or a path, is taken as before. -/
theorem stepKey_moveTo (resume : Resume) :
    Moved d k (m.stepKey resume text) ((m.moveTo d k).stepKey resume (text ++ next)) := by
  have hs := h.sealed
  rw [stepKey, stepKey, form_moveTo, hs.atClose_append, hs.head?_append, h.string?_append,
    hs.number?_append, hs.identifier?_append]
  refine .ite rfl (.ite rfl ?_)
  split
  · exact .ite rfl rfl
  · rfl
  · dsimp only
    split
    · rfl
    · split
      · exact congrArg (fun m : Machine γ => m.beginPath _ _ resume)
          (markDynamic_moveTo (m := m.releaseObject))
      · exact unexpected_moveTo (m := m.releaseObject) h

end

-- ── inside a tag, at a place ─────────────────────────────────────────────────────

section

variable {front back : List Char} {r' : Reader} (hf : r.Framed front back r')
  (h : Bounded m.tag.form.stringStops r.rest back)
include hf

omit [Grammar γ] in
/-- Where something other than blanks stands behind the cursor, no more is looked at. -/
theorem afterColon_framed (hb : ∃ c ∈ r.behind, isBlank c = false) :
    afterColon r' = afterColon r := by
  obtain ⟨c, hc, hblank⟩ := hb
  have hne : (r.behind.dropWhile isBlank).isEmpty = false := by
    rw [List.isEmpty_eq_false_iff]
    intro hnil
    have hrun := List.takeWhile_append_dropWhile (p := isBlank) (l := r.behind)
    rw [hnil, List.append_nil] at hrun
    rw [← hrun] at hc
    have hall := List.all_eq_true.mp List.all_takeWhile c hc
    exact absurd (hblank.symm.trans hall) Bool.false_ne_true
  rw [afterColon, afterColon, hf.behind, List.dropWhile_append, hne, if_neg Bool.false_ne_true]
  cases hrun : r.behind.dropWhile isBlank with
  | nil =>
      rw [hrun] at hne
      cases hne
  | cons d run => rfl

include h

/-- A loop is scanned as before.  The one step that looks at what stands before the cursor finds a
    character there that is not blank, and so looks at the part alone. -/
theorem stepLoop_moveTo (hb : ∃ c ∈ r.behind, isBlank c = false) (phase : LoopPhase) :
    Moved d k (m.stepLoop phase r) ((m.moveTo d k).stepLoop phase r') := by
  have hs := h.sealed
  cases phase with
  | variableName =>
      rw [stepLoop, stepLoop, stepLoopVariable, stepLoopVariable, hf.rest, hs.identifier?_append,
        form_moveTo, hs.atClose_append]
      split
      · rfl
      · exact .ite rfl (recover_moveTo h _)
  | operator =>
      rw [stepLoop, stepLoop, stepLoopOperator, stepLoopOperator, hf.rest,
        hs.braced.startsWithWord_append (by decide), form_moveTo, hs.atClose_append]
      exact .ite rfl (.ite rfl (recover_moveTo h _))
  | collection =>
      rw [stepLoop, stepLoop, hf.rest]
      exact stepCollection_moveTo h
  | parameter =>
      rw [stepLoop, stepLoop, hf.rest]
      exact stepParameter_moveTo h
  | parameterValue =>
      rw [stepLoop, stepLoop, stepParameterValue, stepParameterValue, afterColon_framed hf hb,
        hf.rest, hs.head?_append, form_moveTo, hs.atClose_append, hs.number?_append,
        hs.identifier?_append]
      refine .ite rfl (.ite rfl (.ite (recover_moveTo h _) ?_))
      split
      · rfl
      · split
        · rfl
        · exact recover_moveTo h _

/-- Where a path may go on, a bracket that opens keeps the offset it has in the longer document. -/
theorem stepMember_moveTo (resume : Resume) :
    Moved d (byteSize front) (m.stepMember resume r)
      ((m.moveTo d (byteSize front)).stepMember resume r') := by
  have hs := h.sealed
  have hend : Moved d (byteSize front)
      (if !m.brackets.isEmpty then m.stepKeyEnd resume r.rest
        else if r.rest.head? = some ']' then m.recover .invalidCharacter r.rest
        else m.releaseObject.stepResume resume r.rest)
      (if !(m.moveTo d (byteSize front)).brackets.isEmpty then
          (m.moveTo d (byteSize front)).stepKeyEnd resume (r.rest ++ back)
        else if (r.rest ++ back).head? = some ']' then
          (m.moveTo d (byteSize front)).recover .invalidCharacter (r.rest ++ back)
        else (m.moveTo d (byteSize front)).releaseObject.stepResume resume (r.rest ++ back)) := by
    rw [isEmpty_brackets_moveTo, hs.head?_append]
    refine .ite (stepKeyEnd_moveTo h resume) (.ite (recover_moveTo h _) ?_)
    exact stepResume_moveTo (m := m.releaseObject) h resume
  rw [stepMember, stepMember, hf.rest]
  cases hrest : r.rest with
  | nil =>
      rw [hrest] at hend hs
      rcases hs with rfl | hclosed
      · exact hend
      · exact absurd hclosed.two_le_length (by simp)
  | cons c tail =>
      rw [hrest] at hend hs h
      by_cases hdot : c = '.'
      · subst hdot
        have htail := hs.tail rfl
        simp only [List.cons_append]
        rw [htail.startsIdentifier_append, htail.head?_append]
        exact .ite rfl (.ite (recover_moveTo h _) (recover_moveTo h _))
      · by_cases hopen : c = '['
        · -- the one step that writes its own offset down
          subst hopen
          simp only [List.cons_append]
          rw [hf.offset]
          rfl
        · simpa [hdot, hopen] using hend

theorem stepPath_moveTo (phase : PathPhase) (resume : Resume) :
    Moved d (byteSize front) (m.stepPath phase resume r)
      ((m.moveTo d (byteSize front)).stepPath phase resume r') := by
  cases phase with
  | member => exact stepMember_moveTo hf h resume
  | dot =>
      rw [stepPath, stepPath, hf.rest]
      exact stepDot_moveTo h resume
  | key =>
      rw [stepPath, stepPath, hf.rest]
      exact stepKey_moveTo h resume
  | keyEnd =>
      rw [stepPath, stepPath, hf.rest]
      exact stepKeyEnd_moveTo h resume

end

-- ── the name of a tag ────────────────────────────────────────────────────────────

omit [Grammar γ] in
/-- The block that an end tag closes has the same number. -/
theorem nearest?_moveTo (name : String) :
    ((m.moveTo d k).blocks.nearest? name).map Block.node =
      (m.blocks.nearest? name).map Block.node := by
  show ((m.blocks.map (Block.moveTo d k)).nearest? name).map Block.node = _
  rw [Blocks.nearest?_map (f := Block.moveTo d k) fun _ => rfl, Option.map_map]
  rfl

omit [Grammar γ] in
/-- The block that is closed is the same one, and the others are moved. -/
theorem closed_moveTo (name : String) (p : Phase) :
    ({ m.moveTo d k with
        phase := p
        pair := ((m.moveTo d k).blocks.nearest? name).map Block.node
        blocks := (m.moveTo d k).blocks.close name } : Machine γ) =
      ({ m with
        phase := p
        pair := (m.blocks.nearest? name).map Block.node
        blocks := m.blocks.close name } : Machine γ).moveTo d k := by
  have hclose : (m.moveTo d k).blocks.close name =
      (m.blocks.close name).map (Block.moveTo d k) :=
    (Blocks.map_close (f := Block.moveTo d k) (fun _ => rfl) m.blocks name).symm
  rw [nearest?_moveTo, hclose]
  rfl

omit [Grammar γ] in
/-- An end tag reaches back to the start of its tag, which has moved with it. -/
theorem takeEndTag_moveTo (name block : List Char) :
    Moved d k (m.takeEndTag name block) ((m.moveTo d k).takeEndTag name block) := by
  rw [Moved, takeEndTag, takeEndTag, closed_moveTo]
  rfl

omit [Grammar γ] in
/-- The block that a tag opens has its span in the longer document. -/
theorem openedBlock_moveTo (name : List Char) (d' : Document) :
    (m.moveTo d k).openedBlock name d = (m.openedBlock name d').moveTo d k := by
  have hstop : m.tag.start + k + m.tag.form.opener.length =
      m.tag.start + m.tag.form.opener.length + k := Nat.add_right_comm _ _ _
  show (⟨_, _, d.spanOf (m.tag.start + k) (m.tag.start + k + m.tag.form.opener.length)⟩ : Block) = _
  rw [hstop]
  rfl

/-- A tag stands in the right place after the move exactly if it did before. -/
theorem takeStartTag_moveTo (name : List Char) (d' : Document) :
    Moved d k (m.takeStartTag name d') ((m.moveTo d k).takeStartTag name d) := by
  have hplace : (m.moveTo d k).isMisplaced = m.isMisplaced := by
    rw [isMisplaced, isMisplaced]
    show (_ && !Grammar.allowsParent m.grammar (m.blocks.map (Block.moveTo d k)).parent?) = _
    rw [Blocks.parent?_map (f := Block.moveTo d k) fun _ => rfl]
    rfl
  have hblocks : (if Grammar.isBlock m.grammar then
        (m.moveTo d k).blocks.push ((m.moveTo d k).openedBlock name d)
      else (m.moveTo d k).blocks) =
      (if Grammar.isBlock m.grammar then m.blocks.push (m.openedBlock name d')
        else m.blocks).map (Block.moveTo d k) := by
    split
    · rw [openedBlock_moveTo name d', Blocks.map_push]
      rfl
    · rfl
  rw [Moved, takeStartTag, takeStartTag, hplace, grammar_moveTo, hblocks]
  rfl

section

variable {front back : List Char} {r' : Reader} (hf : r.Framed front back r')
  (h : Bounded m.tag.form.stringStops r.rest back)
include hf h

/-- The name of a tag ends within the part, and means what it did. -/
theorem stepTagName_moveTo :
    Moved r'.document k (m.stepTagName r) ((m.moveTo r'.document k).stepTagName r') := by
  have hs := h.sealed
  rw [stepTagName, stepTagName, form_moveTo, hf.rest, hs.atClose_append, hs.head?_append,
    hs.identifier?_append, h.recoveryEnd_append]
  refine .ite rfl (.ite rfl ?_)
  split
  · exact recover_moveTo h _
  · next name _ =>
      dsimp only
      refine .ite ?_ rfl
      exact takeStartTag_moveTo
        (m := { m with grammar := Grammar.resolve (Grammar.setExpect m.grammar .tag) _ }) name _

/-- A trim dash is taken directly behind the open delimiter, wherever that is. -/
theorem stepOpened_moveTo :
    Moved r'.document (byteSize front) (m.stepOpened r)
      ((m.moveTo r'.document (byteSize front)).stepOpened r') := by
  have hs := h.sealed
  -- the cursor and the start of the tag have moved by the same number of bytes
  have hplace : (r'.offset = (m.moveTo r'.document (byteSize front)).tag.start +
      m.tag.form.opener.length) ↔ r.offset = m.tag.start + m.tag.form.opener.length := by
    show _ = m.tag.start + byteSize front + _ ↔ _
    rw [hf.offset]
    omega
  have hname := stepTagName_moveTo (k := byteSize front) hf h
  rw [stepOpened, stepOpened, form_moveTo, hf.rest, hs.head?_append, hs.identifier?_append]
  simp only [hplace]
  refine .ite rfl ?_
  split
  · rfl
  · split
    · split
      · exact takeEndTag_moveTo _ _
      · exact hname
    · exact hname

end

-- ── outside tags ─────────────────────────────────────────────────────────────────

/-- A tag that opens keeps the offset of its open delimiter in the longer document. -/
theorem openTag_moveTo (form : TagForm) (offset : Nat) :
    Moved d k (m.openTag form offset) ((m.moveTo d k).openTag form (offset + k)) := by
  cases form <;> rfl

section

variable (h : Bounded openers text next)
include h

omit [Grammar γ] in
/-- An open delimiter at the cursor lies within the part. -/
theorem startsWithOpener_append : startsWithOpener (text ++ next) = startsWithOpener text := by
  rw [startsWithOpener, startsWithOpener]
  simp only [openers, List.any_cons, List.any_nil]
  rw [h.sealed.isPrefixOf_short (by decide), h.sealed.isPrefixOf_short (by decide)]

omit [Grammar γ] in
/-- Where no open delimiter stands, a brace comes later, unless nothing goes on. -/
theorem brace_mem_tail (hno : startsWithOpener text = false) :
    next = [] ∨ '{' ∈ text.tail := by
  refine h.imp_right ?_
  rintro ⟨-, s, hs, i, hi⟩
  have hbrace : ['{'] <+: s := by
    simp only [openers, TagForm.opener, List.mem_cons, List.not_mem_nil, or_false] at hs
    rcases hs with rfl | rfl
    · exact ⟨['{'], rfl⟩
    · exact ⟨['%'], rfl⟩
  cases i with
  | zero =>
      have hat : startsWithOpener text = true :=
        List.any_eq_true.mpr ⟨s, hs, List.isPrefixOf_iff_prefix.mpr hi⟩
      exact absurd (hno.symm.trans hat) Bool.false_ne_true
  | succ i =>
      rw [← List.drop_tail] at hi
      exact List.mem_of_mem_drop ((hbrace.trans hi).subset (List.mem_singleton_self _))

/-- Literal text is passed over up to a brace or a bracket of the part. -/
theorem passText_moveTo (hno : startsWithOpener text = false) :
    Moved d k (m.passText text) ((m.moveTo d k).passText (text ++ next)) := by
  have hlength : ∀ associates, literalLength associates (text ++ next) =
      literalLength associates text := by
    intro associates
    rcases brace_mem_tail h hno with rfl | hmem
    · rw [List.append_nil]
    · cases text with
      | nil => exact absurd hmem List.not_mem_nil
      | cons c cs =>
          have hrun : (cs ++ next).takeWhile (fun c => !interrupts associates c) =
              cs.takeWhile fun c => !interrupts associates c :=
            takeWhile_append_of_mem hmem rfl
          rw [literalLength, literalLength, List.cons_append, List.tail_cons, List.tail_cons, hrun]
  rw [passText, passText, hlength]
  rfl

omit [Grammar γ] in
/-- A value without quotes ends at the open delimiter in the part, at the latest. -/
theorem bareValue_append : bareValue (text ++ next) = bareValue text := by
  rcases h with rfl | ⟨-, hopen⟩
  · rw [List.append_nil]
  · rw [bareValue, bareValue, List.takeWhile_append]
    split
    · next hlen =>
        rw [(List.takeWhile_prefix _).eq_of_length hlen,
          Bounded.beforeStops_append (fun _ => length_of_mem_openers) hopen]
    · rfl

end

section

variable {front back : List Char} {r' : Reader} (hf : r.Framed front back r')
  (h : Bounded openers r.rest back)
include hf h

omit h in
/-- An element that begins becomes a block, whose span is moved. -/
theorem stepElement_moveTo {name tail : List Char} (hr : r.rest = '<' :: tail)
    (hn : identifier? tail = some name) :
    Moved r'.document (byteSize front) (m.stepElement name r)
      ((m.moveTo r'.document (byteSize front)).stepElement name r') := by
  have hlength : 1 + name.length ≤ r.rest.length := by
    rw [hr, List.length_cons, Nat.add_comm]
    exact Nat.succ_le_succ (identifier?_eq_some hn).1.length_le
  rw [stepElement, stepElement, hf.offset, hf.offsetAt hlength, grammar_moveTo]
  refine .ite ?_ rfl
  rw [Moved]
  simp only [emit, Reply.moveTo, moveTo, Extent.moveTo, Blocks.map_push]
  rfl

omit hf h in
/-- An element that ends closes the block that it closed before. -/
theorem stepEndElement_moveTo (name : List Char) :
    Moved d k (m.stepEndElement name) ((m.moveTo d k).stepEndElement name) := by
  rw [stepEndElement, stepEndElement, grammar_moveTo]
  refine .ite ?_ rfl
  exact congrArg (fun m : Machine γ => (⟨.token .endMarkupName, .take (2 + name.length), m⟩ :
    Reply γ)) (closed_moveTo _ _)

/-- Names of elements end within the part, as all names do. -/
theorem stepMarkupText_moveTo (hno : startsWithOpener r.rest = false) :
    Moved r'.document (byteSize front) (m.stepMarkupText r)
      ((m.moveTo r'.document (byteSize front)).stepMarkupText r') := by
  have hs := h.sealed
  have hpass := passText_moveTo (m := m) (d := r'.document) (k := byteSize front) h hno
  rw [← hf.rest] at hpass
  by_cases hh : r.rest.head? = some '<'
  · obtain ⟨tail, hr⟩ := List.head?_eq_some_iff.mp hh
    have hr' : r'.rest = '<' :: (tail ++ back) := by rw [hf.rest, hr, List.cons_append]
    rw [hr] at hs
    have htail := hs.tail rfl
    by_cases he : tail.head? = some '/'
    · obtain ⟨tail, rfl⟩ := List.head?_eq_some_iff.mp he
      rw [List.cons_append] at hr'
      rw [stepMarkupText_endElement hr, stepMarkupText_endElement hr',
        (htail.tail rfl).identifier?_append]
      split
      · exact stepEndElement_moveTo _
      · exact hpass
    · rw [stepMarkupText_element hr he, stepMarkupText_element hr' (by rwa [htail.head?_append]),
        htail.identifier?_append]
      split
      · next hn => exact stepElement_moveTo hf hr hn
      · exact hpass
  · rw [stepMarkupText_of_ne hh, stepMarkupText_of_ne (by rwa [hf.rest, hs.head?_append])]
    exact hpass

end

-- ── bodies ───────────────────────────────────────────────────────────────────────

/-- An end tag of the body is in the text, unless nothing follows it. -/
def Ends (body : Body) (text next : List Char) : Prop :=
  next = [] ∨ EndsClosed text ∧ '}' ∉ body.name ∧ ∃ n, endTagAt? body.name text = some n

/-- An end tag is looked for up to the brace with which it is closed. -/
theorem startsEndTag_append {name : List Char} (h : Sealed text next) (hn : '}' ∉ name) :
    startsEndTag name (text ++ next) = startsEndTag name text := by
  rw [startsEndTag, startsEndTag, h.isPrefixOf_short (by decide)]
  by_cases hpre : (TagForm.opener .statement).isPrefixOf text = true
  · obtain ⟨tail, rfl⟩ := List.isPrefixOf_iff_prefix.mp hpre
    have htail : Braced tail next := (h.braced.tail (by decide)).tail (by decide)
    have hafter := htail.dropWhile (p := (· == '-')) rfl
    have hword : '}' ∉ "end".toList ++ name := by
      intro hmem
      rcases List.mem_append.mp hmem with hmem | hmem
      · revert hmem
        decide
      · exact hn hmem
    rw [List.append_assoc, List.drop_left, List.drop_left, htail.dropWhile_append rfl, trimStart,
      trimStart, hafter.dropWhile_append rfl, (hafter.dropWhile rfl).startsWithWord_append hword]
  · rw [Bool.not_eq_true] at hpre
    rw [hpre, Bool.false_and, Bool.false_and]

/-- The first end tag of the part is the first end tag of the longer text. -/
theorem endTagAt?_append {name : List Char} {n : Nat} (hc : EndsClosed text) (hn : '}' ∉ name)
    (h : endTagAt? name text = some n) (next : List Char) :
    endTagAt? name (text ++ next) = some n := by
  obtain ⟨hat, hbefore⟩ := endTagAt?_eq_some_iff.mp h
  have hlen : n + 2 ≤ text.length := by
    rw [startsEndTag, Bool.and_eq_true, List.isPrefixOf_iff_prefix] at hat
    exact add_length_le_of_prefix hat.1 (by decide)
  -- up to there the text still ends with a close delimiter
  have hsame : ∀ i ≤ n, startsEndTag name ((text ++ next).drop i) =
      startsEndTag name (text.drop i) := by
    intro i hi
    rw [List.drop_append_of_le_length (by omega)]
    refine startsEndTag_append (Or.inr ?_) hn
    rw [← List.take_append_drop i text] at hc
    exact hc.of_append _ (by rw [List.length_drop]; omega)
  refine endTagAt?_eq_some_iff.mpr ⟨?_, fun i hi => ?_⟩
  · rw [hsame n (Nat.le_refl n), hat]
  · rw [hsame i (Nat.le_of_lt hi), hbefore i hi]

omit [Grammar γ] in
/-- A body ends where it did: at the end tag in the part, or with the whole document. -/
theorem stepBody_moveTo {body : Body} (h : Ends body text next) :
    Moved d k (m.stepBody body text) ((m.moveTo d k).stepBody body (text ++ next)) := by
  rcases h with rfl | ⟨hc, hn, n, hat⟩
  · rw [List.append_nil, stepBody, stepBody]
    split <;> rfl
  · rw [stepBody, stepBody, endTagAt?_append hc hn hat, hat]
    rfl

-- ── one step ─────────────────────────────────────────────────────────────────────

/-- No search of the next step goes beyond the text. -/
structure Enclosed (m : Machine γ) (text next : List Char) : Prop where
  inTag : m.phase.inTag = true → Bounded m.tag.form.stringStops text next
  outside : m.phase.inTag = false → m.body = none → Bounded openers text next
  body : m.phase = .literal → ∀ body, m.body = some body → Ends body text next

section

variable {front back : List Char} {r' : Reader} (hf : r.Framed front back r')
include hf

/-- Outside tags the step is the same one, moved. -/
theorem stepLiteral_moveTo (hb : ∀ body, m.body = some body → Ends body r.rest back)
    (h : m.body = none → Bounded openers r.rest back) :
    Moved r'.document (byteSize front) (m.stepLiteral r)
      ((m.moveTo r'.document (byteSize front)).stepLiteral r') := by
  rw [stepLiteral, stepLiteral, body_moveTo]
  cases hbody : m.body with
  | some body =>
      rw [hf.rest]
      exact stepBody_moveTo (hb body hbody)
  | none =>
      have hopen := h hbody
      have hs := hopen.sealed
      have hnext : ∀ form : TagForm, r'.isNext form.opener = r.isNext form.opener := by
        intro form
        rw [Reader.isNext, Reader.isNext, hf.rest,
          hs.isPrefixOf_short (Nat.le_of_eq (Sealed.length_opener form))]
      dsimp only
      rw [hnext, hnext, hf.offset, grammar_moveTo]
      by_cases ho : r.isNext (TagForm.opener .output) = true
      · rw [if_pos ho, if_pos ho]
        exact openTag_moveTo _ _
      · by_cases hst : r.isNext (TagForm.opener .statement) = true
        · rw [if_neg ho, if_neg ho, if_pos hst, if_pos hst]
          exact openTag_moveTo _ _
        · have hno : startsWithOpener r.rest = false := by
            rw [Bool.not_eq_true, Reader.isNext] at ho hst
            simp only [startsWithOpener, openers, List.any_cons, List.any_nil]
            rw [ho, hst]
            rfl
          rw [if_neg ho, if_neg ho, if_neg hst, if_neg hst, hf.rest]
          have hpass := passText_moveTo (m := m) (d := r'.document) (k := byteSize front) hopen hno
          exact .ite (stepMarkupText_moveTo hf hopen hno) hpass

variable (hb : m.body = none) (h : Bounded openers r.rest back)
include hb h

/-- The name of an attribute ends within the part, before an open delimiter at the latest. -/
theorem stepAttributeName_moveTo :
    Moved r'.document (byteSize front) (m.stepAttributeName r)
      ((m.moveTo r'.document (byteSize front)).stepAttributeName r') := by
  have hs := h.sealed
  -- the open delimiter ahead begins with a brace, at which a name ends
  have hname : (r.rest ++ back).takeWhile isAttributeChar = r.rest.takeWhile isAttributeChar := by
    rcases h with hb | ⟨-, s, hs, i, hi⟩
    · rw [hb, List.append_nil]
    · refine takeWhile_append_of_mem (c := '{') (List.mem_of_mem_drop (hi.subset ?_)) (by decide)
      simp only [openers, List.mem_cons, List.not_mem_nil, or_false] at hs
      rcases hs with rfl | rfl <;> decide
  have hclosed : Moved r'.document (byteSize front)
      ({ m with blocks := closeInnermost m.blocks }.emit .markupClose 2 .literal)
      ({ m.moveTo r'.document (byteSize front) with
        blocks := closeInnermost (m.moveTo r'.document (byteSize front)).blocks }.emit
          .markupClose 2 .literal) := by
    have hblocks := Blocks.map_closeInnermost (f := Block.moveTo r'.document (byteSize front))
      (fun _ => rfl) m.blocks
    rw [Moved]
    show Machine.emit { m.moveTo r'.document (byteSize front) with
      blocks := closeInnermost (m.blocks.map (Block.moveTo r'.document (byteSize front))) } _ _ _ = _
    rw [← hblocks]
    rfl
  rw [stepAttributeName, stepAttributeName, Reader.isNext, Reader.isNext, Reader.isNext,
    Reader.isNext, hf.rest, hs.isPrefixOf_short (by decide), hs.isPrefixOf_short (by decide),
    startsWithOpener_append h, hname]
  refine .ite rfl (.ite hclosed (.ite ?_ (.ite rfl rfl)))
  refine stepLiteral_moveTo (m := { m with phase := .literal }) hf (fun body hbody => ?_) fun _ => h
  exact absurd (hb.symm.trans hbody) (by rintro ⟨⟩)

theorem stepMarkup_moveTo (phase : MarkupPhase) :
    Moved r'.document (byteSize front) (m.stepMarkup phase r)
      ((m.moveTo r'.document (byteSize front)).stepMarkup phase r') := by
  have hs := h.sealed
  have hname := stepAttributeName_moveTo hf hb h
  cases phase with
  | attributeName => exact hname
  | attributeOperator =>
      rw [stepMarkup, stepMarkup, stepAttributeOperator, stepAttributeOperator, Reader.isNext,
        Reader.isNext, hf.rest, hs.isPrefixOf_short (by decide)]
      exact .ite rfl hname
  | attributeValue =>
      have hquoted : quoted? openers (r.rest ++ back) = quoted? openers r.rest :=
        Bounded.quoted?_append (fun _ => length_of_mem_openers)
          (fun _ => Bounded.startsNone_openers_of_isQuote) h
      rw [stepMarkup, stepMarkup, stepAttributeValue, stepAttributeValue, hf.rest, hquoted,
        bareValue_append h]
      split
      · rfl
      · next quote body hstring =>
          have hdrop := h.drop_unclosed hstring
          obtain ⟨_, _, -, -, hpre, -⟩ := quoted?_eq_some hstring
          dsimp only
          rw [List.drop_append_of_le_length hpre.length_le, startsWithOpener_append hdrop]
          rfl
      · exact .ite hname rfl
  | closeName =>
      rw [stepMarkup, stepMarkup, stepCloseName, stepCloseName, Reader.isNext, Reader.isNext,
        hf.rest, hs.isPrefixOf_short (by decide)]
      exact .ite rfl rfl

end

-- ── any step ─────────────────────────────────────────────────────────────────────

omit [Grammar γ] in
/-- The reports about blocks left open are made at the end of the longer document. -/
theorem flush_moveTo (size : Nat) :
    (m.moveTo d k).flush (size + k) = (m.flush size).moveTo d k := by
  have hnotices : (m.blocks.map (Block.moveTo d k)).notices (size + k) =
      (m.blocks.notices size).map (Notice.moveTo d k) := by
    rw [Blocks.notices, Blocks.notices, Blocks.map, List.map_map, List.map_map]
    rfl
  rw [flush, flush]
  show (if m.flushed then _ else _) = _
  split
  · rfl
  · show ({ m.moveTo d k with
      flushed := true
      notices := m.notices.map (Notice.moveTo d k) ++
        (m.blocks.map (Block.moveTo d k)).notices (size + k)
      blocks := ∅ } : Machine γ) = _
    rw [hnotices, ← List.map_append]
    rfl

/-- At the end of both documents the same is reported, and the same is left open. -/
theorem stepEnd_moveTo (size : Nat) :
    Moved d k (m.stepEnd size) ((m.moveTo d k).stepEnd (size + k)) := by
  rw [stepEnd, stepEnd, phase_moveTo, isEmpty_brackets_moveTo]
  refine .ite (.ite ?_ rfl) ?_
  · exact congrArg (Machine.reportHere · .missingBracket m.phase) pop_moveTo
  exact congrArg (fun m : Machine γ => (⟨.finished, .hold, m⟩ : Reply γ))
    (flush_moveTo (m := { m with phase := .literal }) size)

omit [Grammar γ] in
/-- Whatever the next step searches for, nothing at the end of the part goes on behind it. -/
theorem Enclosed.sealed (h : m.Enclosed text next) (hm : m.MarkupSound) : Sealed text next := by
  cases hp : m.phase.inTag with
  | true => exact (h.inTag hp).sealed
  | false =>
      cases hb : m.body with
      | none => exact (h.outside hp hb).sealed
      | some body =>
          rcases Phase.literal_or_markup hp with hlit | ⟨phase, hmark⟩
          · exact (h.body hlit body hb).imp_right And.left
          · exact absurd ((hm phase hmark).symm.trans hb) nofun

section

variable {front back : List Char} {r' : Reader} (hf : r.Framed front back r')
  (h : m.Enclosed r.rest back) (hm : m.MarkupSound)
  (hb : m.phase.inTag = true → ∃ c ∈ r.behind, isBlank c = false)
include hf h hm hb

/-- In each phase the step is the same one, moved. -/
theorem stepPhase_moveTo :
    Moved r'.document (byteSize front) (m.stepPhase r)
      ((m.moveTo r'.document (byteSize front)).stepPhase r') := by
  have hrest := hf.rest
  obtain ⟨hin, hout, hbody⟩ := h
  rw [stepPhase, stepPhase, phase_moveTo]
  cases hp : m.phase with
  | literal => exact stepLiteral_moveTo hf (hbody hp) (hout (by rw [hp]; rfl))
  | markup phase =>
      have hnone := hm phase hp
      exact stepMarkup_moveTo hf hnone (hout (by rw [hp]; rfl) hnone) phase
  | opened => exact stepOpened_moveTo hf (hin (by rw [hp]; rfl))
  | path phase resume => exact stepPath_moveTo hf (hin (by rw [hp]; rfl)) phase resume
  | loop phase =>
      exact stepLoop_moveTo hf (hin (by rw [hp]; rfl)) (hb (by rw [hp]; rfl)) phase
  | outputValue =>
      rw [hrest]
      exact expectValue_moveTo (hin (by rw [hp]; rfl)) _ _ _
  | unknownTag | skipRest =>
      rw [hrest]
      exact skipRest_moveTo (hin (by rw [hp]; rfl))
  | assignment phase =>
      rw [hrest]
      exact stepAssignment_moveTo (hin (by rw [hp]; rfl)) phase
  | control phase =>
      rw [hrest]
      exact stepControl_moveTo (hin (by rw [hp]; rfl)) phase
  | embedded =>
      have hbound := hin (by rw [hp]; rfl)
      rw [hrest]
      exact .ite (skipRest_moveTo hbound) (close_moveTo hbound false)
  | filter phase =>
      rw [hrest]
      exact stepFilter_moveTo (hin (by rw [hp]; rfl)) phase
  | close ending =>
      rw [hrest]
      exact close_moveTo (hin (by rw [hp]; rfl)) ending

/-- **Relocation.**  Where no search of a step goes beyond its document, the step is the same in the
    middle of a longer one, at the places that are moved. -/
theorem step_moveTo :
    (m.moveTo r'.document (byteSize front)).step r' =
      (m.step r).moveTo r'.document (byteSize front) := by
  have hs := h.sealed hm
  show Moved _ _ _ _
  cases hr : r.atEnd with
  | true =>
      have hnil : r.rest = [] := List.isEmpty_iff.mp hr
      rw [hnil] at hs
      obtain rfl : back = [] := hs.resolve_right fun hc => absurd hc.two_le_length (by simp)
      rw [step, step, hf.atEnd, hr, if_pos rfl, if_pos rfl, hf.size]
      exact stepEnd_moveTo _
  | false =>
      have hr' : r'.atEnd = false := by
        rw [Reader.atEnd, List.isEmpty_eq_false_iff, hf.rest]
        exact List.append_ne_nil_of_left_ne_nil (List.isEmpty_eq_false_iff.mp hr) back
      have hphase := stepPhase_moveTo hf h hm hb
      rw [step, step, hr, hr', if_neg Bool.false_ne_true, if_neg Bool.false_ne_true, phase_moveTo,
        hf.rest, hs.braced.takeWhile_append rfl, hs.braced.takeWhile_append rfl]
      exact .ite hphase (.ite rfl (.ite rfl hphase))

end

end Machine

end TemplateScan
