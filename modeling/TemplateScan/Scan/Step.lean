import TemplateScan.Scan.Markup
import TemplateScan.Scan.Name

/-! # Steps — one token at a time

    A step first looks for the end of the document, then for white space inside a tag or markup,
    and then does what the phase says.  In every phase the step answers at once: a phase in which
    there is nothing to be taken hands over to the phase that follows it. -/

namespace TemplateScan.Machine

open Text

variable {γ : Type} [Grammar γ]

/-- The machine with everything reported that is still open at the end of the document; this
    happens once. -/
def flush (m : Machine γ) (size : Nat) : Machine γ :=
  if m.flushed then m
  else { m with
    flushed := true
    notices := m.notices ++ m.blocks.notices size
    blocks := ∅ }

/-- One step at the end of the document; a tag that is still open is left. -/
def stepEnd (m : Machine γ) (size : Nat) : Reply γ :=
  if m.phase.inTag then
    if !m.brackets.isEmpty then
      { m with brackets := m.brackets.pop }.reportHere .missingBracket m.phase
    else m.leaveTag.reportHere .missingClose .literal
  else ⟨.finished, .hold, { m with phase := .literal }.flush size⟩

/-- One step that is neither at the end of the document nor at white space inside a tag. -/
def stepPhase (m : Machine γ) (r : Reader) : Reply γ :=
  match m.phase with
  | .literal => m.stepLiteral r
  | .opened => m.stepOpened r
  | .outputValue => m.stepOutputValue r.rest
  | .unknownTag => m.skipRest r.rest
  | .markup phase => m.stepMarkup phase r
  | .loop phase => m.stepLoop phase r
  | .assignment phase => m.stepAssignment phase r.rest
  | .control phase => m.stepControl phase r.rest
  | .embedded => m.stepEmbedded r.rest
  | .path phase resume => m.stepPath phase resume r
  | .filter phase => m.stepFilter phase r.rest
  | .skipRest => m.skipRest r.rest
  | .close ending => m.close ending r.rest

/-- One step of the scanner. -/
def step (m : Machine γ) (r : Reader) : Reply γ :=
  if r.atEnd then m.stepEnd r.document.size
  else if m.phase = .literal then m.stepPhase r
  else
    let spacing := r.rest.takeWhile isSpacing
    let lineBreak := r.rest.takeWhile isLineBreak
    if !spacing.isEmpty then m.emit .spacing spacing.length m.phase
    else if !lineBreak.isEmpty then m.emit .lineBreak lineBreak.length m.phase
    else m.stepPhase r

end TemplateScan.Machine
