import TemplateScan.Scan.Machine

/-! # Closing — the end of a tag, and the way there after a fault

    Every tag ends in `close`: brackets still open are reported one by one, then a trim dash and
    the close delimiter are taken, and when the close delimiter does not come before the next tag
    opens, that is reported and the tag is left.

    A fault that makes the rest of the tag meaningless is handled by `recover`, which passes over
    everything up to the end of the tag. -/

namespace TemplateScan.Machine

open Text

variable {γ : Type} [Grammar γ]

/-- The number of characters of a dash and the spaces between it and the close delimiter, when the
    text begins so. -/
def spacedDash? (form : TagForm) : List Char → Option Nat
  | '-' :: tail =>
      let spaces := tail.takeWhile isSpacing
      if !spaces.isEmpty && form.closer.isPrefixOf (afterSpacing tail) then
        some (1 + spaces.length)
      else none
  | _ => none

/-- One step before the close delimiter, of an end tag or of another tag. -/
def close (m : Machine γ) (ending : Bool) (rest : List Char) : Reply γ :=
  let closer := m.tag.form.closer
  if !m.brackets.isEmpty then
    { m with brackets := m.brackets.pop }.reportHere .missingBracket (.close ending)
  else if ('-' :: closer).isPrefixOf rest then
    m.emit .trimRight 1 (.close ending)
  else match spacedDash? m.tag.form rest with
  | some n => m.report .blankAfterTrim n (.close ending)
  | none =>
    if closer.isPrefixOf rest then
      m.leaveTag.emit (if ending then .endDelimiter else .closeDelimiter) closer.length .literal
    else match tagEnd? m.tag.form rest with
    | some n =>
        let fault := if (trimEnd (rest.take n)).length = 1 then .invalidCharacter
          else .invalidCharacters
        m.report fault n (.close ending)
    | none => m.leaveTag.reportHere .missingClose .literal

/-- Report a fault that covers everything up to the end of the tag. -/
def recover (m : Machine γ) (fault : Fault) (rest : List Char) : Reply γ :=
  m.report fault (recoveryEnd m.tag.form rest) (.close false)

/-- Report what comes next as out of place; a tag without an end is closed at once. -/
def unexpected (m : Machine γ) (rest : List Char) : Reply γ :=
  match tagEnd? m.tag.form rest with
  | none => m.close false rest
  | some n =>
      m.recover (if 1 < (trimEnd (rest.take n)).length then .invalidCharacters
        else .invalidCharacter) rest

/-- Pass over everything up to the end of the tag without scanning it. -/
def skipRest (m : Machine γ) (rest : List Char) : Reply γ :=
  let n := recoveryEnd m.tag.form rest
  if n = 0 then m.close false rest else m.emit .skipped n (.close false)

end TemplateScan.Machine
