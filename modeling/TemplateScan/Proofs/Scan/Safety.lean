import TemplateScan.Proofs.Scan.Slicing
import TemplateScan.Proofs.Scan.Tiling

/-! # Safety — no session cuts a character in two

    A session may scan from any offset, go back to any offset, and start again, inside a tag as well
    as outside.  Whatever it does, the token and the cursor lie between characters of the document,
    in order, and so does every slice that the next step may look at.

    Slices and moves may be refused: the functions of a step, written with the slices they take
    (`Machine.Cuts`), and the moves (`Extent.move?`) have no answer for an offset inside a
    character.  None is ever refused.

    * **`Extent.move?`** — the move of a step, refused when it would end inside a character.
    * **`Sound`** — what every move keeps: an open tag starts at a boundary.
    * **`step_safe`** — everything one step reads, and where it moves, is in the document.
    * **`session_safe`** — after every session, whatever scan comes next. -/

namespace TemplateScan

open Text

-- ── moves ────────────────────────────────────────────────────────────────────────

/-- The reader after a move that refuses to end inside a character. -/
def Extent.move? : Extent → Reader → Option Reader
  | .hold, r => some r
  | .take n, r => (r.until? (r.offsetAt n)).map (·.2)
  | .takeFrom start n, r => (r.until? (r.offsetAt n)).bind fun moved => moved.2.rewindStart? start

/-- A move is not refused if the token it begins starts at a boundary. -/
theorem move?_eq_some {e : Extent} {r : Reader}
    (h : ∀ start n, e = .takeFrom start n → IsBoundary start r.document.chars) :
    e.move? r = some (e.apply r) := by
  cases e with
  | hold => rfl
  | take n =>
      rw [Extent.move?, Reader.until?_offsetAt]
      rfl
  | takeFrom start n =>
      rw [Extent.move?, Reader.until?_offsetAt]
      show (r.capture n).rewindStart? start = some ((r.capture n).rewindStart start)
      have hbound : IsBoundary (min start (r.capture n).offset) (r.capture n).document.chars :=
        isBoundary_min (h start n rfl) (Reader.isBoundary_offset (r.capture n))
      exact if_pos hbound

-- ── one step ─────────────────────────────────────────────────────────────────────

/-- Everything that one step reads, and the place where it moves, is in the document. -/
structure StepSafe {γ : Type} [Grammar γ] (m : Machine γ) (r : Reader) : Prop where
  /-- The slices are slices of the document. -/
  reads : ∀ start stop text, Reads r start stop text → r.document.slice? start stop = some text
  /-- The functions of the step, written with these slices, answer as they do without. -/
  cuts : m.Cuts r
  /-- The byte before the close delimiter, if there is one, is a byte of the document. -/
  byte : ∀ (form : TagForm) k, indexBefore? form.closer openers r.rest = some k →
    r.offset < r.offsetAt k → r.offsetAt k - 1 < r.document.size
  /-- The line of every place is a line of the table. -/
  line : ∀ o, 0 < r.document.lines.lineAt o ∧
    r.document.lines.lineAt o ≤ r.document.lines.starts.size
  /-- The spans of an open tag and of an element at the cursor have positions. -/
  span : ∀ stop, r.document.spanOf? r.offset stop = some (r.document.spanOf r.offset stop) ∧
    (m.phase.inTag = true →
      r.document.spanOf? m.tag.start stop = some (r.document.spanOf m.tag.start stop))
  /-- The step moves to a place between characters. -/
  move : (m.step r).extent.move? r = some ((m.step r).extent.apply r)

namespace Machine

variable {γ : Type} [Grammar γ] {m : Machine γ} {r : Reader}

/-- A step is safe wherever the cursor is, as long as an open tag starts at a boundary. -/
theorem step_safe (hm : m.BodySound)
    (htag : m.phase.inTag = true → IsBoundary m.tag.start r.document.chars) : StepSafe m r where
  reads _ _ _ h := slice?_of_reads h
  cuts := m.cuts r
  byte form k _ hlt := by
    have hsize := r.offsetAt_le_size k
    omega
  line o := by
    obtain ⟨hpos, hle, -, -⟩ := r.document.lines.lineAt_spec o
    exact ⟨hpos, hle⟩
  span stop := ⟨(Document.position?_of_isBoundary r.isBoundary_offset).2 stop,
    fun hp => (Document.position?_of_isBoundary (htag hp)).2 stop⟩
  move := by
    refine move?_eq_some fun start n he => ?_
    by_cases hend : (m.step r).event = .finished
    · obtain ⟨hr, hp⟩ := step_finished_iff.mp hend
      rw [step_atEnd hp hr] at he
      exact nomatch he
    · rcases (step_reaches hm hend).1 with ⟨-, htake⟩ | ⟨-, hp, hfrom⟩
      · rw [he] at htake
        exact nomatch htake
      · rw [he] at hfrom
        rw [(Extent.takeFrom.inj hfrom).1]
        exact htag hp

end Machine

-- ── sessions ─────────────────────────────────────────────────────────────────────

namespace Scanner

variable {γ : Type} [Grammar γ] {s : Scanner γ} {d : Document}

/-- The scanner is at work in the document, and an open tag starts at a boundary of it. -/
structure Sound (d : Document) (s : Scanner γ) : Prop where
  document : s.reader.document = d
  body : s.machine.BodySound
  tag : s.machine.phase.inTag = true → IsBoundary s.machine.tag.start d.chars

/-- A tag opens at the cursor, which is at a boundary; otherwise the tag stays what it was. -/
theorem Sound.scanHere (h : s.Sound d) : s.scanHere.2.Sound d where
  document := by
    rw [reader_scanHere, document_apply]
    exact h.document
  body := Machine.bodySound_step h.body s.reader
  tag := by
    rw [machine_scanHere]
    intro hp
    rcases Machine.step_tag s.machine s.reader with ⟨heq, hin⟩ | hstart
    · rw [heq]
      exact h.tag (hin hp)
    · rw [hstart, ← h.document]
      exact s.reader.isBoundary_offset

omit [Grammar γ] in
/-- A jump goes to a boundary, and leaves the tag alone. -/
theorem Sound.jump (h : s.Sound d) (offset : Nat) :
    Sound d { s with reader := s.reader.jump offset } :=
  ⟨h.document, h.body, h.tag⟩

/-- Scans from elsewhere keep the scanner sound, even inside a tag. -/
theorem Sound.scan (h : s.Sound d) (offset : Nat) : (s.scan offset).2.Sound d := by
  rw [Scanner.scan]
  split
  · exact h.scanHere
  · exact (h.jump offset).scanHere

/-- Going back leaves the tag, so its start no longer matters. -/
theorem Sound.rewind (h : s.Sound d) (offset : Nat) : (s.rewind offset).Sound d :=
  ⟨h.document, nofun, nofun⟩

/-- After a reset no tag is open. -/
theorem Sound.reset (h : s.Sound d) : s.reset.Sound d :=
  ⟨h.document, nofun, nofun⟩

/-- Every session keeps the scanner sound. -/
theorem sound_session (source : String) (grammar : γ) (moves : List Move) :
    ((ofString source grammar).session moves).Sound (.ofString source) :=
  session_induction (Q := fun _ => True) (fun _ h => h.scanHere)
    (fun _ offset _ h => h.scan offset) (fun _ offset _ h => h.rewind offset)
    (fun _ h => h.reset) ⟨rfl, nofun, nofun⟩ fun _ _ => trivial

-- ── the text of the tag ──────────────────────────────────────────────────────────

/-- A move that scans from where the cursor is, or goes back to a boundary of the text. -/
def Move.IsPlain (text : List Char) : Move → Prop
  | .scan offset => offset = 0
  | .rewind offset => IsBoundary offset text
  | .reset | .tokens _ => True

/-- The tag scanned last starts at a boundary, and not after the cursor. -/
structure TagBehind (d : Document) (s : Scanner γ) : Prop where
  document : s.reader.document = d
  boundary : IsBoundary s.machine.tag.start d.chars
  le_offset : s.machine.tag.start ≤ s.reader.offset

/-- The cursor never moves back in a scan, so the tag stays behind it. -/
theorem TagBehind.scanHere (h : s.TagBehind d) : s.scanHere.2.TagBehind d := by
  have hdoc : s.scanHere.2.reader.document = d := by
    rw [reader_scanHere, document_apply]
    exact h.document
  have hforward : s.reader.offset ≤ s.scanHere.2.reader.offset := offset_le_apply _ _
  rcases Machine.step_tag s.machine s.reader with ⟨heq, -⟩ | hstart
  · rw [← machine_scanHere] at heq
    exact ⟨hdoc, heq ▸ h.boundary, heq ▸ Nat.le_trans h.le_offset hforward⟩
  · rw [← machine_scanHere] at hstart
    refine ⟨hdoc, ?_, hstart ▸ hforward⟩
    rw [hstart, ← h.document]
    exact s.reader.isBoundary_offset

/-- At a boundary the tag is taken to start where the scanner went back to. -/
theorem TagBehind.rewind (h : s.TagBehind d) {offset : Nat} (hb : IsBoundary offset d.chars) :
    (s.rewind offset).TagBehind d := by
  refine ⟨h.document, hb, ?_⟩
  show offset ≤ (s.reader.jump offset).offset
  have hcut : byteSize (splitAtByte offset s.reader.document.chars).1 = offset := by
    rw [h.document]
    exact hb
  rw [Reader.jump, Reader.offset, byteSize_reverse, hcut]
  exact Nat.le_add_right _ _

/-- In a session that goes back to boundaries only, the tag stays behind the cursor. -/
theorem tagBehind_session {source : String} (grammar : γ) {moves : List Move}
    (h : ∀ move ∈ moves, move.IsPlain source.toList) :
    ((ofString source grammar).session moves).TagBehind (.ofString source) := by
  have hzero : IsBoundary 0 (Document.ofString source).chars :=
    isBoundary_iff.mpr ⟨[], _, rfl, rfl⟩
  refine session_induction (fun _ h => h.scanHere) (fun s offset hplain h => ?_)
    (fun _ offset hplain h => h.rewind hplain) (fun s h => ?_) ⟨rfl, hzero, Nat.zero_le _⟩ h
  · obtain rfl : offset = 0 := hplain
    exact h.scanHere
  · have hback := h.rewind hzero
    exact ⟨hback.document, hback.boundary, hback.le_offset⟩

/-- **Safety.**  After any session on any text, in any grammar: the token and the cursor lie between
    characters of the text, in order, and the token, its span and its position can be read.  Whatever
    scan comes next, from whatever offset, reads slices of the text only and moves to a place between
    characters.  In a session that goes back to boundaries only and never scans from elsewhere, the
    text of the tag can be read, too. -/
theorem session_safe (source : String) (grammar : γ) (moves : List Move) :
    let s := (ofString source grammar).session moves
    let d := s.reader.document
    d.chars = source.toList ∧
      (s.reader.start ≤ s.reader.offset ∧ s.reader.offset ≤ source.utf8ByteSize ∧
        IsBoundary s.reader.start source.toList ∧ IsBoundary s.reader.offset source.toList) ∧
      (d.slice? s.reader.start s.reader.offset = some s.reader.token ∧
        d.spanOf? s.reader.start s.reader.offset = some s.reader.span ∧
        d.position? s.reader.start = some s.reader.position) ∧
      (∀ offset, StepSafe s.machine (if offset = 0 then s.reader else s.reader.jump offset)) ∧
      ((∀ move ∈ moves, move.IsPlain source.toList) → ∃ text, s.tagText? = some text) := by
  intro s d
  have hsound := sound_session source grammar moves
  have hchars : d.chars = source.toList := congrArg Document.chars hsound.document
  obtain ⟨hposition, hspan⟩ := Document.position?_of_isBoundary s.reader.isBoundary_start
  refine ⟨hchars, ⟨s.reader.start_le_offset, ?_, ?_, ?_⟩,
    ⟨s.reader.slice?_token, hspan _, hposition⟩, fun offset => ?_, fun hplain => ?_⟩
  · have hsize := s.reader.offset_le_size
    rwa [Document.size, hchars, byteSize_toList] at hsize
  · rw [← hchars]
    exact s.reader.isBoundary_start
  · rw [← hchars]
    exact s.reader.isBoundary_offset
  · have htag : s.machine.phase.inTag = true → IsBoundary s.machine.tag.start d.chars := by
      intro hp
      rw [hchars]
      exact hsound.tag hp
    split
    · exact Machine.step_safe hsound.body htag
    · exact Machine.step_safe hsound.body htag
  · have hbehind := tagBehind_session grammar hplain
    refine ⟨_, Document.slice?_eq_some hbehind.le_offset ?_ s.reader.isBoundary_offset⟩
    rw [hchars]
    exact hbehind.boundary

end Scanner

end TemplateScan
