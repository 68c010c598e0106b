import TemplateScan.Proofs.Scan.Pairing
import TemplateScan.Proofs.Scan.Safety
import TemplateScan.Proofs.Scan.Twins

/-! # Resets — a scanner that has been reset is as good as new

    A reset leaves something behind: the form and the number of the last tag, the category of name
    expected, and the rule looked up last.  None of it is ever read again, so whatever a session has
    done before, after a reset every move answers and shows what it does with a new scanner.

    * **`View`** — what a scanner shows between two moves.
    * **`replies`** — what a session answers and shows, move by move.
    * **`Twins.perform`** — twins answer every move alike, and stay twins.
    * **`reset_is_fresh`** — a reset scanner is not told from a new one. -/

namespace TemplateScan

open Text

namespace Scanner

-- ── what is seen of a session ────────────────────────────────────────────────────

/-- What a move of a session answers. -/
inductive Answer where
  | done
  /-- What a scan finds. -/
  | found (event : Event)
  /-- The tokens that are read. -/
  | read (tokens : List Token)

/-- What a scanner shows between two moves. -/
structure View where
  /-- The token: its text, its range and its position. -/
  reader : Reader
  /-- The fault of the last token. -/
  fault : Option Fault
  phase : Phase
  /-- The form of the tag that is being scanned. -/
  form : Option TagForm
  /-- The number of the tag that the last end tag closes. -/
  pair : Option Nat
  tagText? : Option (List Char)
  /-- The reports made at the end of the document. -/
  notices : List Notice

section

variable {γ : Type} [Grammar γ]

def answer (s : Scanner γ) : Move → Answer
  | .scan offset => .found (s.scan offset).1
  | .rewind _ | .reset => .done
  | .tokens count => .read (s.take count).1

def view (s : Scanner γ) : View where
  reader := s.reader
  fault := s.fault
  phase := s.machine.phase
  form := if s.machine.phase.inTag then some s.machine.tag.form else none
  pair := s.machine.pair
  tagText? := s.tagText?
  notices := s.machine.notices

/-- What the moves of a session answer, each with what the scanner shows after it. -/
def replies (s : Scanner γ) : List Move → List (Answer × View)
  | [] => []
  | move :: moves => (s.answer move, (s.perform move).view) :: (s.perform move).replies moves

end

-- ── twins in a session ───────────────────────────────────────────────────────────

variable {ρ : Nat → Nat} {s t : Scanner Lookup}

/-- Under the same numbers, strict twins show the same. -/
theorem Twins.view (h : s.Twins id True t) : t.view = s.view := by
  have hreader := h.reader trivial
  have hpair := h.machine.pair (Or.inl trivial)
  rw [Option.map_id] at hpair
  have hform : (if t.machine.phase.inTag then some t.machine.tag.form else none) =
      if s.machine.phase.inTag then some s.machine.tag.form else none := by
    rw [h.machine.phase]
    split
    · next hin => rw [h.machine.tag hin]
    · rfl
  have htext : t.tagText? = s.tagText? := by
    rw [tagText?, tagText?, hreader, h.machine.start trivial]
  rw [Scanner.view, Scanner.view, hform, hreader, h.fault trivial, h.machine.phase, hpair, htext,
    h.machine.notices]
  rfl

/-- From the same offset twins are at the same place. -/
theorem Twins.jump (h : s.Twins ρ True t) (offset : Nat) :
    t.reader.jump offset = s.reader.jump offset := by
  rw [h.reader trivial]

/-- A scan from any offset answers the same. -/
theorem Twins.scan (h : s.Twins ρ True t) (offset : Nat) :
    (t.scan offset).1 = (s.scan offset).1 ∧ (s.scan offset).2.Twins ρ True (t.scan offset).2 := by
  rw [Scanner.scan, Scanner.scan]
  split
  · exact ⟨h.event, h.scanHere⟩
  · have hnext : Scanner.Twins ρ True { s with reader := s.reader.jump offset }
        { t with reader := t.reader.jump offset } :=
      ⟨congrArg Reader.mark (h.jump offset), h.machine, fun _ => h.jump offset, h.fault⟩
    exact ⟨hnext.event, hnext.scanHere⟩

/-- Twins that go back to the same offset forget the same blocks. -/
theorem Twins.rewind (h : s.Twins ρ True t) (offset : Nat) :
    (s.rewind offset).Twins ρ True (t.rewind offset) := by
  refine ⟨congrArg Reader.mark (h.jump offset), ?_, fun _ => h.jump offset, fun _ => rfl⟩
  refine ⟨rfl, rfl, rfl, rfl, rfl, ?_, h.machine.nodes, h.machine.fresh, ?_, ?_, ?_, ?_,
    fun _ => rfl, fun _ => rfl⟩
  · show t.machine.blocks.forgetFrom offset = (s.machine.blocks.forgetFrom offset).renumber ρ
    rw [h.machine.blocks, Blocks.renumber_forgetFrom]
  · show ({ t.machine.grammar.bare with filter := none, argumentIndex := 0, object := none } :
      Lookup) = { s.machine.grammar.bare with filter := none, argumentIndex := 0, object := none }
    rw [h.machine.lookup]
  all_goals rintro ⟨⟩

/-- Twins that start again are the same. -/
theorem Twins.reset (h : s.Twins id True t) : s.reset.Twins id True t.reset := by
  have hback := h.rewind 0
  exact { hback with machine :=
    { hback.machine with blocks := rfl, nodes := rfl, fresh := fun _ _ => rfl } }

/-- The next token within so many scans is the same. -/
theorem Twins.nextWithin (h : s.Twins ρ True t) (n : Nat) :
    (t.nextWithin n).1 = (s.nextWithin n).1 ∧
      (s.nextWithin n).2.Twins ρ True (t.nextWithin n).2 := by
  induction n generalizing s t with
  | zero => exact ⟨rfl, h⟩
  | succ n ih =>
      have hevent := h.event
      have hnext := h.scanHere
      rw [Scanner.nextWithin, Scanner.nextWithin]
      cases hs : s.scanHere with
      | mk event next =>
      cases ht : t.scanHere with
      | mk event' next' =>
      rw [hs, ht] at hevent hnext
      obtain rfl : event' = event := hevent
      cases event' with
      | text => exact ih hnext
      | finished => exact ⟨rfl, hnext⟩
      | token kind =>
          refine ⟨?_, hnext⟩
          show some (Token.mk kind next'.reader.span) = some ⟨kind, next.reader.span⟩
          rw [hnext.reader trivial]

theorem Twins.next (h : s.Twins ρ True t) :
    t.next.1 = s.next.1 ∧ s.next.2.Twins ρ True t.next.2 := by
  have hwork : t.work = s.work := by
    rw [work, work, h.reader trivial, h.machine.brackets]
  rw [Scanner.next, Scanner.next, hwork]
  exact h.nextWithin s.work

theorem Twins.take (h : s.Twins ρ True t) (n : Nat) :
    (t.take n).1 = (s.take n).1 ∧ (s.take n).2.Twins ρ True (t.take n).2 := by
  induction n generalizing s t with
  | zero => exact ⟨rfl, h⟩
  | succ n ih =>
      obtain ⟨htoken, hnext⟩ := h.next
      rw [Scanner.take, Scanner.take]
      cases hs : s.next with
      | mk token next =>
      cases ht : t.next with
      | mk token' next' =>
      rw [hs, ht] at htoken hnext
      obtain rfl : token' = token := htoken
      cases token' with
      | none => exact ⟨rfl, hnext⟩
      | some token =>
          obtain ⟨htokens, hrest⟩ := ih hnext
          exact ⟨congrArg (token :: ·) htokens, hrest⟩

/-- Twins answer every move alike, and stay twins. -/
theorem Twins.perform (h : s.Twins id True t) (move : Move) :
    t.answer move = s.answer move ∧ (s.perform move).Twins id True (t.perform move) := by
  cases move with
  | scan offset =>
      obtain ⟨hevent, hnext⟩ := h.scan offset
      exact ⟨congrArg Answer.found hevent, hnext⟩
  | rewind offset => exact ⟨rfl, h.rewind offset⟩
  | reset => exact ⟨rfl, h.reset⟩
  | tokens count =>
      obtain ⟨htokens, hnext⟩ := h.take count
      exact ⟨congrArg Answer.read htokens, hnext⟩

/-- Twins answer every session alike, scan by scan. -/
theorem Twins.replies (h : s.Twins id True t) (moves : List Move) :
    t.replies moves = s.replies moves := by
  induction moves generalizing s t with
  | nil => rfl
  | cons move moves ih =>
      obtain ⟨hanswer, hnext⟩ := h.perform move
      rw [Scanner.replies, Scanner.replies, hanswer, hnext.view, ih hnext]

-- ── resets ───────────────────────────────────────────────────────────────────────

/-- Whatever a session does, the scanner stays in its dialect. -/
theorem dialect_session (source : String) (dialect : Dialect) (moves : List Move) :
    ((ofString source dialect.lookup).session moves).machine.grammar.dialect = dialect := by
  refine session_induction (P := fun s : Scanner Lookup => s.machine.grammar.dialect = dialect)
    (Q := fun _ => True) (fun s hs => (dialect_scanHere s).trans hs) (fun s offset _ hs => ?_)
    (fun _ _ _ hs => hs) (fun _ hs => hs) rfl fun _ _ => trivial
  rw [scan]
  split
  · exact (dialect_scanHere s).trans hs
  · exact (dialect_scanHere _).trans hs

/-- A scanner that has been reset is the twin of a new one. -/
theorem twins_reset {source : String} {dialect : Dialect}
    (hd : s.reader.document = .ofString source) (hg : s.machine.grammar.dialect = dialect) :
    (ofString source dialect.lookup).Twins id True s.reset := by
  have hreader : s.reset.reader = Reader.ofString source := by
    show s.reader.jump 0 = Reader.ofDocument (.ofString source)
    rw [← hd]
    simp only [Reader.jump, Reader.ofDocument, splitAtByte_zero, List.reverse_nil]
  refine ⟨congrArg Reader.mark hreader, ?_, fun _ => hreader, fun _ => rfl⟩
  refine ⟨rfl, rfl, rfl, rfl, rfl, rfl, rfl, fun _ _ => rfl, ?_, ?_, ?_, ?_, fun _ => rfl,
    fun _ => rfl⟩
  · show ({ dialect := s.machine.grammar.dialect } : Lookup) = { dialect }
    rw [hg]
  all_goals rintro ⟨⟩

/-- **A reset scanner is as good as new.**  Whatever has been scanned before, from whatever offsets,
    and wherever it was left off: after a reset the scanner shows what a new scanner of the text
    shows, and in any session that follows every move answers and shows the same. -/
theorem reset_is_fresh (source : String) (dialect : Dialect) (earlier later : List Move) :
    let fresh := ofString source dialect.lookup
    let again := (fresh.session earlier).reset
    again.view = fresh.view ∧ again.replies later = fresh.replies later := by
  intro fresh again
  have htwins : fresh.Twins id True again :=
    twins_reset (sound_session source dialect.lookup earlier).document
      (dialect_session source dialect earlier)
  exact ⟨htwins.view, htwins.replies later⟩

end Scanner

end TemplateScan
