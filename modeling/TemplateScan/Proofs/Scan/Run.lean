import TemplateScan.Proofs.Scan.Outcome
import TemplateScan.Scan.Scanner

/-! # Runs — one scan after another, and whole sessions

    `after s n` is the scanner after `n` scans and `eventAt s n` is what the next one finds.  A
    session is any sequence of scans at offsets, rewinds, resets and readings of tokens.

    * **`session_induction`** — what holds at first, and is kept by each move, holds throughout.
    * **`scanHere_of_finished`** — once the end is found, it is found ever after. -/

namespace TemplateScan

open Text

namespace Scanner

variable {γ : Type} [Grammar γ]

-- ── runs ─────────────────────────────────────────────────────────────────────────

/-- The scanner after `n` scans. -/
def after (s : Scanner γ) : Nat → Scanner γ
  | 0 => s
  | n + 1 => (s.after n).scanHere.2

/-- What the scan after `n` scans finds. -/
def eventAt (s : Scanner γ) (n : Nat) : Event :=
  (s.after n).scanHere.1

@[simp] theorem after_zero (s : Scanner γ) : s.after 0 = s := rfl

/-- One more scan comes last. -/
theorem after_succ (s : Scanner γ) (n : Nat) : s.after (n + 1) = (s.after n).scanHere.2 := rfl

/-- Scans add up. -/
theorem after_add (s : Scanner γ) (m n : Nat) : s.after (m + n) = (s.after m).after n := by
  induction n with
  | zero => rfl
  | succ n ih =>
      rw [← Nat.add_assoc, after_succ, after_succ, ih]

/-- What is found later on is what is found from there. -/
theorem eventAt_add (s : Scanner γ) (m n : Nat) : s.eventAt (m + n) = (s.after m).eventAt n := by
  rw [eventAt, eventAt, after_add]

@[simp] theorem reader_scanHere (s : Scanner γ) :
    s.scanHere.2.reader = (s.machine.step s.reader).extent.apply s.reader := rfl

@[simp] theorem machine_scanHere (s : Scanner γ) :
    s.scanHere.2.machine = (s.machine.step s.reader).machine := rfl

@[simp] theorem event_scanHere (s : Scanner γ) :
    s.scanHere.1 = (s.machine.step s.reader).event := rfl

/-- No scan changes the document. -/
@[simp] theorem document_after (s : Scanner γ) (n : Nat) :
    (s.after n).reader.document = s.reader.document := by
  induction n with
  | zero => rfl
  | succ n ih => rw [after_succ, reader_scanHere, document_apply, ih]

-- ── sessions ─────────────────────────────────────────────────────────────────────

/-- One move of a session. -/
inductive Move where
  | scan (offset : Nat)
  | rewind (offset : Nat)
  | reset
  /-- Read at most `count` tokens. -/
  | tokens (count : Nat)
deriving DecidableEq, Repr

/-- The move never takes up a tag or a body at a place other than the one where it was left. -/
def Move.isOrderly : Move → Bool
  | .scan offset => offset == 0
  | .rewind _ | .reset | .tokens _ => true

/-- The scanner after a move. -/
def perform (s : Scanner γ) : Move → Scanner γ
  | .scan offset => (s.scan offset).2
  | .rewind offset => s.rewind offset
  | .reset => s.reset
  | .tokens count => (s.take count).2

/-- The scanner after a sequence of moves. -/
def session (s : Scanner γ) (moves : List Move) : Scanner γ :=
  moves.foldl perform s

/-- Looking for the next token is scanning a number of times. -/
theorem nextWithin_eq_after (n : Nat) (s : Scanner γ) : ∃ k, (s.nextWithin n).2 = s.after k := by
  induction n generalizing s with
  | zero => exact ⟨0, rfl⟩
  | succ n ih =>
      rw [nextWithin]
      cases hf : s.scanHere with
      | mk event next =>
          have hnext : next = s.after 1 := by rw [after_succ, after_zero, hf]
          cases event with
          | text =>
              obtain ⟨k, hk⟩ := ih next
              refine ⟨1 + k, ?_⟩
              rw [after_add, ← hnext]
              exact hk
          | token kind => exact ⟨1, hnext⟩
          | finished => exact ⟨1, hnext⟩

/-- Reading tokens is a sequence of scans. -/
theorem take_eq_after (n : Nat) (s : Scanner γ) : ∃ k, (s.take n).2 = s.after k := by
  induction n generalizing s with
  | zero => exact ⟨0, rfl⟩
  | succ n ih =>
      obtain ⟨k, hk⟩ := nextWithin_eq_after s.work s
      rw [take]
      cases hn : s.next with
      | mk token next =>
          have hnext : next = s.after k := by rw [← hk, ← Scanner.next, hn]
          cases token with
          | none => exact ⟨k, hnext⟩
          | some token =>
              obtain ⟨j, hj⟩ := ih next
              refine ⟨k + j, ?_⟩
              rw [after_add, ← hnext]
              exact hj

/-- What holds at first, and is kept by the moves allowed by `Q`, holds throughout a session. -/
theorem session_induction {P : Scanner γ → Prop} {Q : Move → Prop}
    (here : ∀ s, P s → P s.scanHere.2)
    (scan : ∀ s offset, Q (.scan offset) → P s → P (s.scan offset).2)
    (rewind : ∀ s offset, Q (.rewind offset) → P s → P (s.rewind offset))
    (reset : ∀ s, P s → P s.reset) {s : Scanner γ} (start : P s) {moves : List Move}
    (hmoves : ∀ move ∈ moves, Q move) : P (s.session moves) := by
  induction moves generalizing s with
  | nil => exact start
  | cons move moves ih =>
      have hmove := hmoves move (List.mem_cons_self ..)
      refine ih ?_ fun next hnext => hmoves next (List.mem_cons_of_mem _ hnext)
      cases move with
      | scan offset => exact scan s offset hmove start
      | rewind offset => exact rewind s offset hmove start
      | reset => exact reset s start
      | tokens count =>
          obtain ⟨k, hk⟩ := take_eq_after count s
          show P (s.take count).2
          rw [hk]
          clear hk
          induction k with
          | zero => exact start
          | succ k ih => exact here (s.after k) ih

-- ── the end ──────────────────────────────────────────────────────────────────────

/-- Once the end is found, every further scan finds it again and changes nothing. -/
theorem scanHere_of_finished {s t : Scanner γ} (h : s.scanHere = (.finished, t)) :
    t.scanHere = (.finished, t) ∧ t.reader = s.reader := by
  have hevent : (s.machine.step s.reader).event = .finished := congrArg Prod.fst h
  obtain ⟨hr, hp⟩ := Machine.step_finished_iff.mp hevent
  rw [scanHere, Machine.step_atEnd hp hr] at h
  obtain rfl := (Prod.mk.inj h).2
  refine ⟨?_, rfl⟩
  have hstep := Machine.step_atEnd_of_flushed (Machine.phase_flush _ s.reader.document.size) hr
    (Machine.flushed_flush { s.machine with phase := .literal } _)
  simp only [scanHere, Extent.apply, hstep, Event.fault?]

end Scanner

end TemplateScan
