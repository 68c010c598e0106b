import TemplateScan.Proofs.Text.Cuts
import TemplateScan.Proofs.Text.Readings

/-! # Captures — what is taken is the text between two cursors

    A capture takes some text after the cursor: so many characters, everything up to an offset or
    to the end, a run of characters, a given text or word, an identifier, a number or a string.
    Where it ends is a byte offset, computed from the cursor: one byte for each digit of a number
    and for each quote of a string, and for a text as many as it is encoded in.

    * **`Capture.stop?`** — the offset at which a capture ends; none falls inside a character.
    * **`until?_of_prefix`** — a move to the end of a text that comes next is not refused.
    * **`Capture.Outcome`** — a capture takes the text up to its stop, or else takes nothing.
    * **`Capture.exists_outcome`** — every capture, whatever comes next. -/

namespace TemplateScan.Text.Reader

variable {r : Reader}

-- ── captures ─────────────────────────────────────────────────────────────────────

/-- A capture makes some text after the cursor the token; the spaces and the line breaks there are
    runs as well. -/
inductive Capture where
  | advance (n : Nat)
  | upTo (o : Nat)
  | toEnd
  | run (p : Char → Bool)
  | char (c : Char)
  | text (pattern : List Char)
  | word (pattern : List Char)
  | identifier
  | number
  | quoted (stops : List (List Char))

/-- What a reader answers. -/
inductive Answer where
  | done
  | flag (b : Bool)
  | count (n : Nat)
  | range (start stop : Nat)
  | char (c? : Option Char)
  | text (cs : List Char)
  | name (name? : Option (List Char))
  | place (offset? : Option Nat)
  | position (p : Position)
  | span (s : Span)
  | number (form? : Option NumberForm)
  | string (string? : Option Quoted)

namespace Answer

/-- The answer of an operation that tells whether it has moved. -/
def ofFlag (moved : Bool × Reader) : Answer × Reader :=
  (.flag moved.1, moved.2)

/-- The answer says that something was taken. -/
def succeeded : Answer → Bool
  | flag moved => moved
  | number form? => form?.isSome
  | string string? => string?.isSome
  | _ => true

end Answer

/-- What a capture answers, and the reader after it. -/
def Capture.perform? (r : Reader) : Capture → Option (Answer × Reader)
  | advance n => some (Answer.ofFlag (r.advance n))
  | upTo o => (r.until? o).map Answer.ofFlag
  | toEnd => some (Answer.ofFlag r.toEnd)
  | run p => some (Answer.ofFlag (r.takeWhile p))
  | char c => some (Answer.ofFlag (r.takeChar c))
  | text pattern => some (Answer.ofFlag (r.takeText pattern))
  | word pattern => some (Answer.ofFlag (r.takeWord pattern))
  | identifier => some (Answer.ofFlag r.takeIdentifier)
  | number => some (.number r.takeNumber.1, r.takeNumber.2)
  | quoted stops => some (.string (r.takeQuoted stops).1, (r.takeQuoted stops).2)

/-- The capture names a boundary of the text, or a pattern that is not empty. -/
def Capture.Allowed (text : List Char) : Capture → Prop
  | upTo o => IsBoundary o text
  | .text pattern | word pattern => pattern ≠ []
  | _ => True

-- ── where a capture ends ─────────────────────────────────────────────────────────

/-- The capture is made only if what comes next is of the kind it asks for. -/
def Capture.isConditional : Capture → Bool
  | char _ | text _ | word _ | identifier | number | quoted _ => true
  | advance _ | upTo _ | toEnd | run _ => false

/-- The byte offset at which a capture ends; `none` if what comes next is not of its kind. -/
def Capture.stop? (r : Reader) : Capture → Option Nat
  | advance n => some (r.offset + (r.forward n).1)
  | upTo o => some o
  | toEnd => some r.document.size
  | run p => some (r.offset + byteSize (r.rest.takeWhile p))
  | char c => if r.peek? = some c then some (r.offset + c.utf8Size) else none
  | text pattern => if r.isNext pattern then some (r.offset + byteSize pattern) else none
  | word pattern =>
      if startsWithWord pattern r.rest then some (r.offset + byteSize pattern) else none
  | identifier => (identifier? r.rest).map (r.offset + byteSize ·)
  -- a number is counted in bytes, as if it had been read without regard to characters
  | number => (number? r.rest).map (r.offset + ·.2.length)
  | quoted stops => (quoted? stops r.rest).map fun
      | .closed _ body => r.offset + 1 + byteSize body + 1
      | .unclosed _ body => r.offset + 1 + byteSize body

/-- What a capture comes to: the text up to its stop is the token, or nothing was taken. -/
structure Capture.Outcome (c : Capture) (r : Reader) (answer : Answer) (next : Reader) :
    Prop where
  /-- The move to the stop is not refused, and is the one that is made. -/
  moves : ∀ o, c.stop? r = some o → r.until? o = some (answer.succeeded, next)
  /-- What is taken is not empty. -/
  taken : answer.succeeded = true → ∃ text, text ≠ [] ∧ r.Captures next text
  /-- A capture that asks for something and does not find it changes nothing. -/
  declined : answer.succeeded = false → c.isConditional = true → next = r
  /-- Nor does a capture of nothing, except that a new token begins. -/
  empty : answer.succeeded = false → c.isConditional = false → next = r.mark

-- ── moves over a text that comes next ────────────────────────────────────────────

/-- A move over a text that comes next is not refused, and succeeds if there is any. -/
theorem extendTo?_of_prefix {w : List Char} (h : w <+: r.rest) :
    r.extendTo? (r.offset + byteSize w) = some (!w.isEmpty, r.extend w.length) := by
  have hflag : decide (r.offset < r.offset + byteSize w) = !w.isEmpty := by
    cases w with
    | nil => exact decide_eq_false (Nat.lt_irrefl _)
    | cons c cs =>
        have hc := c.utf8Size_pos
        rw [byteSize_cons]
        exact decide_eq_true (by omega)
  have hmove := extendTo?_offsetAt r w.length
  rwa [offsetAt_length h, hflag] at hmove

/-- A move to a boundary is a move over a text that comes next. -/
theorem extendTo?_of_isBoundary {o : Nat} (h : IsBoundary o r.document.chars) :
    ∃ w, w <+: r.rest ∧ r.extendTo? o = some (!w.isEmpty, r.extend w.length) := by
  rcases Nat.le_total r.offset o with hle | hle
  · obtain ⟨n, -, rfl⟩ := isBoundary_iff_offsetAt.mp ⟨h, hle⟩
    have hpre := List.take_prefix n r.rest
    exact ⟨_, hpre, extendTo?_of_prefix hpre⟩
  · -- the offset lies behind, and the cursor stays
    have htarget : min o r.document.size ≤ r.offset := Nat.le_trans (Nat.min_le_left _ _) hle
    refine ⟨[], List.nil_prefix, ?_⟩
    rw [extendTo?, List.length_nil, extend_zero]
    exact if_pos htarget

/-- A capture of a text that comes next is not refused, and succeeds if there is any. -/
theorem until?_of_prefix {w : List Char} (h : w <+: r.rest) :
    r.until? (r.offset + byteSize w) = some (!w.isEmpty, r.capture w.length) := by
  rw [← offset_mark]
  exact extendTo?_of_prefix (r := r.mark) h

-- ── what a capture comes to ──────────────────────────────────────────────────────

/-- A number has as many bytes as characters. -/
theorem byteSize_number {text : List Char} {form : NumberForm} {number : List Char}
    (h : number? text = some (form, number)) : byteSize number = number.length := by
  have hall := (number?_eq_some h).2.2
  clear h
  induction number with
  | nil => rfl
  | cons c cs ih =>
      have hc : c.utf8Size = 1 := by
        have hchar := hall c (List.mem_cons_self ..)
        simp only [isNumberChar, Bool.or_eq_true, beq_iff_eq] at hchar
        rcases hchar with (hdigit | rfl) | rfl
        · simp only [Char.isDigit, Bool.and_eq_true, decide_eq_true_eq] at hdigit
          refine Char.utf8Size_eq_one_iff.mpr (UInt32.le_trans hdigit.2 ?_)
          decide
        · rfl
        · rfl
      rw [byteSize_cons, hc, ih fun d hd => hall d (List.mem_cons_of_mem _ hd), List.length_cons,
        Nat.add_comm]

namespace Capture

variable {c : Capture} {answer : Answer} {next : Reader}

/-- A capture takes a text that comes next, and stops behind it. -/
theorem Outcome.of_prefix {w : List Char} (hw : w <+: r.rest)
    (hmoves : ∀ o, c.stop? r = some o → r.until? o = some (!w.isEmpty, r.capture w.length))
    (ha : answer.succeeded = !w.isEmpty) (hc : c.isConditional = true → w ≠ []) :
    c.Outcome r answer (r.capture w.length) where
  moves o ho := by rw [ha, hmoves o ho]
  taken h := by
    rw [ha, Bool.not_eq_true', List.isEmpty_eq_false_iff] at h
    exact ⟨w, h, captures_capture hw⟩
  declined h hcond := by
    rw [ha, Bool.not_eq_false', List.isEmpty_iff] at h
    exact absurd h (hc hcond)
  empty h _ := by
    rw [ha, Bool.not_eq_false', List.isEmpty_iff] at h
    rw [h]
    exact extend_zero r.mark

/-- The text may be counted in bytes to find where it stops. -/
theorem Outcome.of_stop {w : List Char} (hw : w <+: r.rest)
    (hstop : c.stop? r = some (r.offset + byteSize w)) (ha : answer.succeeded = !w.isEmpty)
    (hc : c.isConditional = true → w ≠ []) : c.Outcome r answer (r.capture w.length) := by
  refine Outcome.of_prefix hw (fun o ho => ?_) ha hc
  obtain rfl := Option.some.inj (hstop.symm.trans ho)
  exact until?_of_prefix hw

/-- A capture that does not find what it asks for takes nothing. -/
theorem Outcome.of_none (hstop : c.stop? r = none) (ha : answer.succeeded = false)
    (hc : c.isConditional = true) : c.Outcome r answer r where
  moves o ho := by
    rw [hstop] at ho
    exact nomatch ho
  taken h := by
    rw [ha] at h
    exact nomatch h
  declined _ _ := rfl
  empty _ h := by
    rw [hc] at h
    exact nomatch h

/-- Whatever a capture comes to, it stays in the document and does not move the cursor back. -/
theorem Outcome.document_and_offset (h : c.Outcome r answer next) :
    next.document = r.document ∧ r.offset ≤ next.offset := by
  cases ha : answer.succeeded with
  | true =>
      obtain ⟨text, -, htext⟩ := h.taken ha
      have hoffset : next.offset = next.start + byteSize next.token := rfl
      rw [hoffset, htext.start]
      exact ⟨htext.document, Nat.le_add_right _ _⟩
  | false =>
      cases hc : c.isConditional with
      | true =>
          rw [h.declined ha hc]
          exact ⟨rfl, Nat.le_refl _⟩
      | false =>
          rw [h.empty ha hc, offset_mark]
          exact ⟨rfl, Nat.le_refl _⟩

/-- What a capture looks for is taken if it is found. -/
theorem exists_outcome_of_found {α : Type} (found? : Option α) (text : α → List Char)
    (answer : Option α → Answer) (hc : c.isConditional = true)
    (htext : ∀ x, found? = some x → text x <+: r.rest ∧ text x ≠ [])
    (ha : ∀ x?, (answer x?).succeeded = x?.isSome)
    (hstop : c.stop? r = found?.map fun x => r.offset + byteSize (text x))
    (hperform : c.perform? r =
      some (answer found?, found?.elim r fun x => r.capture (text x).length)) :
    ∃ answer next, c.perform? r = some (answer, next) ∧ c.Outcome r answer next := by
  refine ⟨_, _, hperform, ?_⟩
  cases found? with
  | none => exact .of_none hstop (ha none) hc
  | some x =>
      obtain ⟨hpre, hne⟩ := htext x rfl
      refine .of_stop hpre hstop ?_ fun _ => hne
      rw [ha, List.isEmpty_eq_false_iff.mpr hne]
      rfl

/-- A given text is taken on a condition under which it comes next. -/
theorem exists_outcome_of_ite {p : Prop} [Decidable p] {w : List Char}
    (hc : c.isConditional = true) (hw : p → w <+: r.rest) (hne : w ≠ [])
    (hstop : c.stop? r = if p then some (r.offset + byteSize w) else none)
    (hperform : c.perform? r =
      some (Answer.ofFlag (if p then (!w.isEmpty, r.capture w.length) else (false, r)))) :
    ∃ answer next, c.perform? r = some (answer, next) ∧ c.Outcome r answer next := by
  by_cases hp : p
  · rw [if_pos hp] at hstop hperform
    exact ⟨_, _, hperform, .of_stop (hw hp) hstop rfl fun _ => hne⟩
  · rw [if_neg hp] at hstop hperform
    exact ⟨_, _, hperform, .of_none hstop rfl hc⟩

/-- A string stops behind its closing quote, or behind its body. -/
theorem stop?_quoted {stops : List (List Char)} :
    (quoted stops).stop? r =
      (quoted? stops r.rest).map fun string => r.offset + byteSize string.text := by
  cases hq : quoted? stops r.rest with
  | none => simp only [stop?, hq, Option.map_none]
  | some string =>
      obtain ⟨quote, tail, hr, hquote, hpre, -, -⟩ := quoted?_eq_some hq
      have hsize := utf8Size_of_isQuote hquote
      simp only [stop?, hq, Option.map_some, Option.some.injEq]
      cases string with
      | closed q body =>
          rw [hr, Quoted.text, List.cons_append] at hpre
          obtain ⟨rfl, -⟩ := List.cons_prefix_cons.mp hpre
          simp only [Quoted.text, List.cons_append, byteSize_cons, byteSize_append, byteSize_nil,
            hsize]
          omega
      | unclosed q body =>
          rw [hr, Quoted.text] at hpre
          obtain ⟨rfl, -⟩ := List.cons_prefix_cons.mp hpre
          simp only [Quoted.text, byteSize_cons, hsize]
          omega

/-- A capture is answered, and comes to what it should. -/
theorem exists_outcome (c : Capture) (h : c.Allowed r.document.chars) :
    ∃ answer next, c.perform? r = some (answer, next) ∧ c.Outcome r answer next := by
  cases c with
  | advance n =>
      have hflag : (0 < n && !r.atEnd) = !(r.rest.take n).isEmpty := by
        cases n <;> cases hr : r.rest <;> simp [atEnd, hr]
      have hcapture : (r.advance n).2 = r.capture (r.rest.take n).length :=
        (extend_length_take r.mark n).symm
      refine ⟨_, _, rfl, ?_⟩
      show Outcome _ r (.flag (r.advance n).1) (r.advance n).2
      rw [hcapture]
      exact .of_stop (List.take_prefix n r.rest) rfl hflag nofun
  | upTo o =>
      obtain ⟨w, hw, hmove⟩ := extendTo?_of_isBoundary (r := r.mark) h
      have hperform : (upTo o).perform? r = some (.flag !w.isEmpty, r.capture w.length) :=
        congrArg (Option.map Answer.ofFlag) hmove
      refine ⟨_, _, hperform, Outcome.of_prefix hw (fun o' ho => ?_) rfl nofun⟩
      obtain rfl := Option.some.inj ho
      exact hmove
  | toEnd =>
      refine ⟨_, _, rfl, .of_stop (List.prefix_refl r.rest) ?_ rfl nofun⟩
      rw [offset_add_rest]
      rfl
  | run p => exact ⟨_, _, rfl, .of_stop (List.takeWhile_prefix p) rfl rfl nofun⟩
  | char d =>
      have hnext : r.peek? = some d ↔ r.isNext [d] = true := by
        rw [isNext, List.isPrefixOf_iff_prefix, peek?, List.head?_eq_some_iff]
        exact exists_congr fun tail => eq_comm
      refine exists_outcome_of_ite (p := r.isNext [d] = true) rfl List.isPrefixOf_iff_prefix.mp
        (List.cons_ne_nil d []) ?_ rfl
      simp only [stop?, hnext, byteSize_cons, byteSize_nil, Nat.add_zero]
  | text pattern =>
      exact exists_outcome_of_ite (p := r.isNext pattern = true) rfl
        List.isPrefixOf_iff_prefix.mp h rfl rfl
  | word pattern => exact exists_outcome_of_ite rfl prefix_of_startsWithWord h rfl rfl
  | identifier =>
      refine exists_outcome_of_found (identifier? r.rest) id (fun name? => .flag name?.isSome) rfl
        (fun name hname => ?_) (fun _ => rfl) rfl ?_
      · obtain ⟨hpre, hpos, -⟩ := identifier?_eq_some hname
        exact ⟨hpre, List.length_pos_iff.mp hpos⟩
      · rw [perform?, takeIdentifier]
        cases identifier? r.rest <;> rfl
  | number =>
      refine exists_outcome_of_found (number? r.rest) (·.2)
        (fun found? => .number (found?.map (·.1))) rfl (fun found hfound => ?_) ?_ ?_ ?_
      · obtain ⟨hpre, hpos, -⟩ := number?_eq_some hfound
        exact ⟨hpre, List.length_pos_iff.mp hpos⟩
      · exact fun found? => Option.isSome_map
      · cases hnumber : number? r.rest with
        | none => simp only [stop?, hnumber, Option.map_none]
        | some found => simp only [stop?, hnumber, Option.map_some, byteSize_number hnumber]
      · rw [perform?, takeNumber]
        cases number? r.rest <;> rfl
  | quoted stops =>
      refine exists_outcome_of_found (quoted? stops r.rest) Quoted.text .string rfl
        (fun string hstring => ?_) (fun _ => rfl) stop?_quoted ?_
      · obtain ⟨-, -, -, -, hpre, hpos, -⟩ := quoted?_eq_some hstring
        exact ⟨hpre, List.length_pos_iff.mp hpos⟩
      · rw [perform?, takeQuoted]
        cases quoted? stops r.rest <;> rfl

end Capture

end TemplateScan.Text.Reader
