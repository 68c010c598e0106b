import TemplateScan.Dialect.Basic
import TemplateScan.Proofs.Scan.Lexemes
import TemplateScan.Proofs.Scan.Passage
import TemplateScan.Proofs.Scan.Skipping
import TemplateScan.Proofs.Scan.TrimDash

/-! # Recovery — nothing follows a recovery but the end of the tag

    Some faults cover everything up to the place where recovery stops, and a part of a tag that is
    not scanned reaches just as far.  The text alone decides where that is.  What comes next there
    is a close delimiter, perhaps behind a dash, or an open delimiter, or nothing at all, and in
    each case only one way is left to end the tag.  So one fault does not lead to another.

    * **`RecoveryStop`** — where recovery from a place in a document stops, and how a tag ends
      there.
    * **`finishes_of_ending`** — the scans from there on, by induction on the brackets still open.
    * **`recovery_closes`** — what is left of a tag after a recovery, in any run. -/

namespace TemplateScan

open Text

-- ── where recovery stops ─────────────────────────────────────────────────────────

/-- How a tag ends without anything else in it, by the text that comes next. -/
inductive Ending (form : TagForm) (text : List Char) : List Lexeme → Prop where
  | closer (h : form.closer <+: text) : Ending form text [⟨.closeDelimiter, form.closer⟩]
  | dash (h : '-' :: form.closer <+: text) :
      Ending form text [⟨.trimRight, ['-']⟩, ⟨.closeDelimiter, form.closer⟩]
  | opener {o} (ho : o ∈ openers) (h : o <+: text) :
      Ending form text [⟨.invalid .missingClose, []⟩]
  | nothing (h : text = []) : Ending form text [⟨.invalid .missingClose, []⟩]

/-- Where recovery from the place `p` of a document stops in a tag of the form, and how the tag ends
    there: at the first close delimiter, or the dash right before it, unless an open delimiter comes
    before that; at the first open delimiter; at the end of the document. -/
inductive RecoveryStop (d : Document) (form : TagForm) (p : Nat) : Nat → List Lexeme → Prop where
  | closer {q} (hc : d.FirstFrom [form.closer] p q) (ho : ∀ o, d.FirstFrom openers p o → q < o)
      (hd : ∀ k, p ≤ k → k + 1 = q → ¬ d.OccursAt ['-'] k) :
      RecoveryStop d form p q [⟨.closeDelimiter, form.closer⟩]
  | dash {q} (hc : d.FirstFrom [form.closer] p (q + 1))
      (ho : ∀ o, d.FirstFrom openers p o → q + 1 < o) (hp : p ≤ q) (hd : d.OccursAt ['-'] q) :
      RecoveryStop d form p q [⟨.trimRight, ['-']⟩, ⟨.closeDelimiter, form.closer⟩]
  | opener {q} (ho : d.FirstFrom openers p q) (hc : ∀ c, d.FirstFrom [form.closer] p c → q < c) :
      RecoveryStop d form p q [⟨.invalid .missingClose, []⟩]
  | documentEnd (ho : ∀ o, ¬ d.FirstFrom openers p o)
      (hc : ∀ c, ¬ d.FirstFrom [form.closer] p c) :
      RecoveryStop d form p d.size [⟨.invalid .missingClose, []⟩]

variable {form : TagForm} {text : List Char} {r : Reader} {n : Nat}

/-- Up to the end of its tag recovery stops at the close delimiter or at the dash before it. -/
theorem recoveryStop_of_tagEnd (h : tagEnd? form r.rest = some n) :
    ∃ ending, RecoveryStop r.document form r.offset (r.offsetAt n) ending ∧
      Ending form (r.rest.drop n) ending := by
  obtain ⟨k, hk, hat, hno⟩ := tagEnd?_eq_some h
  have hlen : k ≤ r.rest.length := by
    refine Nat.le_of_not_lt fun hlt => ?_
    rw [List.drop_eq_nil_of_le (Nat.le_of_lt hlt)] at hat
    cases form <;> exact absurd (List.prefix_nil.mp hat) (by decide)
  obtain ⟨hfirst, hopen⟩ := earliest_of_closed ⟨hlen, hno⟩ hat
  have hcloser : r.document.FirstFrom [form.closer] r.offset (r.offsetAt k) :=
    Reader.firstFrom_iff.mpr ⟨k, hlen, rfl, hfirst⟩
  have hopener : ∀ o, r.document.FirstFrom openers r.offset o → r.offsetAt k < o := by
    intro o ho
    obtain ⟨j, hj, rfl, hfound⟩ := Reader.firstFrom_iff.mp ho
    exact Reader.offsetAt_lt (hopen j hfound) hj
  rcases hk with rfl | ⟨rfl, hdash⟩
  · refine ⟨_, .closer hcloser hopener fun q hq hqk hocc => ?_, .closer hat⟩
    -- a dash right before the close delimiter would be where the tag ends
    obtain ⟨j, rfl, hdash⟩ := Reader.occursAt_char_iff.mp ⟨hocc, hq⟩
    obtain ⟨hlt, -⟩ := List.getElem?_eq_some_iff.mp hdash
    have hsucc : r.offsetAt (j + 1) = r.offsetAt k := by
      rw [← hqk]
      exact Reader.offsetAt_succ hdash
    obtain rfl : j + 1 = k := by
      rcases Nat.lt_trichotomy (j + 1) k with hjk | hjk | hjk
      · exact absurd hsucc (Nat.ne_of_lt (Reader.offsetAt_lt hjk hlen))
      · exact hjk
      · exact absurd hsucc.symm (Nat.ne_of_lt (Reader.offsetAt_lt hjk hlt))
    refine not_dashed_tagEnd h ⟨?_, hat⟩
    rw [List.getLast?_take, if_neg (Nat.succ_ne_zero j), Nat.add_sub_cancel, hdash]
    rfl
  · obtain ⟨hlt, hchar⟩ := List.getElem?_eq_some_iff.mp hdash
    rw [Reader.offsetAt_succ hdash] at hcloser hopener
    obtain ⟨hocc, hle⟩ := Reader.occursAt_char_iff.mpr ⟨n, rfl, hdash⟩
    refine ⟨_, .dash hcloser hopener hle hocc, .dash ?_⟩
    rw [List.drop_eq_getElem_cons hlt, hchar]
    exact List.cons_prefix_cons.mpr ⟨rfl, hat⟩

/-- Recovery stops where `RecoveryStop` says, and the tag can only end in its way there. -/
theorem recoveryStop_recoveryEnd (r : Reader) (form : TagForm) :
    ∃ ending, RecoveryStop r.document form r.offset (r.offsetAt (recoveryEnd form r.rest)) ending ∧
      Ending form (r.rest.drop (recoveryEnd form r.rest)) ending := by
  rw [recoveryEnd]
  cases he : tagEnd? form r.rest with
  | some n => exact recoveryStop_of_tagEnd he
  | none =>
      obtain ⟨hblocked, -⟩ := earliest_of_abandoned (n := 0) (Avoids.zero _ _) he
      cases ho : earliest? openers r.rest with
      | some k =>
          obtain ⟨⟨o, hmem, hpre⟩, -⟩ := earliest?_eq_some_iff.mp ho
          have hlen : k ≤ r.rest.length := by
            refine Nat.le_of_not_lt fun hlt => ?_
            rw [List.drop_eq_nil_of_le (Nat.le_of_lt hlt), List.prefix_nil] at hpre
            rw [hpre] at hmem
            exact absurd hmem (by decide)
          refine ⟨_, .opener (Reader.firstFrom_iff.mpr ⟨k, hlen, rfl, ho⟩) fun c hc => ?_,
            .opener hmem hpre⟩
          obtain ⟨i, hi, rfl, hfound⟩ := Reader.firstFrom_iff.mp hc
          obtain ⟨j, hj, hfirst⟩ := hblocked i hfound
          obtain rfl : k = j := Option.some.inj (ho.symm.trans hfirst)
          exact Reader.offsetAt_lt hj hi
      | none =>
          have hopener : ∀ o, ¬ r.document.FirstFrom openers r.offset o := by
            intro o hfirst
            obtain ⟨j, -, -, hfound⟩ := Reader.firstFrom_iff.mp hfirst
            cases ho.symm.trans hfound
          have hcloser : ∀ c, ¬ r.document.FirstFrom [form.closer] r.offset c := by
            intro c hc
            obtain ⟨i, -, -, hfound⟩ := Reader.firstFrom_iff.mp hc
            obtain ⟨j, -, hfirst⟩ := hblocked i hfound
            cases ho.symm.trans hfirst
          have hend : r.offsetAt r.rest.length = r.document.size := by
            rw [Reader.offsetAt, List.take_length, Reader.offset_add_rest]
          refine ⟨_, ?_, .nothing (List.drop_length)⟩
          rw [Option.getD_none, Option.getD_none, hend]
          exact .documentEnd hopener hcloser

-- ── one scan from there on ───────────────────────────────────────────────────────

namespace Machine

variable {γ : Type} [Grammar γ] {m : Machine γ} {ending : List Lexeme}

/-- What ends a tag does not begin with a blank. -/
theorem step_eq_close (hp : m.phase = .close false) (h : Ending m.tag.form r.rest ending)
    (hr : r.rest ≠ []) : m.step r = m.close false r.rest := by
  obtain ⟨c, hc, hblank⟩ : ∃ c, r.rest.head? = some c ∧ isTagBlank c = false := by
    cases h with
    | closer h =>
        obtain ⟨tail, htail⟩ := h
        cases hf : m.tag.form <;> rw [← htail, hf] <;> exact ⟨_, rfl, rfl⟩
    | dash h =>
        obtain ⟨tail, htail⟩ := h
        rw [← htail]
        exact ⟨_, rfl, rfl⟩
    | opener ho h =>
        obtain ⟨tail, htail⟩ := h
        simp only [openers, TagForm.opener, List.mem_cons, List.not_mem_nil, or_false] at ho
        rcases ho with rfl | rfl <;> rw [← htail] <;> exact ⟨_, rfl, rfl⟩
    | nothing h => exact absurd h hr
  rw [step_eq_stepPhase (by rw [hp]; rintro ⟨⟩) hc hblank, stepPhase, hp]

/-- A bracket still open is reported first. -/
theorem step_missingBracket (hp : m.phase = .close false) (h : Ending m.tag.form r.rest ending)
    (hb : m.brackets.isEmpty = false) :
    m.step r = { m with brackets := m.brackets.pop }.reportHere .missingBracket (.close false) := by
  by_cases hr : r.rest = []
  · have hend : r.atEnd = true := by rw [Reader.atEnd, hr]; rfl
    rw [step, if_pos hend, stepEnd, if_pos (by rw [hp]; rfl), hb, hp]
    rfl
  · rw [step_eq_close hp h hr, close, hb]
    rfl

/-- The close delimiter ends the tag. -/
theorem step_closer (hp : m.phase = .close false) (hb : m.brackets.isEmpty = true)
    (h : m.tag.form.closer <+: r.rest) :
    m.step r = m.leaveTag.emit .closeDelimiter m.tag.form.closer.length .literal := by
  have hr : r.rest ≠ [] := by
    intro hnil
    rw [hnil, List.prefix_nil] at h
    cases hf : m.tag.form <;> rw [hf] at h <;> exact nomatch h
  rw [step_eq_close hp (.closer h) hr, close_closer false hb h]
  rfl

/-- The dash before it trims the text behind the tag. -/
theorem step_dash (hp : m.phase = .close false) (hb : m.brackets.isEmpty = true)
    (h : '-' :: m.tag.form.closer <+: r.rest) : m.step r = m.emit .trimRight 1 (.close false) := by
  have hr : r.rest ≠ [] := by
    intro hnil
    rw [hnil] at h
    exact nomatch List.prefix_nil.mp h
  rw [step_eq_close hp (.dash h) hr, close, hb, List.isPrefixOf_iff_prefix.mpr h]
  rfl

/-- Before an open delimiter there is no end of the tag. -/
theorem close_opener {o : List Char} (hb : m.brackets.isEmpty = true) (ho : o ∈ openers)
    (h : o <+: r.rest) : m.close false r.rest = m.leaveTag.reportHere .missingClose .literal := by
  have hbrace : ∃ tail, r.rest = '{' :: tail := by
    obtain ⟨tail, htail⟩ := h
    simp only [openers, TagForm.opener, List.mem_cons, List.not_mem_nil, or_false] at ho
    rcases ho with rfl | rfl <;> exact ⟨_, htail.symm⟩
  have hcloser : m.tag.form.closer.isPrefixOf r.rest = false := by
    rw [Bool.eq_false_iff, ne_eq, List.isPrefixOf_iff_prefix]
    exact fun hc => not_opener_of_closer hc ho h
  have hdash : ('-' :: m.tag.form.closer).isPrefixOf r.rest = false := by
    obtain ⟨tail, htail⟩ := hbrace
    rw [htail]
    rfl
  have hspaced : spacedDash? m.tag.form r.rest = none := by
    obtain ⟨tail, htail⟩ := hbrace
    rw [htail]
    rfl
  have hnone : tagEnd? m.tag.form r.rest = none := by
    refine tagEnd?_eq_none_iff.mpr fun i hi => ⟨0, ?_, o, ho, h⟩
    refine Nat.pos_of_ne_zero ?_
    rintro rfl
    exact not_opener_of_closer hi ho h
  unfold close
  dsimp only
  rw [hb, hdash, hspaced, hcloser, hnone]
  rfl

/-- Where an open delimiter or nothing comes next, the tag is left without its end. -/
theorem step_missingClose (hp : m.phase = .close false) (hb : m.brackets.isEmpty = true)
    (h : Ending m.tag.form r.rest [⟨.invalid .missingClose, []⟩]) :
    m.step r = m.leaveTag.reportHere .missingClose .literal := by
  cases h with
  | nothing hr =>
      have hend : r.atEnd = true := by rw [Reader.atEnd, hr]; rfl
      rw [step, if_pos hend, stepEnd, if_pos (by rw [hp]; rfl), hb]
      rfl
  | opener ho ho' =>
      have hr : r.rest ≠ [] := by
        intro hnil
        rw [hnil, List.prefix_nil] at ho'
        rw [ho'] at ho
        exact absurd ho (by decide)
      rw [step_eq_close hp (.opener ho ho') hr, close_opener hb ho ho']

end Machine

-- ── runs ─────────────────────────────────────────────────────────────────────────

namespace Scanner

variable {γ : Type} [Grammar γ] {s : Scanner γ} {k e : Nat} {words ending : List Lexeme}

/-- Scan `n` passes over everything up to where recovery stops: with a fault, or as a part of its
    tag that is not scanned. -/
inductive RecoversAt (s : Scanner γ) (n : Nat) : Prop where
  | fault {grammar : γ} {fault : Fault}
      (h : (s.after n).machine.step (s.after n).reader =
        { (s.after n).machine with grammar }.recover fault (s.after n).reader.rest)
  | skipped (h : s.eventAt n = .token .skipped)

theorem RecoversAt.of_recover {fault : Fault} (h : (s.after n).machine.step (s.after n).reader =
    (s.after n).machine.recover fault (s.after n).reader.rest) : s.RecoversAt n :=
  .fault h

/-- The scans up to the one after `k` end the tag, find these tokens, and none of them recovers. -/
structure Finishes (s : Scanner γ) (k : Nat) (words : List Lexeme) : Prop where
  found : s.lexemesUpTo (k + 1) = words
  inside : ∀ j < k, s.eventAt j ≠ .token .openDelimiter ∧ (s.eventAt j).endsTag = false
  ends : (s.eventAt k).endsTag = true
  once : ∀ j ≤ k, ¬ s.RecoversAt j

theorem recoversAt_add (s : Scanner γ) (i k : Nat) :
    s.RecoversAt (i + k) ↔ (s.after i).RecoversAt k := by
  constructor
  · rintro (⟨h⟩ | h)
    · rw [after_add] at h
      exact .fault h
    · rw [eventAt_add] at h
      exact .skipped h
  · rintro (⟨h⟩ | h)
    · rw [← after_add] at h
      exact .fault h
    · rw [← eventAt_add] at h
      exact .skipped h

/-- A scan that finds something else, or gives up a bracket, does not recover. -/
theorem not_recoversAt {kind : TokenKind} (he : s.eventAt k = .token kind) (hk : kind ≠ .skipped)
    (hother : (∀ fault, kind ≠ .invalid fault) ∨
      (s.after (k + 1)).machine.phase ≠ .close false ∨
      (s.after (k + 1)).machine.brackets ≠ (s.after k).machine.brackets) : ¬ s.RecoversAt k := by
  rintro (⟨h⟩ | h)
  · rw [after_succ, machine_scanHere, h] at hother
    rw [eventAt, event_scanHere, h] at he
    rcases hother with hfault | hphase | hbrackets
    · exact hfault _ (Event.token.inj he).symm
    · exact hphase rfl
    · exact hbrackets rfl
  · exact hk (Event.token.inj (he.symm.trans h))

/-- One more scan before those that end the tag. -/
theorem Finishes.cons {word : Lexeme} (hw : s.lexemeAt 0 = some word)
    (hin : s.eventAt 0 ≠ .token .openDelimiter ∧ (s.eventAt 0).endsTag = false)
    (hr : ¬ s.RecoversAt 0) (h : (s.after 1).Finishes k words) :
    s.Finishes (k + 1) (word :: words) := by
  have hshift : ∀ j, s.eventAt (j + 1) = (s.after 1).eventAt j := by
    intro j
    rw [Nat.add_comm, eventAt_add]
  refine ⟨?_, fun j hj => ?_, ?_, fun j hj => ?_⟩
  · rw [Nat.add_comm (k + 1), lexemesUpTo_add, lexemesUpTo_one, hw, h.found]
    rfl
  · cases j with
    | zero => exact hin
    | succ j =>
        rw [hshift]
        exact h.inside j (Nat.lt_of_succ_lt_succ hj)
  · rw [hshift]
    exact h.ends
  · cases j with
    | zero => exact hr
    | succ j =>
        rw [Nat.add_comm, recoversAt_add]
        exact h.once j (Nat.le_of_succ_le_succ hj)

/-- The scan that ends the tag. -/
theorem Finishes.last {word : Lexeme} (hw : s.lexemeAt 0 = some word)
    (he : (s.eventAt 0).endsTag = true) (hr : ¬ s.RecoversAt 0) : s.Finishes 0 [word] := by
  refine ⟨?_, nofun, he, fun j hj => ?_⟩
  · rw [lexemesUpTo_one, hw]
    rfl
  · obtain rfl : j = 0 := Nat.le_zero.mp hj
    exact hr

/-- The close delimiter ends the tag. -/
theorem finishes_closer (hp : s.machine.phase = .close false)
    (hb : s.machine.brackets.isEmpty = true) (h : s.machine.tag.form.closer <+: s.reader.rest) :
    s.Finishes 0 [⟨.closeDelimiter, s.machine.tag.form.closer⟩] := by
  have hstep := Machine.step_closer hp hb h
  have hevent : s.eventAt 0 = .token .closeDelimiter := congrArg Reply.event hstep
  obtain ⟨hreader, -⟩ := after_one_of_take hstep
  refine .last ?_ (by rw [hevent]; rfl) (not_recoversAt hevent nofun (Or.inl nofun))
  rw [lexemeAt_of_token hevent, hreader, Reader.token_capture, ← List.prefix_iff_eq_take.mp h]

/-- So does the dash with the close delimiter behind it. -/
theorem finishes_dash (hp : s.machine.phase = .close false)
    (hb : s.machine.brackets.isEmpty = true)
    (h : '-' :: s.machine.tag.form.closer <+: s.reader.rest) :
    s.Finishes 1 [⟨.trimRight, ['-']⟩, ⟨.closeDelimiter, s.machine.tag.form.closer⟩] := by
  have hstep := Machine.step_dash hp hb h
  have hevent : s.eventAt 0 = .token .trimRight := congrArg Reply.event hstep
  obtain ⟨hreader, hmachine⟩ := after_one_of_take hstep
  obtain ⟨tail, htail⟩ := h
  have hcloser : s.machine.tag.form.closer <+: (s.after 1).reader.rest := by
    rw [hreader, Reader.rest_capture, ← htail]
    exact List.prefix_append ..
  have hlast := finishes_closer (s := s.after 1) (by rw [hmachine]) (by rw [hmachine]; exact hb)
    (by rw [hmachine]; exact hcloser)
  rw [hmachine] at hlast
  refine .cons ?_ ?_ (not_recoversAt hevent nofun (Or.inl nofun)) hlast
  · rw [lexemeAt_of_token hevent, hreader, Reader.token_capture, ← htail]
    rfl
  · rw [hevent]
    exact ⟨nofun, rfl⟩

/-- Where no close delimiter can come, its absence is reported without taking any text. -/
theorem finishes_missingClose (hp : s.machine.phase = .close false)
    (hb : s.machine.brackets.isEmpty = true)
    (h : Ending s.machine.tag.form s.reader.rest [⟨.invalid .missingClose, []⟩]) :
    s.Finishes 0 [⟨.invalid .missingClose, []⟩] := by
  have hstep := Machine.step_missingClose hp hb h
  have hevent : s.eventAt 0 = .token (.invalid .missingClose) := congrArg Reply.event hstep
  obtain ⟨hreader, hmachine⟩ := after_one_of_take hstep
  refine .last ?_ (by rw [hevent]; rfl) (not_recoversAt hevent nofun (Or.inr (Or.inl ?_)))
  · rw [lexemeAt_of_token hevent, hreader, Reader.token_capture, List.take_zero]
  · rw [hmachine]
    nofun

/-- Every bracket still open is reported, one by one and without taking any text; then the tag
    ends. -/
theorem finishes_of_ending (hp : s.machine.phase = .close false)
    (h : Ending s.machine.tag.form s.reader.rest ending) :
    ∃ k, s.Finishes k
      (List.replicate s.machine.brackets.depth ⟨.invalid .missingBracket, []⟩ ++ ending) := by
  induction hd : s.machine.brackets.depth generalizing s with
  | zero =>
      have hb : s.machine.brackets.isEmpty = true := Brackets.isEmpty_iff_depth.mpr hd
      cases h with
      | closer h => exact ⟨0, finishes_closer hp hb h⟩
      | dash h => exact ⟨1, finishes_dash hp hb h⟩
      | opener ho h => exact ⟨0, finishes_missingClose hp hb (.opener ho h)⟩
      | nothing h => exact ⟨0, finishes_missingClose hp hb (.nothing h)⟩
  | succ depth ih =>
      have hb : s.machine.brackets.isEmpty = false := by
        rw [Bool.eq_false_iff, ne_eq, Brackets.isEmpty_iff_depth, hd]
        exact Nat.succ_ne_zero depth
      have hpop := Brackets.depth_eq_of_not_isEmpty hb
      have hstep := Machine.step_missingBracket hp h hb
      have hevent : s.eventAt 0 = .token (.invalid .missingBracket) := congrArg Reply.event hstep
      obtain ⟨hreader, hmachine⟩ := after_one_of_take hstep
      have hrest : (s.after 1).reader.rest = s.reader.rest := by
        rw [hreader, Reader.rest_capture, List.drop_zero]
      obtain ⟨k, hk⟩ := ih (s := s.after 1) (by rw [hmachine]) (by rw [hmachine, hrest]; exact h)
        (by rw [hmachine]; show s.machine.brackets.pop.depth = depth; omega)
      refine ⟨k + 1, .cons ?_ ?_ (not_recoversAt hevent nofun (Or.inr (Or.inr ?_))) hk⟩
      · rw [lexemeAt_of_token hevent, hreader, Reader.token_capture, List.take_zero]
      · rw [hevent]
        exact ⟨nofun, rfl⟩
      · -- a bracket fewer is open
        rw [hmachine]
        intro heq
        have hdepth := congrArg Brackets.depth heq
        have hdepth : s.machine.brackets.pop.depth = s.machine.brackets.depth := hdepth
        omega

-- ── whole tags ───────────────────────────────────────────────────────────────────

section Documents

variable {source : String} {grammar : γ}

/-- A recovery takes place inside a tag, and takes everything up to where recovery stops. -/
theorem RecoversAt.leads (h : (ofString source grammar).RecoversAt n) :
    let s := ofString source grammar
    (s.after n).machine.phase.inTag = true ∧
      (s.after (n + 1)).reader = (s.after n).reader.capture
        (recoveryEnd (s.after n).machine.tag.form (s.after n).reader.rest) ∧
      ∃ g : γ, (s.after (n + 1)).machine =
        { (s.after n).machine with grammar := g, phase := .close false } := by
  intro s
  rw [after_succ, reader_scanHere, machine_scanHere]
  rcases h with ⟨h⟩ | h
  · rw [h]
    refine ⟨?_, rfl, _, rfl⟩
    -- no scan that starts outside a tag leads to the end of one
    have hphase : ((s.after n).machine.step (s.after n).reader).machine.phase = .close false := by
      rw [h]
      rfl
    cases hin : (s.after n).machine.phase.inTag with
    | true => rfl
    | false =>
        obtain ⟨form, -, heq⟩ := Machine.step_enters hin (by rw [hphase]; rfl)
        rw [heq] at hphase
        exact nomatch hphase
  · obtain ⟨hin, -, heq⟩ := Machine.step_skipped (bodySound_after source grammar n) h
    rw [heq]
    exact ⟨hin, rfl, _, rfl⟩

/-- Behind a recovery nothing is left but to end the tag. -/
theorem RecoversAt.finishes (h : (ofString source grammar).RecoversAt n) :
    let s := ofString source grammar
    let token := (s.after (n + 1)).reader.span
    ∃ k ending,
      RecoveryStop s.reader.document (s.after n).machine.tag.form token.start token.stop ending ∧
      (s.after (n + 1)).Finishes k
        (List.replicate (s.after n).machine.brackets.depth ⟨.invalid .missingBracket, []⟩ ++
          ending) := by
  intro s token
  obtain ⟨-, hreader, g, hmachine⟩ := h.leads
  obtain ⟨ending, hstop, hending⟩ :=
    recoveryStop_recoveryEnd (s.after n).reader (s.after n).machine.tag.form
  have hstart : token.start = (s.after n).reader.offset := by
    show (s.after (n + 1)).reader.start = _
    rw [hreader, Reader.start_capture]
  rw [← Reader.offset_capture, ← hreader, ← hstart, document_after] at hstop
  have hending :
      Ending (s.after (n + 1)).machine.tag.form (s.after (n + 1)).reader.rest ending := by
    rw [hmachine, hreader, Reader.rest_capture]
    exact hending
  obtain ⟨k, hk⟩ := finishes_of_ending (by rw [hmachine]) hending
  rw [hmachine] at hk
  exact ⟨k, ending, hstop, hk⟩

/-- A recovery ends its tag, so a tag has at most one. -/
theorem RecoversAt.eq_of_le {i j : Nat} (hj : (ofString source grammar).RecoversAt j)
    (hn : (ofString source grammar).RecoversAt n) (hjn : j ≤ n) (hij : i < j)
    (htag : (ofString source grammar).OpensTagOf i n) : j = n := by
  rcases Nat.lt_or_eq_of_le hjn with hlt | rfl
  · obtain ⟨k, ending, -, hk⟩ := hj.finishes
    obtain ⟨d, rfl⟩ := Nat.exists_eq_add_of_le (Nat.succ_le_of_lt hlt)
    rcases Nat.lt_or_ge k d with hkd | hdk
    · have hends := hk.ends
      rw [← eventAt_add] at hends
      have hinside := (htag.inside (j + 1 + k) (by omega) (by omega)).2
      exact absurd (hinside.symm.trans hends) Bool.false_ne_true
    · exact absurd ((recoversAt_add _ _ _).mp hn) (hk.once d hdk)
  · rfl

/-- The tag in which a scan recovers goes on to the scan that ends it. -/
theorem RecoversAt.opensTagOf {i : Nat} (h : (ofString source grammar).RecoversAt n)
    (hi : (ofString source grammar).OpensTagOf i n)
    (hk : ((ofString source grammar).after (n + 1)).Finishes k words) :
    (ofString source grammar).OpensTagOf i (n + 1 + k) := by
  obtain ⟨hin, -, g, hmachine⟩ := h.leads
  refine ⟨?_, hi.opens, fun j hij hj => ?_⟩
  · have hlt := hi.lt
    omega
  rcases Nat.lt_trichotomy j n with hjn | rfl | hjn
  · exact hi.inside j hij hjn
  · -- the recovery itself stays inside the tag
    rcases Machine.step_stays_or_leaves hin _ with hstay | hleave
    · obtain ⟨kind, hkind, hne⟩ := hstay.event
      exact ⟨fun he => hne (Event.token.inj (hkind.symm.trans he)), hstay.not_endsTag⟩
    · have hphase := hleave.phase_eq
      rw [← machine_scanHere, ← after_succ, hmachine] at hphase
      cases hphase
  · obtain ⟨d, rfl⟩ := Nat.exists_eq_add_of_le (Nat.succ_le_of_lt hjn)
    rw [show (ofString source grammar).eventAt (n + 1 + d) = _ from eventAt_add _ (n + 1) d]
    exact hk.inside d (by omega)

/-- An open delimiter is taken as it is written, and no bracket is open behind it. -/
theorem exists_opener {i : Nat}
    (ho : (ofString source grammar).eventAt i = .token .openDelimiter) :
    let s := ofString source grammar
    ∃ form : TagForm, s.lexemeAt i = some ⟨.openDelimiter, form.opener⟩ ∧
      (s.after (i + 1)).machine.tag.form = form ∧
      (s.after (i + 1)).machine.brackets.depth = 0 := by
  intro s
  obtain ⟨form, hpre, hopens⟩ := Machine.step_eq_openTag (bodySound_after source grammar i) ho
  have hmachine : (s.after (i + 1)).machine = _ := congrArg Reply.machine hopens
  refine ⟨form, ?_, by rw [hmachine]; rfl, by rw [hmachine]; rfl⟩
  rw [lexemeAt_of_token ho, after_succ, reader_scanHere, hopens]
  show some (Lexeme.mk _ ((s.after i).reader.capture form.opener.length).token) = _
  rw [Reader.token_capture, ← List.prefix_iff_eq_take.mp hpre]

/-- The brackets open inside a tag are those that it has opened, and that are neither closed nor
    reported yet. -/
theorem OpensTagOf.unclosed {i : Nat} (hi : (ofString source grammar).OpensTagOf i n) :
    let tag := (ofString source grammar).after (i + 1)
    tag.found .closeBracket (n - (i + 1)) + tag.found (.invalid .missingBracket) (n - (i + 1)) +
        ((ofString source grammar).after n).machine.brackets.depth =
      tag.found .openBracket (n - (i + 1)) := by
  intro tag
  have hlt := hi.lt
  obtain ⟨-, -, -, hnone⟩ := exists_opener hi.opens
  have hcount := found_add_depth (s := tag) (n := n - (i + 1)) fun j hj => by
    rw [← after_add]
    exact (hi.inTag (by omega) (by omega)).1
  rw [← after_add, Nat.add_sub_cancel' hlt, hnone] at hcount
  exact hcount

/-- Scan `n` recovers in the tag of the form that scan `i` opens and scan `e` ends. -/
structure EndsAfter (s : Scanner γ) (i n e : Nat) (form : TagForm) : Prop where
  before : i < n
  after : n < e
  tag : s.OpensTagOf i e
  opener : s.lexemeAt i = some ⟨.openDelimiter, form.opener⟩
  ends : (s.eventAt e).endsTag = true
  /-- It stops where recovery stops; behind it every bracket that the tag has opened, and that is
      neither closed nor reported yet, is reported as missing, and then the tag ends. -/
  rest : ∃ unclosed ending,
    RecoveryStop s.reader.document form (s.after (n + 1)).reader.span.start
      (s.after (n + 1)).reader.span.stop ending ∧
    (s.after (i + 1)).found .closeBracket (n - (i + 1)) +
        (s.after (i + 1)).found (.invalid .missingBracket) (n - (i + 1)) + unclosed =
      (s.after (i + 1)).found .openBracket (n - (i + 1)) ∧
    (s.after (n + 1)).lexemesUpTo (e - n) =
      List.replicate unclosed ⟨.invalid .missingBracket, []⟩ ++ ending
  /-- No other scan of the tag recovers. -/
  once : ∀ k, i < k → k ≤ e → s.RecoversAt k → k = n

/-- **One recovery ends a tag.**  In a run from the start of any text, in any grammar, let a scan
    recover from a fault, or pass over a part of a tag without scanning it.  It stops exactly where
    recovery may stop.  The tokens of the tag that follow are one missing bracket without text for
    each bracket still open, and then the close delimiter, perhaps behind a trim dash, or a missing
    close delimiter without text.  No other scan of the tag recovers. -/
theorem recovery_closes (source : String) (grammar : γ) {n : Nat}
    (h : (ofString source grammar).RecoversAt n) :
    ∃ i e form, (ofString source grammar).EndsAfter i n e form := by
  obtain ⟨hin, -, -⟩ := h.leads
  obtain ⟨k, ending, hstop, hk⟩ := h.finishes
  obtain ⟨i, hi, -⟩ := opensTagOf_after hin
  obtain ⟨form, hopener, hform, -⟩ := exists_opener hi.opens
  have hlt := hi.lt
  rw [(hi.inTag hlt (Nat.le_refl n)).2, hform] at hstop
  refine ⟨i, n + 1 + k, form, hlt, by omega, h.opensTagOf hi hk, hopener, ?_, ?_,
    fun j hij hj hrec => ?_⟩
  · rw [eventAt_add]
    exact hk.ends
  · refine ⟨((ofString source grammar).after n).machine.brackets.depth, ending, hstop,
      hi.unclosed, ?_⟩
    rw [show n + 1 + k - n = k + 1 by omega]
    exact hk.found
  · rcases Nat.lt_or_ge n j with hnj | hjn
    · obtain ⟨d, rfl⟩ := Nat.exists_eq_add_of_le (Nat.succ_le_of_lt hnj)
      exact absurd ((recoversAt_add _ _ _).mp hrec) (hk.once d (by omega))
    · exact hrec.eq_of_le h hjn hij hi

theorem recovery_closes_open_brackets :
    let s := ofString "\x7b\x7ba[b[c.~ -\x7d\x7d" Dialect.empty.lookup
    s.RecoversAt 7 ∧ s.eventAt 7 = .token (.invalid .missingProperty) ∧
      (s.after 8).lexemesUpTo 4 = [⟨.invalid .missingBracket, []⟩, ⟨.invalid .missingBracket, []⟩,
        ⟨.trimRight, ['-']⟩, ⟨.closeDelimiter, ['\x7d', '\x7d']⟩] ∧
      ∃ i e form, s.EndsAfter i 7 e form := by
  intro s
  have hphase : (s.after 7).machine.phase = .path .member .filters := by decide +kernel
  have hrest : (s.after 7).reader.rest = ['.', '~', ' ', '-', '\x7d', '\x7d'] := by decide +kernel
  have hstep : ∀ (m : Machine Lookup) (r : Reader), m.phase = .path .member .filters →
      r.rest = ['.', '~', ' ', '-', '\x7d', '\x7d'] →
      m.step r = m.recover .missingProperty r.rest := by
    intro m r hp hr
    rw [Machine.step_eq_stepPhase (c := '.') (by rw [hp]; nofun) (by rw [hr]; rfl) rfl]
    simp only [Machine.stepPhase, hp, Machine.stepPath, Machine.stepMember, hr]
    rfl
  have hrec : s.RecoversAt 7 := .of_recover (hstep _ _ hphase hrest)
  have hevent : s.eventAt 7 = .token (.invalid .missingProperty) := by decide +kernel
  have hfound : (s.after 8).lexemesUpTo 4 = [⟨.invalid .missingBracket, []⟩,
      ⟨.invalid .missingBracket, []⟩, ⟨.trimRight, ['-']⟩,
      ⟨.closeDelimiter, ['\x7d', '\x7d']⟩] := by decide +kernel
  exact ⟨hrec, hevent, hfound, recovery_closes _ _ hrec⟩

end Documents

end Scanner

end TemplateScan
