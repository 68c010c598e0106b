import TemplateScan.Proofs.Scan.Tiling

/-! # Tag extents — the end of a tag is decided by its text alone

    Whatever is scanned inside a tag is clear text, so no scan steps over the close delimiter or
    over the opening of another tag, and no scan gives the tag up while its close delimiter can
    still be reached.

    * **`Stays.advance`** — a run that stays inside the tag has passed over clear text.
    * **`exists_leave`** — every tag is left.
    * **`tag_left_at`** — where, and with which token.
    * **`tag_extent`** — so the end of a tag does not depend on the grammar or on faults in it. -/

namespace TemplateScan

open Text

namespace Scanner

variable {γ : Type} [Grammar γ] {s : Scanner γ}

-- ── inside the tag ───────────────────────────────────────────────────────────────

/-- As long as the run stays inside the tag, the text passed over is clear. -/
theorem clear_after {n : Nat} (h : ∀ i ≤ n, (s.after i).machine.phase.inTag = true) :
    (s.after n).machine.tag = s.machine.tag ∧ ∃ k, Clear s.machine.tag.form k s.reader.rest ∧
      (s.after n).reader.rest = s.reader.rest.drop k ∧
      (s.after n).reader.offset = s.reader.offsetAt k := by
  induction n with
  | zero => exact ⟨rfl, 0, Avoids.zero _ _, rfl, (Reader.offsetAt_zero _).symm⟩
  | succ n ih =>
      obtain ⟨htag, k, hclear, hrest, hoffset⟩ := ih fun i hi => h i (Nat.le_succ_of_le hi)
      have hin := h n (Nat.le_succ n)
      have hnext := h (n + 1) (Nat.le_refl _)
      rcases Machine.step_stays_or_leaves hin (s.after n).reader with hstay | hleave
      · have hstep := hstay.clear
        rw [htag, hrest] at hstep
        refine ⟨hstay.tag_eq.trans htag, k + _, hclear.append hstep, ?_, ?_⟩
        · rw [after_succ, reader_scanHere, rest_apply, hrest, List.drop_drop]
        · rw [after_succ, reader_scanHere, offset_apply, Reader.offsetAt, hoffset, hrest,
            Reader.offsetAt_add]
      · rw [after_succ, machine_scanHere, hleave.phase_eq] at hnext
        exact absurd hnext (by decide)

/-- Every tag is left. -/
theorem exists_leave (h : s.machine.phase.inTag = true) :
    ∃ n, (∀ i ≤ n, (s.after i).machine.phase.inTag = true) ∧
      (s.after (n + 1)).machine.phase.inTag = false := by
  obtain ⟨k, -, hend⟩ := exists_finished_le s
  have hsome : ∃ i, (s.after i).machine.phase.inTag = false :=
    ⟨k, (Machine.step_finished_iff.mp hend).2⟩
  have hout := Nat.find_spec hsome
  have hfirst : ∀ i < Nat.find hsome, (s.after i).machine.phase.inTag ≠ false :=
    fun _ => Nat.find_min hsome
  generalize Nat.find hsome = n at hout hfirst
  cases n with
  | zero =>
      rw [after_zero, h] at hout
      exact nomatch hout
  | succ n =>
      refine ⟨n, fun i hi => ?_, hout⟩
      have hne := hfirst i (Nat.lt_succ_of_le hi)
      exact eq_true_of_ne_false hne

/-- The scans from a place inside a tag stay in it, up to the one that leaves it. -/
theorem exists_stays_leaves (h : s.machine.phase.inTag = true) :
    ∃ n, (∀ i ≤ n, (s.after i).machine.phase.inTag = true) ∧
      (∀ i < n, Machine.Stays (s.after i).machine (s.after i).reader
        ((s.after i).machine.step (s.after i).reader)) ∧
      Machine.Leaves (s.after n).machine (s.after n).reader
        ((s.after n).machine.step (s.after n).reader) := by
  obtain ⟨n, hin, hout⟩ := exists_leave h
  refine ⟨n, hin, fun i hi => ?_, ?_⟩
  · rcases Machine.step_stays_or_leaves (hin i (Nat.le_of_lt hi)) (s.after i).reader with
      hstay | hleave
    · exact hstay
    · have hnext := hin (i + 1) hi
      rw [after_succ, machine_scanHere, hleave.phase_eq] at hnext
      exact nomatch hnext
  · rcases Machine.step_stays_or_leaves (hin n (Nat.le_refl n)) (s.after n).reader with
      hstay | hleave
    · rw [after_succ, machine_scanHere, hstay.inTag] at hout
      exact nomatch hout
    · exact hleave

/-- Where a tag is left: after clear text, with the close delimiter that comes there, or with a
    fault because none comes before another tag opens. -/
theorem exists_leave_at (h : s.machine.phase.inTag = true) :
    ∃ n k, (∀ i < n, (∃ kind, s.eventAt i = .token kind ∧ kind ≠ .openDelimiter) ∧
        (s.eventAt i).endsTag = false) ∧
      Clear s.machine.tag.form k s.reader.rest ∧
      (s.after (n + 1)).reader.start = s.reader.offsetAt k ∧
      (s.machine.tag.form.closer <+: s.reader.rest.drop k ∧
          (∃ ending, s.eventAt n =
            .token (if ending = true then .endDelimiter else .closeDelimiter)) ∧
          (s.after (n + 1)).reader.offset = s.reader.offsetAt k + 2 ∨
        tagEnd? s.machine.tag.form (s.reader.rest.drop k) = none ∧
          s.eventAt n = .token (.invalid .missingClose) ∧
          (s.after (n + 1)).reader.offset = s.reader.offsetAt k) := by
  obtain ⟨n, hin, hstays, hleaves⟩ := exists_stays_leaves h
  obtain ⟨htag, k, hclear, hrest, hoffset⟩ := clear_after hin
  refine ⟨n, k, fun i hi => ⟨(hstays i hi).event, (hstays i hi).not_endsTag⟩, hclear, ?_⟩
  have hstart : ∀ c, ((s.after n).reader.capture c).start = s.reader.offsetAt k := by
    intro c
    rw [Reader.start_capture, hoffset]
  cases hleaves with
  | @closed ending hc he hx _ _ =>
      rw [after_succ, reader_scanHere, hx]
      rw [htag, hrest] at hc
      refine ⟨hstart _, Or.inl ⟨hc, ⟨ending, he⟩, ?_⟩⟩
      -- the close delimiter has two bytes
      have htwo : byteSize s.machine.tag.form.closer = 2 := by
        cases s.machine.tag.form <;> decide
      rw [offset_apply, Reader.offsetAt, hoffset, hrest, htag]
      show _ + byteSize (List.take s.machine.tag.form.closer.length _) = _
      rw [← List.prefix_iff_eq_take.mp hc, htwo]
  | abandoned hnone he hx _ _ =>
      rw [after_succ, reader_scanHere, hx]
      rw [htag, hrest] at hnone
      refine ⟨hstart _, Or.inr ⟨hnone, he, ?_⟩⟩
      rw [offset_apply]
      show (s.after n).reader.offsetAt 0 = _
      rw [Reader.offsetAt_zero, hoffset]

/-- A tag is left with its first close delimiter from the cursor on, if that comes before any open
    delimiter, and otherwise without one. -/
theorem tag_left_at (h : s.machine.phase.inTag = true) :
    ∃ n, (∀ i < n, (∃ kind, s.eventAt i = .token kind ∧ kind ≠ .openDelimiter) ∧
        (s.eventAt i).endsTag = false) ∧
      (∀ q, s.reader.document.FirstFrom [s.machine.tag.form.closer] s.reader.offset q →
        (∀ r, s.reader.document.FirstFrom openers s.reader.offset r → q < r) →
        (s.eventAt n = .token .closeDelimiter ∨ s.eventAt n = .token .endDelimiter) ∧
          (s.after (n + 1)).reader.start = q ∧ (s.after (n + 1)).reader.offset = q + 2) ∧
      ((∀ q, s.reader.document.FirstFrom [s.machine.tag.form.closer] s.reader.offset q →
          ∃ r, s.reader.document.FirstFrom openers s.reader.offset r ∧ r ≤ q) →
        s.eventAt n = .token (.invalid .missingClose) ∧
          (s.after (n + 1)).reader.start = (s.after (n + 1)).reader.offset ∧
          s.reader.offset ≤ (s.after (n + 1)).reader.offset ∧
          ∀ r, s.reader.document.FirstFrom openers s.reader.offset r →
            (s.after (n + 1)).reader.offset ≤ r) := by
  obtain ⟨n, k, hbefore, hclear, hstart, hcase⟩ := exists_leave_at h
  have hk := hclear.le_length
  refine ⟨n, hbefore, ?_⟩
  rcases hcase with ⟨hc, ⟨ending, he⟩, hoffset⟩ | ⟨hnone, he, hoffset⟩
  · obtain ⟨hfirst, hopen⟩ := earliest_of_closed hclear hc
    constructor
    · intro q hq _
      obtain ⟨j, -, rfl, hj⟩ := Reader.firstFrom_iff.mp hq
      obtain rfl : k = j := Option.some.inj (hfirst.symm.trans hj)
      refine ⟨?_, hstart, hoffset⟩
      cases ending with
      | false => exact Or.inl he
      | true => exact Or.inr he
    · intro hall
      obtain ⟨r, hr, hle⟩ := hall _ (Reader.firstFrom_iff.mpr ⟨k, hk, rfl, hfirst⟩)
      obtain ⟨j, hj, rfl, hfound⟩ := Reader.firstFrom_iff.mp hr
      exact absurd hle (Nat.not_le.mpr (Reader.offsetAt_lt (hopen j hfound) hj))
  · obtain ⟨hblocked, hopen⟩ := earliest_of_abandoned hclear hnone
    constructor
    · intro q hq hfree
      obtain ⟨i, hi, rfl, hfound⟩ := Reader.firstFrom_iff.mp hq
      obtain ⟨j, hj, hopener⟩ := hblocked i hfound
      have hlt := hfree _ (Reader.firstFrom_iff.mpr ⟨j, by omega, rfl, hopener⟩)
      exact absurd hlt (Nat.not_lt.mpr (Nat.le_of_lt (Reader.offsetAt_lt hj hi)))
    · intro _
      refine ⟨he, hstart.trans hoffset.symm, ?_, fun r hr => ?_⟩
      · rw [hoffset]
        exact Reader.offset_le_offsetAt _ k
      · obtain ⟨j, hj, rfl, hfound⟩ := Reader.firstFrom_iff.mp hr
        rw [hoffset]
        exact Reader.offsetAt_le (hopen j hfound) hj

-- ── from the open delimiter on ───────────────────────────────────────────────────

/-- An open delimiter found in a run from the start stands in the text, and leads into its tag. -/
theorem opened_after {source : String} {grammar : γ} {i : Nat}
    (h : (ofString source grammar).eventAt i = .token .openDelimiter) :
    ((ofString source grammar).after (i + 1)).machine.phase.inTag = true ∧
      ((ofString source grammar).after (i + 1)).reader.document.OccursAt
        ((ofString source grammar).after (i + 1)).machine.tag.form.opener
        ((ofString source grammar).after (i + 1)).reader.start ∧
      ((ofString source grammar).after (i + 1)).reader.offset =
        ((ofString source grammar).after (i + 1)).reader.start + 2 := by
  have hbody := bodySound_after source grammar i
  rw [after_succ, machine_scanHere, reader_scanHere]
  rw [eventAt, event_scanHere] at h
  generalize (ofString source grammar).after i = s at h hbody
  obtain ⟨form, hpre, heq⟩ := Machine.step_eq_openTag hbody h
  rw [heq]
  have hocc : s.reader.document.OccursAt form.opener s.reader.offset :=
    (Reader.occursAt_iff.mpr
      ⟨0, Nat.zero_le _, (Reader.offsetAt_zero _).symm, by rwa [List.drop_zero]⟩).1
  have htwo : byteSize form.opener = 2 := by cases form <;> decide
  refine ⟨rfl, ?_, ?_⟩
  · show s.reader.document.OccursAt form.opener (s.reader.capture _).start
    rw [Reader.start_capture]
    exact hocc
  · show (s.reader.capture form.opener.length).offset =
      (s.reader.capture form.opener.length).start + 2
    rw [Reader.start_capture, Reader.offset_capture, Reader.offsetAt,
      ← List.prefix_iff_eq_take.mp hpre, htwo]

/-- **The extent of a tag.**  In a run from the start of a text, in any grammar, let an open
    delimiter start at `p`.  If the first close delimiter of its form from `p + 2` on comes before
    any open delimiter, the tag ends with exactly that close delimiter.  Otherwise it ends with one
    fault of no width, at or before the next open delimiter. -/
theorem tag_extent (source : String) (grammar : γ) {i : Nat}
    (h : (ofString source grammar).eventAt i = .token .openDelimiter) :
    let s := ofString source grammar
    let d := s.reader.document
    let p := (s.after (i + 1)).reader.start
    ∃ form : TagForm, d.OccursAt form.opener p ∧ ∃ j, i < j ∧
      (∀ k, i < k → k < j → (∃ kind, s.eventAt k = .token kind ∧ kind ≠ .openDelimiter) ∧
        (s.eventAt k).endsTag = false) ∧
      (∀ q, d.FirstFrom [form.closer] (p + 2) q → (∀ r, d.FirstFrom openers (p + 2) r → q < r) →
        (s.eventAt j = .token .closeDelimiter ∨ s.eventAt j = .token .endDelimiter) ∧
          (s.after (j + 1)).reader.start = q ∧ (s.after (j + 1)).reader.offset = q + 2) ∧
      ((∀ q, d.FirstFrom [form.closer] (p + 2) q → ∃ r, d.FirstFrom openers (p + 2) r ∧ r ≤ q) →
        s.eventAt j = .token (.invalid .missingClose) ∧
          (s.after (j + 1)).reader.start = (s.after (j + 1)).reader.offset ∧
          p + 2 ≤ (s.after (j + 1)).reader.offset ∧ (s.after (j + 1)).reader.offset ≤ d.size ∧
          ∀ r, d.FirstFrom openers (p + 2) r → (s.after (j + 1)).reader.offset ≤ r) := by
  intro s d p
  obtain ⟨hin, hocc, htwo⟩ := opened_after h
  obtain ⟨n, hbefore, hclosed, habandoned⟩ := tag_left_at hin
  have hdoc : (s.after (i + 1)).reader.document = d := document_after s (i + 1)
  rw [hdoc] at hocc
  rw [hdoc, htwo] at hclosed habandoned
  have hevent : ∀ m, s.eventAt (i + 1 + m) = (s.after (i + 1)).eventAt m := eventAt_add s (i + 1)
  have hafter : s.after (i + 1 + n + 1) = (s.after (i + 1)).after (n + 1) := by
    rw [Nat.add_assoc, after_add]
  refine ⟨_, hocc, i + 1 + n, by omega, fun k hik hkn => ?_, ?_, ?_⟩
  · obtain ⟨m, rfl⟩ := Nat.exists_eq_add_of_le (Nat.succ_le_of_lt hik)
    rw [hevent]
    exact hbefore m (by omega)
  · rw [hevent, hafter]
    exact hclosed
  · rw [hevent, hafter]
    intro hblocked
    obtain ⟨he, hwidth, hfrom, hto⟩ := habandoned hblocked
    refine ⟨he, hwidth, hfrom, ?_, hto⟩
    have hsize := Reader.offset_le_size ((s.after (i + 1)).after (n + 1)).reader
    rwa [document_after, hdoc] at hsize

theorem tag_extent_output :
    let s := ofString "\x7b\x7b a \x7d\x7d" Dialect.empty.lookup
    s.eventAt 0 = .token .openDelimiter ∧
      ∃ j, 0 < j ∧ (s.after (j + 1)).reader.start = 5 ∧ (s.after (j + 1)).reader.offset = 7 := by
  intro s
  have hopen : s.eventAt 0 = .token .openDelimiter := rfl
  have hrest : (s.after (0 + 1)).reader.rest = " a \x7d\x7d".toList := rfl
  have hoffset : (s.after (0 + 1)).reader.start + 2 = (s.after (0 + 1)).reader.offset := rfl
  have hfive : 5 = (s.after (0 + 1)).reader.offsetAt 3 := rfl
  obtain ⟨form, ⟨-, hform⟩, j, hj, -, hclosed, -⟩ := tag_extent _ _ hopen
  rw [← document_after _ (0 + 1), hoffset] at hclosed
  refine ⟨hopen, j, hj, ?_⟩
  cases form with
  | statement => exact absurd (List.isPrefixOf_iff_prefix.mpr hform) (by decide)
  | output =>
      have hfirst : (s.after (0 + 1)).reader.document.FirstFrom [TagForm.closer .output]
          (s.after (0 + 1)).reader.offset 5 :=
        Reader.firstFrom_iff.mpr ⟨3, by rw [hrest]; decide, hfive, by rw [hrest]; decide⟩
      refine (hclosed 5 hfirst fun r hr => ?_).2
      obtain ⟨n, -, -, hn⟩ := Reader.firstFrom_iff.mp hr
      have hnone : earliest? openers (s.after (0 + 1)).reader.rest = none := by
        rw [hrest]
        decide
      exact absurd (hnone.symm.trans hn) nofun

end Scanner

end TemplateScan
