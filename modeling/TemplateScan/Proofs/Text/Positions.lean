import TemplateScan.Proofs.Text.Lines

/-! # Positions — what the line table says is what a reader would count

    The position of an offset is looked up in the line table.  It depends on the text before the
    offset alone: as many lines have ended as there are line feeds in it, and the column is counted
    from the last of them.

    * **`Position.behind`** — the position right behind a text, counted.
    * **`LineTable.lineAt_byteSize`** — the search in the table finds the line that is counted.
    * **`Document.position_byteSize`** — and the position is the one that is counted. -/

namespace TemplateScan.Text

variable {a b : List Char} {n o : Nat}

/-- The position right behind a text. -/
def Position.behind (before : List Char) : Position where
  line := before.count '\n' + 1
  column := (before.reverse.takeWhile (· != '\n')).length + 1

-- ── the starts of a text in two parts ────────────────────────────────────────────

theorem breaksFrom_append (n : Nat) (a b : List Char) :
    breaksFrom n (a ++ b) = breaksFrom n a ++ breaksFrom (n + byteSize a) b := by
  induction a generalizing n with
  | nil => rfl
  | cons c a ih =>
      simp only [List.cons_append, breaksFrom, byteSize_cons]
      split <;> simp [ih, Nat.add_assoc]

theorem length_breaksFrom (n : Nat) (a : List Char) : (breaksFrom n a).length = a.count '\n' := by
  induction a generalizing n with
  | nil => rfl
  | cons c a ih =>
      simp only [breaksFrom, List.count_cons]
      split
      · next hc => simp [ih, hc]
      · next hc => simp [ih, hc]

theorem lt_of_mem_breaksFrom {x : Nat} (h : x ∈ breaksFrom n a) : n < x := by
  induction a generalizing n with
  | nil => exact nomatch h
  | cons c a ih =>
      have hc := c.utf8Size_pos
      rw [breaksFrom] at h
      split at h
      · rcases List.mem_cons.mp h with rfl | h
        · omega
        · have := ih h
          omega
      · have := ih h
        omega

/-- The lines that start in the first part of a text start no later than it ends. -/
theorem le_of_mem_lineStarts {x : Nat} (h : x ∈ lineStarts a) : x ≤ byteSize a := by
  rcases List.mem_cons.mp h with rfl | h
  · exact Nat.zero_le _
  · obtain ⟨u, v, rfl, rfl⟩ := mem_breaksFrom h
    rw [byteSize_append]
    omega

theorem lineStarts_append (a b : List Char) :
    lineStarts (a ++ b) = lineStarts a ++ breaksFrom (byteSize a) b := by
  rw [lineStarts, breaksFrom_append, Nat.zero_add]
  rfl

/-- A text without line feeds starts no line. -/
theorem breaksFrom_eq_nil (h : '\n' ∉ a) : breaksFrom n a = [] := by
  rw [← List.length_eq_zero_iff, length_breaksFrom]
  exact List.count_eq_zero.mpr h

/-- The last line of a text starts behind its last line feed. -/
theorem getLast?_lineStarts (a : List Char) :
    ∃ u v, a = u ++ v ∧ (lineStarts a).getLast? = some (byteSize u) ∧
      v.length = (a.reverse.takeWhile (· != '\n')).length := by
  by_cases hmem : '\n' ∈ a
  · obtain ⟨u, v, rfl, hv⟩ : ∃ u v, a = u ++ '\n' :: v ∧ '\n' ∉ v := by
      obtain ⟨s, t, hst, ht⟩ := List.eq_append_cons_of_mem (List.mem_reverse.mpr hmem)
      refine ⟨t.reverse, s.reverse, ?_, by simpa using ht⟩
      rw [← List.reverse_reverse a, hst]
      simp
    refine ⟨u ++ ['\n'], v, by simp, ?_, ?_⟩
    · have hlast : breaksFrom 0 (u ++ '\n' :: v) = breaksFrom 0 u ++ [byteSize (u ++ ['\n'])] := by
        rw [breaksFrom_append, breaksFrom, if_pos rfl, breaksFrom_eq_nil hv]
        simp
      rw [lineStarts, hlast, ← List.cons_append, List.getLast?_concat]
    · have hrun : ∀ c ∈ v.reverse, (c != '\n') = true := by
        intro c hc
        rw [bne_iff_ne]
        rintro rfl
        exact hv (List.mem_reverse.mp hc)
      rw [List.reverse_append, List.reverse_cons, List.append_assoc,
        List.takeWhile_append_of_pos hrun]
      simp
  · refine ⟨[], a, rfl, ?_, ?_⟩
    · rw [lineStarts, breaksFrom_eq_nil hmem]
      rfl
    · have hrun : ∀ c ∈ a.reverse, (c != '\n') = true := by
        intro c hc
        rw [bne_iff_ne]
        rintro rfl
        exact hmem (List.mem_reverse.mp hc)
      rw [← List.append_nil a.reverse, List.takeWhile_append_of_pos hrun]
      simp

-- ── the search ───────────────────────────────────────────────────────────────────

/-- The search goes on until no start is left, or the next one lies behind the offset. -/
theorem LineTable.lt_countUpTo {starts : Array Nat} {steps low high : Nat} (hle : low ≤ high)
    (hsteps : high - low ≤ steps) (hhigh : high = starts.size ∨ o < starts.getD high 0) :
    countUpTo starts o steps low high = starts.size ∨
      o < starts.getD (countUpTo starts o steps low high) 0 := by
  induction steps generalizing low high with
  | zero =>
      obtain rfl : low = high := by omega
      exact hhigh
  | succ steps ih =>
      rw [countUpTo]
      by_cases hlt : low < high
      · rw [if_pos hlt]
        by_cases hmid : starts.getD ((low + high) / 2) 0 ≤ o
        · simp only [hmid, if_true]
          exact ih (by omega) (by omega) hhigh
        · simp only [hmid, if_false]
          exact ih (by omega) (by omega) (Or.inr (Nat.lt_of_not_le hmid))
      · rw [if_neg hlt]
        obtain rfl : low = high := by omega
        exact hhigh

theorem LineTable.getD_starts {text : List Char} (table : LineTable text) (i : Nat) :
    table.starts.getD i 0 = (lineStarts text).getD i 0 := by
  rw [table.starts_eq]
  simp

/-- The line that the table finds at the end of the first part of a text is the one counted. -/
theorem LineTable.lineAt_byteSize (table : LineTable (a ++ b)) :
    table.lineAt (byteSize a) = a.count '\n' + 1 := by
  obtain ⟨hpos, hle, hstart, -⟩ := table.lineAt_spec (byteSize a)
  have hnext : table.lineAt (byteSize a) = table.starts.size ∨
      byteSize a < table.starts.getD (table.lineAt (byteSize a)) 0 :=
    lt_countUpTo (Nat.zero_le _) (Nat.le_refl _) (Or.inl rfl)
  have hcount : (lineStarts a).length = a.count '\n' + 1 := by
    rw [lineStarts, List.length_cons, length_breaksFrom]
  have hsize : table.starts.size = (lineStarts a).length + (breaksFrom (byteSize a) b).length := by
    rw [table.starts_eq, List.size_toArray, lineStarts_append, List.length_append]
  rw [startOf, table.getD_starts] at hstart
  rw [table.getD_starts] at hnext
  generalize table.lineAt (byteSize a) = k at *
  rw [lineStarts_append, List.getD_eq_getElem?_getD] at hstart hnext
  rcases Nat.lt_trichotomy k (lineStarts a).length with hlt | heq | hgt
  · -- the line counted starts at or before the offset, so the search would have gone on to it
    rw [List.getElem?_append_left hlt, List.getElem?_eq_getElem hlt] at hnext
    have := le_of_mem_lineStarts (List.getElem_mem hlt)
    rcases hnext with hnext | hnext
    · omega
    · exact absurd this (Nat.not_le.mpr hnext)
  · rw [heq, hcount]
  · have hin : k - 1 - (lineStarts a).length < (breaksFrom (byteSize a) b).length := by omega
    rw [List.getElem?_append_right (by omega), List.getElem?_eq_getElem hin] at hstart
    have := lt_of_mem_breaksFrom (List.getElem_mem hin)
    exact absurd hstart (Nat.not_le.mpr this)

-- ── positions ────────────────────────────────────────────────────────────────────

/-- **Positions.**  The position of a boundary is the one counted in the text before it. -/
theorem Document.position_byteSize {d : Document} (h : d.chars = a ++ b) :
    d.position (byteSize a) = .behind a := by
  obtain ⟨chars, lines⟩ := d
  obtain rfl : chars = a ++ b := h
  obtain ⟨u, v, huv, hlast, hlength⟩ := getLast?_lineStarts a
  have hmin : min (byteSize a) (Document.size ⟨a ++ b, lines⟩) = byteSize a := by
    rw [Document.size, byteSize_append]
    omega
  have hstart : lines.startOf (a.count '\n' + 1) = byteSize u := by
    have hcount : (lineStarts a).length - 1 = a.count '\n' := by
      rw [lineStarts, List.length_cons, length_breaksFrom, Nat.add_sub_cancel]
    have hlt : a.count '\n' < (lineStarts a).length := by
      rw [← hcount]
      exact Nat.sub_lt (Nat.succ_pos _) Nat.one_pos
    rw [LineTable.startOf, lines.getD_starts, lineStarts_append, Nat.add_sub_cancel,
      List.getD_eq_getElem?_getD, List.getElem?_append_left hlt, ← hcount,
      ← List.getLast?_eq_getElem?, hlast]
    rfl
  have hbetween : Document.between ⟨a ++ b, lines⟩ (byteSize u) (byteSize a) = v := by
    have hsub : byteSize a - byteSize u = byteSize v := by
      rw [huv, byteSize_append, Nat.add_sub_cancel_left]
    rw [Document.between, hsub]
    show (splitAtByte (byteSize v) (dropBytes (byteSize u) (a ++ b))).1 = v
    rw [huv, List.append_assoc, dropBytes_byteSize, splitAtByte_byteSize]
  simp only [Document.position, hmin, lines.lineAt_byteSize, hstart, hbetween, hlength]
  rfl

/-- The position of a token is the one counted in the text before it. -/
theorem Reader.position_eq (r : Reader) : r.position = .behind r.before.reverse := by
  have h := Document.position_byteSize r.covers.symm
  rwa [byteSize_reverse] at h

end TemplateScan.Text
