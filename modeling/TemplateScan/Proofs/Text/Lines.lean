import TemplateScan.Proofs.Text.Cuts

/-! # Lines — the line of an offset starts at or before it

    The line table is searched by halving.  Whatever the offset, the search ends at a line of the
    table, and that line starts at a boundary at or before the offset:

    * **`LineTable.countUpTo_spec`** — the invariant of the search.
    * **`LineTable.lineAt_spec`** — so every position is computed from a line that exists. -/

namespace TemplateScan.Text

variable {text : List Char} {o : Nat}

-- ── the search ───────────────────────────────────────────────────────────────────

/-- The search counts at least one start and none that lies after the offset. -/
theorem LineTable.countUpTo_spec {starts : Array Nat} (hfirst : starts.getD 0 0 ≤ o)
    {steps low high : Nat} (hle : low ≤ high) (hsteps : high - low ≤ steps) (hhigh : 0 < high)
    (hlow : 0 < low → starts.getD (low - 1) 0 ≤ o) :
    0 < countUpTo starts o steps low high ∧ countUpTo starts o steps low high ≤ high ∧
      starts.getD (countUpTo starts o steps low high - 1) 0 ≤ o := by
  induction steps generalizing low high with
  | zero =>
      obtain rfl : low = high := by omega
      exact ⟨hhigh, Nat.le_refl _, hlow hhigh⟩
  | succ steps ih =>
      rw [countUpTo]
      by_cases hlt : low < high
      · rw [if_pos hlt]
        by_cases hmid : starts.getD ((low + high) / 2) 0 ≤ o
        · simp only [hmid, if_true]
          exact ih (by omega) (by omega) hhigh fun _ => hmid
        · -- the first start is never after the offset, so the middle is not the first
          have hpos : 0 < (low + high) / 2 := Nat.pos_of_ne_zero fun h0 => hmid (h0 ▸ hfirst)
          simp only [hmid, if_false]
          obtain ⟨hk, hkle, hko⟩ := ih (Nat.le_of_lt_succ (by omega)) (by omega) hpos hlow
          exact ⟨hk, by omega, hko⟩
      · rw [if_neg hlt]
        obtain rfl : low = high := by omega
        exact ⟨hhigh, Nat.le_refl _, hlow hhigh⟩

-- ── the starts ───────────────────────────────────────────────────────────────────

theorem mem_breaksFrom {n b : Nat} {cs : List Char} (h : b ∈ breaksFrom n cs) :
    ∃ x y, cs = x ++ y ∧ b = n + byteSize x := by
  induction cs generalizing n with
  | nil => exact nomatch h
  | cons c cs ih =>
      have hnext : b ∈ breaksFrom (n + c.utf8Size) cs →
          ∃ x y, c :: cs = x ++ y ∧ b = n + byteSize x := by
        intro hb
        obtain ⟨x, y, rfl, rfl⟩ := ih hb
        exact ⟨c :: x, y, rfl, by rw [byteSize_cons, Nat.add_assoc]⟩
      rw [breaksFrom] at h
      split at h
      · rcases List.mem_cons.mp h with rfl | hb
        · exact ⟨[c], cs, rfl, by rw [byteSize_cons, byteSize_nil, Nat.add_zero]⟩
        · exact hnext hb
      · exact hnext h

/-- Every line starts at a boundary. -/
theorem isBoundary_lineStart {b : Nat} (h : b ∈ lineStarts text) : IsBoundary b text := by
  rcases List.mem_cons.mp h with rfl | hb
  · exact isBoundary_iff.mpr ⟨[], text, rfl, rfl⟩
  · obtain ⟨x, y, rfl, rfl⟩ := mem_breaksFrom hb
    exact isBoundary_iff.mpr ⟨x, y, rfl, (Nat.zero_add _).symm⟩

/-- The line of an offset is a line of the table, and starts at a boundary not after the offset. -/
theorem LineTable.lineAt_spec (table : LineTable text) (o : Nat) :
    0 < table.lineAt o ∧ table.lineAt o ≤ table.starts.size ∧
      table.startOf (table.lineAt o) ≤ o ∧ IsBoundary (table.startOf (table.lineAt o)) text := by
  have hget : ∀ i, table.starts.getD i 0 = (lineStarts text).getD i 0 := by
    intro i
    rw [table.starts_eq]
    simp
  have hsize : 0 < table.starts.size := by
    rw [table.starts_eq]
    exact Nat.succ_pos _
  have hfirst : table.starts.getD 0 0 ≤ o := by
    rw [hget]
    exact Nat.zero_le o
  obtain ⟨hpos, hle, hstart⟩ := countUpTo_spec hfirst (Nat.zero_le _)
    (Nat.le_refl _) hsize (fun h => absurd h (Nat.lt_irrefl 0))
  refine ⟨hpos, hle, hstart, ?_⟩
  show IsBoundary (table.starts.getD (table.lineAt o - 1) 0) text
  rw [hget, List.getD_eq_getElem?_getD]
  cases hl : (lineStarts text)[table.lineAt o - 1]? with
  | none => exact isBoundary_iff.mpr ⟨[], text, rfl, rfl⟩
  | some b => exact isBoundary_lineStart (List.mem_of_getElem? hl)

end TemplateScan.Text
