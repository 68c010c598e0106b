import TemplateScan.Proofs.Text.Positions

/-! # Order — the positions of a document follow its offsets

    Positions are ordered by line, and on one line by column.  Reading on, a person comes to a later
    position with every character, whether it ends a line or not.  So the line table, which is
    searched by halving, still tells all places of a document apart.

    * **`Position.precedes_behind_append`** — more text leads to a later position.
    * **`Document.position_precedes`** — of two boundaries the later one has the later position.
    * **`Document.eq_of_position_eq`** — no two boundaries share a line and a column. -/

namespace TemplateScan.Text

-- ── positions ────────────────────────────────────────────────────────────────────

namespace Position

/-- On an earlier line, or further to the left on the same line. -/
def Precedes (p q : Position) : Prop :=
  p.line < q.line ∨ p.line = q.line ∧ p.column < q.column

instance (p q : Position) : Decidable (p.Precedes q) :=
  inferInstanceAs (Decidable (_ ∨ _))

variable {p q : Position}

theorem Precedes.ne (h : p.Precedes q) : p ≠ q := by
  rintro rfl
  rcases h with h | ⟨-, h⟩
  · exact Nat.lt_irrefl _ h
  · exact Nat.lt_irrefl _ h

/-- More text leads to a later position. -/
theorem precedes_behind_append (a : List Char) {b : List Char} (hb : b ≠ []) :
    (behind a).Precedes (behind (a ++ b)) := by
  have hlines : (a ++ b).count '\n' = a.count '\n' + b.count '\n' := List.count_append
  by_cases hmem : '\n' ∈ b
  · have hpos : 0 < b.count '\n' := List.count_pos_iff.mpr hmem
    left
    show a.count '\n' + 1 < (a ++ b).count '\n' + 1
    omega
  · -- the line goes on, and all of the text that is added stands on it
    have hrun : ∀ c ∈ b.reverse, (c != '\n') = true := by
      intro c hc
      rw [bne_iff_ne]
      rintro rfl
      exact hmem (List.mem_reverse.mp hc)
    have hpos : 0 < b.length := List.length_pos_iff.mpr hb
    right
    constructor
    · show a.count '\n' + 1 = (a ++ b).count '\n' + 1
      rw [hlines, List.count_eq_zero.mpr hmem, Nat.add_zero]
    · show (a.reverse.takeWhile (· != '\n')).length + 1 <
        ((a ++ b).reverse.takeWhile (· != '\n')).length + 1
      rw [List.reverse_append, List.takeWhile_append_of_pos hrun, List.length_append,
        List.length_reverse]
      omega

end Position

-- ── documents ────────────────────────────────────────────────────────────────────

/-- Of two first parts of a text the one with more bytes goes on from the other. -/
theorem exists_append_of_byteSize_lt {a b a' b' : List Char} (h : a ++ b = a' ++ b')
    (hlt : byteSize a < byteSize a') : ∃ c, c ≠ [] ∧ a' = a ++ c := by
  rcases List.append_eq_append_iff.mp h with ⟨c, rfl, -⟩ | ⟨c, rfl, -⟩
  · refine ⟨c, ?_, rfl⟩
    rintro rfl
    rw [List.append_nil] at hlt
    exact Nat.lt_irrefl _ hlt
  · rw [byteSize_append] at hlt
    omega

namespace Document

variable {d : Document} {o o' : Nat}

/-- Of two boundaries the later one has the later position. -/
theorem position_precedes (h : IsBoundary o d.chars) (h' : IsBoundary o' d.chars) (hlt : o < o') :
    (d.position o).Precedes (d.position o') := by
  obtain ⟨a, b, hab, rfl⟩ := isBoundary_iff.mp h
  obtain ⟨a', b', hab', rfl⟩ := isBoundary_iff.mp h'
  obtain ⟨c, hc, rfl⟩ := exists_append_of_byteSize_lt (hab.symm.trans hab') hlt
  rw [position_byteSize hab, position_byteSize hab']
  exact Position.precedes_behind_append a hc

/-- No two boundaries share a line and a column. -/
theorem eq_of_position_eq (h : IsBoundary o d.chars) (h' : IsBoundary o' d.chars)
    (heq : d.position o = d.position o') : o = o' := by
  rcases Nat.lt_trichotomy o o' with hlt | rfl | hgt
  · exact absurd heq (position_precedes h h' hlt).ne
  · rfl
  · exact absurd heq.symm (position_precedes h' h hgt).ne

/-- The positions of a document are the ones counted in its text, and tell its places apart. -/
structure PositionsCount (d : Document) : Prop where
  /-- Every boundary has the position counted in the text before it. -/
  counted : ∀ before after, d.chars = before ++ after →
    d.position? (byteSize before) = some (.behind before)
  /-- Of two boundaries the later one has the later position. -/
  increasing : ∀ o o', IsBoundary o d.chars → IsBoundary o' d.chars → o < o' →
    (d.position o).Precedes (d.position o')
  /-- No two boundaries share a line and a column. -/
  distinct : ∀ o o', IsBoundary o d.chars → IsBoundary o' d.chars →
    d.position o = d.position o' → o = o'

theorem positionsCount (d : Document) : d.PositionsCount where
  counted before after h := by
    have hb : IsBoundary (byteSize before) d.chars := isBoundary_iff.mpr ⟨before, after, h, rfl⟩
    rw [(position?_of_isBoundary hb).1, position_byteSize h]
  increasing _ _ := position_precedes
  distinct _ _ := eq_of_position_eq

end Document

end TemplateScan.Text
