import TemplateScan.Dialect.Standard
import TemplateScan.Proofs.Dialect.RoundTrip

/-! # Overlays — the laws of laying one dialect over another

    An overlay is a union of three tables, in which the upper dialect wins, and of two lists of
    names, in which nothing is listed twice that the upper dialect brings in.  A table is known by
    its answers, so the laws of the tables are laws of `Option.or`; the lists are known by what
    `addNew` leaves of a list in front of which others stand already.

    * **`Table.get?_overlay`** — what a table with another laid over it answers.
    * **`foldl_addNew`** — the names that are new, each one once, in order.
    * **`Sound.overlay`** — no overlay of sound dialects has a stray parent.
    * **`overlay_laws`** — overlays are associative and idempotent, have a unit, and stay sound. -/

namespace TemplateScan

variable {α : Type}

-- ── tables ───────────────────────────────────────────────────────────────────────

/-- Entries in order that are inserted into a table one by one answer before the table does. -/
theorem Entries.get?_foldl_insert {entries : List (String × α)} (h : Entries.Ascending entries)
    (t : Table α) (key : String) :
    (entries.foldl (fun table entry => table.insert entry.1 entry.2) t).get? key =
      (Entries.get? key entries).or (t.get? key) := by
  induction entries generalizing t with
  | nil => rfl
  | cons entry entries ih =>
      obtain ⟨k, v⟩ := entry
      obtain ⟨hlt, htail⟩ := List.pairwise_cons.mp h
      rw [List.foldl_cons, ih htail, Entries.get?]
      by_cases hk : k = key
      · subst hk
        -- the key of the first entry is none of the others'
        rw [if_pos rfl, Entries.get?_eq_none_of_lt hlt, Table.get?_insert_self]
        rfl
      · rw [if_neg hk, Table.get?_insert_ne t (Ne.symm hk)]

namespace Table

/-- The answers of the table laid over come first. -/
theorem get?_overlay (t u : Table α) (key : String) :
    (t.overlay u).get? key = (u.get? key).or (t.get? key) :=
  Entries.get?_foldl_insert u.ascending t key

/-- An overlay holds what either table does. -/
theorem contains_overlay (t u : Table α) (key : String) :
    (t.overlay u).contains key = (u.contains key || t.contains key) := by
  rw [contains, get?_overlay, Option.isSome_or]
  rfl

theorem overlay_assoc (t u v : Table α) : (t.overlay u).overlay v = t.overlay (u.overlay v) := by
  apply ext_get?
  intro key
  simp only [get?_overlay, Option.or_assoc]

theorem overlay_self (t : Table α) : t.overlay t = t := by
  apply ext_get?
  intro key
  rw [get?_overlay, Option.or_self]

end Table

-- ── lists of names ───────────────────────────────────────────────────────────────

namespace Dialect

variable {listed names : List String} {name : String}

/-- A name that is listed is not listed again. -/
theorem addNew_of_mem (h : name ∈ listed) : addNew listed name = listed := by
  rw [addNew, if_pos (List.contains_iff_mem.mpr h)]

/-- A new name comes last. -/
theorem addNew_of_not_mem (h : name ∉ listed) : addNew listed name = listed ++ [name] := by
  rw [addNew, if_neg (by rwa [List.contains_iff_mem])]

/-- The names that are not listed yet are appended, each of them once, in the order in which they
    come first. -/
theorem foldl_addNew (listed names : List String) :
    names.foldl addNew listed =
      listed ++ (names.filter fun name => !listed.contains name).eraseDups := by
  induction names generalizing listed with
  | nil => simp
  | cons name names ih =>
      rw [List.foldl_cons]
      by_cases h : name ∈ listed
      · rw [addNew_of_mem h, ih, List.filter_cons_of_neg (by simpa using h)]
      · rw [addNew_of_not_mem h, ih, List.filter_cons_of_pos (by simpa using h),
          List.eraseDups_cons, List.append_assoc, List.filter_filter]
        -- what is new behind the name is new before it and another name
        have hnew : (fun other => !(listed ++ [name]).contains other) =
            fun other => !(other == name) && !listed.contains other := by
          funext other
          rw [Bool.eq_iff_iff]
          simp [and_comm]
        rw [hnew]
        rfl

/-- Listing more names loses none. -/
theorem mem_foldl_addNew {other : String} :
    other ∈ names.foldl addNew listed ↔ other ∈ listed ∨ other ∈ names := by
  rw [foldl_addNew, List.mem_append, List.mem_eraseDups, List.mem_filter]
  by_cases h : other ∈ listed <;> simp [h]

/-- Names are new in front of a list when they are new one after the other. -/
theorem foldl_addNew_assoc (a b c : List String) :
    (c.foldl addNew b).foldl addNew a = c.foldl addNew (b.foldl addNew a) := by
  induction c generalizing b with
  | nil => rfl
  | cons name c ih =>
      rw [List.foldl_cons, List.foldl_cons, ih]
      by_cases h : name ∈ b
      · rw [addNew_of_mem h, addNew_of_mem (mem_foldl_addNew.mpr (Or.inr h))]
      · rw [addNew_of_not_mem h, List.foldl_append]
        rfl

/-- Listing the same names again changes nothing. -/
theorem foldl_addNew_self (names : List String) : names.foldl addNew names = names := by
  have hnone : (names.filter fun name => !names.contains name) = [] := by simp
  rw [foldl_addNew, hnone, List.eraseDups_nil, List.append_nil]

-- ── dialects ─────────────────────────────────────────────────────────────────────

theorem overlay_assoc (a b c : Dialect) : (a.overlay b).overlay c = a.overlay (b.overlay c) := by
  simp only [overlay, Table.overlay_assoc, foldl_addNew_assoc]

theorem overlay_self (d : Dialect) : d.overlay d = d := by
  simp only [overlay, Table.overlay_self, foldl_addNew_self]

/-- Nothing laid over a dialect changes nothing. -/
theorem overlay_empty (d : Dialect) : d.overlay ∅ = d := rfl

/-- **Overlays of sound dialects are sound**: each rule is one of the two dialects, and its parents
    are tags of that dialect, which the overlay keeps. -/
theorem Sound.overlay {a b : Dialect} (ha : a.Sound) (hb : b.Sound) : (a.overlay b).Sound := by
  intro entry hentry parent hparent
  have hanswer : (a.tags.overlay b.tags).get? entry.1 = some entry.2 := Table.get?_of_mem hentry
  show (a.tags.overlay b.tags).contains parent = true
  rw [Table.get?_overlay, Option.or_eq_some_iff] at hanswer
  rw [Table.contains_overlay, Bool.or_eq_true]
  rcases hanswer with hupper | ⟨-, hlower⟩
  · exact Or.inl (hb _ (Entries.mem_of_get? hupper) parent hparent)
  · exact Or.inr (ha _ (Entries.mem_of_get? hlower) parent hparent)

/-- A dialect that has been loaded is sound. -/
theorem sound_of_load {text : String} {d : Dialect} (h : load text = .ok d) : d.Sound := by
  unfold load at h
  split at h
  · cases h
  · split at h
    · cases h
    · next hnone =>
        cases h
        exact strayParent?_eq_none_iff.mp hnone

/-- **Overlays** are associative and idempotent, and the empty dialect is a unit above.  The upper
    dialect answers for every name that it has, and the lower one for the others; the elements
    tracked by the upper dialect follow those of the lower one as far as they are new.  The overlay
    of sound dialects is sound, so that of two dialects that have been loaded is never refused for a
    stray parent. -/
theorem overlay_laws (a b c : Dialect) :
    (a.overlay b).overlay c = a.overlay (b.overlay c) ∧
    a.overlay a = a ∧
    a.overlay .empty = a ∧
    (∀ name, (a.overlay b).tags.get? name = (b.tags.get? name).or (a.tags.get? name) ∧
      (a.overlay b).filters.get? name = (b.filters.get? name).or (a.filters.get? name) ∧
      (a.overlay b).objects.get? name = (b.objects.get? name).or (a.objects.get? name)) ∧
    (a.overlay b).associates = a.associates ++
      (b.associates.filter fun name => !a.associates.contains name).eraseDups ∧
    (a.Sound → b.Sound → (a.overlay b).Sound) ∧
    ∀ s t, load s = .ok a → load t = .ok b → (a.overlay b).strayParent? = none ∧
      ∀ tag parent, load (a.overlay b).write ≠ .error (.strayParent tag parent) := by
  refine ⟨overlay_assoc a b c, overlay_self a, overlay_empty a, fun name => ?_,
    foldl_addNew a.associates b.associates, Sound.overlay, fun s t hs ht => ?_⟩
  · exact ⟨Table.get?_overlay .., Table.get?_overlay .., Table.get?_overlay ..⟩
  · have hsound := (sound_of_load hs).overlay (sound_of_load ht)
    refine ⟨strayParent?_eq_none_iff.mpr hsound, fun tag parent hrefused => ?_⟩
    rcases Nat.lt_or_ge maxLevels (a.overlay b).toValue.nesting with hdeep | hfits
    · rw [load_write_of_deep hdeep] at hrefused
      cases hrefused
    · rw [load_write_of_sound hfits hsound] at hrefused
      cases hrefused

theorem overlay_laws_standard :
    let upper := (empty.withTag "if" (TagRule.ofKind .other).asBlock).withTag "note"
      ((TagRule.ofKind .other).within ["if"])
    load standard.write = .ok standard ∧ load upper.write = .ok upper ∧
      (standard.overlay upper).Sound ∧ (standard.overlay upper).strayParent? = none ∧
      ∀ tag parent, load (standard.overlay upper).write ≠ .error (.strayParent tag parent) := by
  intro upper
  have hlower : standard.Sound := strayParent?_eq_none_iff.mp (by decide +kernel)
  have hupper : upper.Sound := strayParent?_eq_none_iff.mp (by decide +kernel)
  have hloadLower : load standard.write = .ok standard :=
    load_write_of_sound (by decide +kernel) hlower
  have hloadUpper : load upper.write = .ok upper := load_write_of_sound (by decide +kernel) hupper
  obtain ⟨-, -, -, -, -, hsound, hloaded⟩ := overlay_laws standard upper empty
  exact ⟨hloadLower, hloadUpper, hsound hlower hupper, hloaded _ _ hloadLower hloadUpper⟩

end Dialect

end TemplateScan
