/-! # Tables — finite maps from names, in key order

    A table is the list of its entries, strictly ascending by key (`Table.ascending`).  The order
    is that of the characters' code points, so it is the order in which a table is written, and two
    tables with the same entries are equal.

    * **`get?_insert_self`**, **`get?_insert_ne`** — an insertion answers its own key and no other.
    * **`ext_get?`** — a table is determined by its answers.
    * **`ofList_of_perm`** — and by its entries, in whatever order they come. -/

namespace TemplateScan

variable {α β : Type}

-- ── sorted lists of entries ──────────────────────────────────────────────────────

namespace Entries

/-- The entries are strictly ascending by key. -/
def Ascending (entries : List (String × α)) : Prop :=
  entries.Pairwise (·.1 < ·.1)

/-- The value of the first entry with the given key. -/
def get? (key : String) : List (String × α) → Option α
  | [] => none
  | (k, v) :: rest => if k = key then some v else get? key rest

/-- The entries with one more, which replaces an entry of the same key. -/
def insert (key : String) (value : α) : List (String × α) → List (String × α)
  | [] => [(key, value)]
  | (k, v) :: rest =>
      if key < k then (key, value) :: (k, v) :: rest
      else if k = key then (key, value) :: rest
      else (k, v) :: insert key value rest

/-- The entries in ascending order; of several with one key the last is kept. -/
def ofList (entries : List (String × α)) : List (String × α) :=
  entries.foldl (fun sorted entry => insert entry.1 entry.2 sorted) []

theorem ascending_nil : Ascending ([] : List (String × α)) :=
  List.Pairwise.nil

/-- An insertion brings in no key but its own. -/
theorem mem_insert {key : String} {value : α} {entry : String × α}
    {entries : List (String × α)} (h : entry ∈ insert key value entries) :
    entry = (key, value) ∨ entry ∈ entries := by
  induction entries with
  | nil => simpa [insert] using h
  | cons hd tl ih =>
      obtain ⟨k, v⟩ := hd
      simp only [insert] at h
      split at h
      · simpa using h
      · split at h
        · rcases List.mem_cons.mp h with h | h
          · exact Or.inl h
          · exact Or.inr (List.mem_cons_of_mem _ h)
        · rcases List.mem_cons.mp h with h | h
          · exact Or.inr (h ▸ List.mem_cons_self ..)
          · exact (ih h).imp_right (List.mem_cons_of_mem _)

/-- An insertion keeps the order. -/
theorem ascending_insert (key : String) (value : α) {entries : List (String × α)}
    (h : Ascending entries) : Ascending (insert key value entries) := by
  induction entries with
  | nil => exact List.pairwise_singleton _ _
  | cons hd tl ih =>
      obtain ⟨k, v⟩ := hd
      obtain ⟨hlt, htl⟩ := List.pairwise_cons.mp h
      simp only [insert]
      split
      · next hk =>
          refine List.pairwise_cons.mpr ⟨fun e he => ?_, h⟩
          rcases List.mem_cons.mp he with rfl | he
          · exact hk
          · exact String.lt_trans hk (hlt e he)
      · next hk =>
          split
          · next heq =>
              subst heq
              exact List.pairwise_cons.mpr ⟨hlt, htl⟩
          · next hne =>
              refine List.pairwise_cons.mpr ⟨fun e he => ?_, ih htl⟩
              rcases mem_insert he with rfl | he
              · exact Std.lt_of_le_of_ne (String.not_lt.mp hk) hne
              · exact hlt e he

/-- Putting entries in order puts them in order. -/
theorem ascending_ofList (entries : List (String × α)) : Ascending (ofList entries) := by
  suffices h : ∀ sorted : List (String × α), Ascending sorted →
      Ascending (entries.foldl (fun sorted entry => insert entry.1 entry.2 sorted) sorted) from
    h [] ascending_nil
  induction entries with
  | nil => exact fun _ h => h
  | cons entry entries ih => exact fun _ h => ih _ (ascending_insert _ _ h)

/-- An insertion of a key above all others comes last. -/
theorem insert_eq_concat {key : String} (value : α) {entries : List (String × α)}
    (h : ∀ entry ∈ entries, entry.1 < key) :
    insert key value entries = entries ++ [(key, value)] := by
  induction entries with
  | nil => rfl
  | cons hd tl ih =>
      obtain ⟨k, v⟩ := hd
      obtain ⟨hk, htl⟩ := List.forall_mem_cons.mp h
      have hne : k ≠ key := fun e => String.lt_irrefl key (e ▸ hk)
      rw [insert, if_neg (String.lt_asymm hk), if_neg hne, ih htl, List.cons_append]

/-- Entries in ascending order are in order. -/
theorem ofList_of_ascending {entries : List (String × α)} (h : Ascending entries) :
    ofList entries = entries := by
  suffices hfold : ∀ sorted : List (String × α), Ascending (sorted ++ entries) →
      entries.foldl (fun sorted entry => insert entry.1 entry.2 sorted) sorted =
        sorted ++ entries from
    hfold [] h
  induction entries with
  | nil => exact fun sorted _ => (List.append_nil sorted).symm
  | cons entry entries ih =>
      intro sorted hsorted
      have hbelow : ∀ e ∈ sorted, e.1 < entry.1 := fun e he =>
        (List.pairwise_append.mp hsorted).2.2 e he entry List.mem_cons_self
      rw [List.foldl_cons, insert_eq_concat entry.2 hbelow,
        ih (List.pairwise_cons.mp h).2 _ (by rwa [List.append_assoc]), List.append_assoc]
      rfl

/-- An insertion answers its own key. -/
theorem get?_insert_self (key : String) (value : α) (entries : List (String × α)) :
    get? key (insert key value entries) = some value := by
  induction entries with
  | nil => simp [insert, get?]
  | cons hd tl ih =>
      obtain ⟨k, v⟩ := hd
      simp only [insert]
      split
      · simp [get?]
      · split
        · simp [get?]
        · next hne => simp [get?, hne, ih]

/-- An insertion changes no other answer. -/
theorem get?_insert_ne {key other : String} (h : other ≠ key) (value : α)
    (entries : List (String × α)) :
    get? other (insert key value entries) = get? other entries := by
  induction entries with
  | nil => simp [insert, get?, Ne.symm h]
  | cons hd tl ih =>
      obtain ⟨k, v⟩ := hd
      simp only [insert]
      split
      · simp [get?, Ne.symm h]
      · split
        · next heq =>
            subst heq
            simp [get?, Ne.symm h]
        · simp [get?, ih]

/-- A key below all entries has no answer. -/
theorem get?_eq_none_of_lt {key : String} {entries : List (String × α)}
    (h : ∀ entry ∈ entries, key < entry.1) : get? key entries = none := by
  induction entries with
  | nil => rfl
  | cons hd tl ih =>
      obtain ⟨k, v⟩ := hd
      have hk : k ≠ key := fun e => String.lt_irrefl key (e ▸ h (k, v) (List.mem_cons_self ..))
      simp [get?, hk, ih fun e he => h e (List.mem_cons_of_mem _ he)]

/-- Ascending entries are determined by their answers. -/
theorem eq_of_get?_eq {a b : List (String × α)} (ha : Ascending a) (hb : Ascending b)
    (h : ∀ key, get? key a = get? key b) : a = b := by
  induction a generalizing b with
  | nil =>
      cases b with
      | nil => rfl
      | cons hd tl => exact absurd (h hd.1) (by simp [get?])
  | cons x xs ih =>
      cases b with
      | nil => exact absurd (h x.1) (by simp [get?])
      | cons y ys =>
          obtain ⟨hx, hxs⟩ := List.pairwise_cons.mp ha
          obtain ⟨hy, hys⟩ := List.pairwise_cons.mp hb
          have hkey : x.1 = y.1 := by
            by_cases hxy : x.1 < y.1
            · have hn : get? x.1 (y :: ys) = none := get?_eq_none_of_lt fun e he => by
                rcases List.mem_cons.mp he with rfl | he
                · exact hxy
                · exact String.lt_trans hxy (hy e he)
              have := h x.1
              rw [hn] at this
              simp [get?] at this
            · by_cases hyx : y.1 < x.1
              · have hn : get? y.1 (x :: xs) = none := get?_eq_none_of_lt fun e he => by
                  rcases List.mem_cons.mp he with rfl | he
                  · exact hyx
                  · exact String.lt_trans hyx (hx e he)
                have := h y.1
                rw [hn] at this
                simp [get?] at this
              · exact String.le_antisymm (String.not_lt.mp hyx) (String.not_lt.mp hxy)
          have hval : x.2 = y.2 := by
            have := h x.1
            simpa [get?, hkey] using this
          have htail : xs = ys := ih hxs hys fun key => by
            by_cases hk : x.1 = key
            · rw [get?_eq_none_of_lt fun e he => hk ▸ hx e he,
                get?_eq_none_of_lt fun e he => hk ▸ hkey ▸ hy e he]
            · have := h key
              simpa [get?, hk, ← hkey] using this
          obtain ⟨k, v⟩ := x
          obtain ⟨k', v'⟩ := y
          simp only at hkey hval
          rw [hkey, hval, htail]

end Entries

-- ── tables ───────────────────────────────────────────────────────────────────────

/-- A finite map from names: its entries, strictly ascending by key. -/
structure Table (α : Type) where
  entries : List (String × α)
  ascending : Entries.Ascending entries := by exact List.Pairwise.nil

namespace Table

instance [DecidableEq α] : DecidableEq (Table α) := fun a b =>
  if h : a.entries = b.entries then
    isTrue (by cases a; cases b; cases h; rfl)
  else isFalse fun e => h (e ▸ rfl)

/-- The table without entries. -/
def empty : Table α where
  entries := []

instance : EmptyCollection (Table α) := ⟨empty⟩
instance : Inhabited (Table α) := ⟨empty⟩

/-- The value stored under a name. -/
def get? (t : Table α) (key : String) : Option α :=
  Entries.get? key t.entries

/-- Whether a name has a value. -/
def contains (t : Table α) (key : String) : Bool :=
  (t.get? key).isSome

/-- The table with one more entry, which replaces an entry of the same name. -/
def insert (t : Table α) (key : String) (value : α) : Table α where
  entries := Entries.insert key value t.entries
  ascending := Entries.ascending_insert key value t.ascending

/-- The table of the given entries; of several with one name the last is kept. -/
def ofList (entries : List (String × α)) : Table α where
  entries := Entries.ofList entries
  ascending := Entries.ascending_ofList entries

/-- The table with the entries of another laid over it. -/
def overlay (t other : Table α) : Table α :=
  other.entries.foldl (fun table entry => table.insert entry.1 entry.2) t

@[simp] theorem get?_empty (key : String) : (empty : Table α).get? key = none := rfl

@[simp] theorem get?_insert_self (t : Table α) (key : String) (value : α) :
    (t.insert key value).get? key = some value :=
  Entries.get?_insert_self key value t.entries

theorem get?_insert_ne (t : Table α) {key other : String} (h : other ≠ key) (value : α) :
    (t.insert key value).get? other = t.get? other :=
  Entries.get?_insert_ne h value t.entries

/-- The table of the entries of a table is that table. -/
theorem ofList_entries (t : Table α) : ofList t.entries = t := by
  obtain ⟨entries, ascending⟩ := t
  have h : Entries.ofList entries = entries := Entries.ofList_of_ascending ascending
  simp only [ofList, h]

/-- A table is determined by its answers. -/
theorem ext_get? {a b : Table α} (h : ∀ key, a.get? key = b.get? key) : a = b := by
  have : a.entries = b.entries := Entries.eq_of_get?_eq a.ascending b.ascending h
  cases a
  cases b
  cases this
  rfl

/-- An entry of a table is its answer. -/
theorem get?_of_mem {t : Table α} {entry : String × α} (h : entry ∈ t.entries) :
    t.get? entry.1 = some entry.2 := by
  obtain ⟨entries, ascending⟩ := t
  show Entries.get? entry.1 entries = some entry.2
  induction entries with
  | nil => cases h
  | cons head entries ih =>
      obtain ⟨hlt, htail⟩ := List.pairwise_cons.mp ascending
      rw [Entries.get?]
      rcases List.mem_cons.mp h with rfl | h
      · rw [if_pos rfl]
      · have hne : head.1 ≠ entry.1 := by
          intro heq
          exact String.lt_irrefl _ (heq ▸ hlt entry h)
        rw [if_neg hne]
        exact ih htail h

/-- Entries of different names are inserted in either order. -/
theorem insert_comm (t : Table α) {k k' : String} (h : k ≠ k') (v v' : α) :
    (t.insert k v).insert k' v' = (t.insert k' v').insert k v := by
  apply ext_get?
  intro key
  by_cases hk : key = k
  · subst hk
    rw [get?_insert_ne _ h, get?_insert_self, get?_insert_self]
  · by_cases hk' : key = k'
    · subst hk'
      rw [get?_insert_self, get?_insert_ne _ hk, get?_insert_self]
    · rw [get?_insert_ne _ hk', get?_insert_ne _ hk, get?_insert_ne _ hk, get?_insert_ne _ hk']

theorem ofList_eq_foldl (entries : List (String × α)) :
    ofList entries = entries.foldl (fun table entry => table.insert entry.1 entry.2) empty := by
  suffices h : ∀ t : Table α,
      entries.foldl (fun sorted entry => Entries.insert entry.1 entry.2 sorted) t.entries =
        (entries.foldl (fun table entry => table.insert entry.1 entry.2) t).entries by
    apply ext_get?
    intro key
    exact congrArg (Entries.get? key) (h empty)
  induction entries with
  | nil => exact fun _ => rfl
  | cons entry entries ih => exact fun t => ih (t.insert entry.1 entry.2)

/-- The entries of a table make up that table in any order. -/
theorem ofList_of_perm {entries : List (String × α)} {t : Table α} (h : entries.Perm t.entries) :
    ofList entries = t := by
  have hcomm : ∀ a ∈ entries, ∀ b ∈ entries, ∀ u : Table α,
      (u.insert a.1 a.2).insert b.1 b.2 = (u.insert b.1 b.2).insert a.1 a.2 := by
    intro a ha b hb u
    by_cases hab : a.1 = b.1
    · have hvalue : a.2 = b.2 := Option.some.inj <| by
        rw [← get?_of_mem (h.mem_iff.mp ha), ← get?_of_mem (h.mem_iff.mp hb), hab]
      rw [Prod.ext hab hvalue]
    · exact insert_comm u hab a.2 b.2
  rw [ofList_eq_foldl, h.foldl_eq' hcomm, ← ofList_eq_foldl, ofList_entries]

end Table

end TemplateScan
