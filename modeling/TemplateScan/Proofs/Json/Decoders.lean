import TemplateScan.Json.Decoder
import TemplateScan.Proofs.Json.Printed

/-! # Decoders on whole values — what is read where nothing is broken

    On the outline of a value only one thing can go wrong: it is nested deeper than the levels that
    are left.  So a decoder that reads a value back does so exactly when it fits (`Decoder.Reads`),
    and this is kept by every way of putting decoders together.

    * **`Decoder.Reads`** — a decoder reads a value back, if it fits.
    * **`list_reads`**, **`table_reads`** — items and entries that are read back are read in order.
    * **`Fills`**, **`record_reads`** — a record whose members are all written, in their order. -/

namespace TemplateScan.Json

-- ── nesting ──────────────────────────────────────────────────────────────────────

namespace Value

mutual

/-- How deep the arrays and objects of a value are nested; an empty one counts like any other. -/
def nesting : Value → Nat
  | .array items => itemNesting items + 1
  | .object members => memberNesting members + 1
  | _ => 0

/-- The nesting of the deepest item. -/
def itemNesting : List Value → Nat
  | [] => 0
  | item :: items => max item.nesting (itemNesting items)

/-- The nesting of the deepest member. -/
def memberNesting : List (String × Value) → Nat
  | [] => 0
  | (_, value) :: members => max value.nesting (memberNesting members)

end

/-- An array is one level deeper than its items. -/
theorem nesting_array_le {items : List Value} {levels : Nat} :
    (array items).nesting ≤ levels + 1 ↔ ∀ item ∈ items, item.nesting ≤ levels := by
  rw [nesting, Nat.add_le_add_iff_right]
  induction items with
  | nil => simp [itemNesting]
  | cons item items ih => rw [itemNesting, Nat.max_le, ih, List.forall_mem_cons]

/-- An object is one level deeper than its members. -/
theorem nesting_object_le {members : List (String × Value)} {levels : Nat} :
    (object members).nesting ≤ levels + 1 ↔ ∀ member ∈ members, member.2.nesting ≤ levels := by
  rw [nesting, Nat.add_le_add_iff_right]
  induction members with
  | nil => simp [memberNesting]
  | cons member members ih =>
      obtain ⟨key, value⟩ := member
      rw [memberNesting, Nat.max_le, ih, List.forall_mem_cons]

end Value

-- ── answers ──────────────────────────────────────────────────────────────────────

variable {α β σ : Type}

/-- The answer to something whose only flaw can be that it is nested too deep. -/
def ifFits (fits : Prop) [Decidable fits] (a : α) : Decoded α :=
  if fits then .ok a else .error .malformed

/-- Equivalent conditions fit alike. -/
theorem ifFits_congr {p q : Prop} [Decidable p] [Decidable q] (h : p ↔ q) (a : α) :
    ifFits p a = ifFits q a := by
  simp only [ifFits, h]

/-- Where the levels suffice, the value is decoded. -/
theorem ifFits_of {p : Prop} [Decidable p] (h : p) (a : α) : ifFits p a = .ok a :=
  if_pos h

/-- Where they do not, the text is malformed. -/
theorem ifFits_of_not {p : Prop} [Decidable p] (h : ¬ p) (a : α) :
    ifFits p a = .error .malformed :=
  if_neg h

/-- What is read in two parts fits if both of them do. -/
theorem ifFits_bind {p q : Prop} [Decidable p] [Decidable q] {a : α} {b : β} {f : α → Decoded β}
    (h : f a = ifFits q b) : (ifFits p a >>= f) = ifFits (p ∧ q) b := by
  by_cases hp : p
  · rw [ifFits_of hp]
    show f a = _
    rw [h]
    exact ifFits_congr (by simp [hp]) b
  · rw [ifFits_of_not hp, ifFits_of_not fun hpq => hp hpq.1]
    rfl

/-- Nothing can go wrong any more with what has been read. -/
theorem ifFits_then {p : Prop} [Decidable p] {a : α} {b : β} {f : α → Decoded β}
    (h : f a = .ok b) : (ifFits p a >>= f) = ifFits p b := by
  by_cases hp : p
  · rw [ifFits_of hp, ifFits_of hp]
    exact h
  · rw [ifFits_of_not hp, ifFits_of_not hp]
    rfl

theorem ifFits_map {p : Prop} [Decidable p] (f : α → β) (a : α) :
    (ifFits p a).map f = ifFits p (f a) :=
  ifFits_then rfl

/-- A first part and the rest are read one after the other. -/
theorem ifFits_both {γ : Type} {p q : Prop} [Decidable p] [Decidable q] (f : α → β → γ) (a : α)
    (b : β) : (do
      let x ← ifFits p a
      let y ← ifFits q b
      pure (f x y)) = ifFits (p ∧ q) (f a b) :=
  ifFits_bind (ifFits_then rfl)

namespace Decoder

/-- The decoder reads the value back as `a`, unless it is nested too deep. -/
def Reads (decoder : Decoder α) (levels : Nat) (value : Value) (a : α) : Prop :=
  decoder levels value.outline = ifFits (value.nesting ≤ levels) a

-- ── scalars ──────────────────────────────────────────────────────────────────────

theorem bool_reads (levels : Nat) (b : Bool) : bool.Reads levels (.bool b) b :=
  (ifFits_of (Nat.zero_le _) b).symm

theorem text_reads (levels : Nat) (t : String) : text.Reads levels (.string t) t :=
  (ifFits_of (Nat.zero_le _) t).symm

/-- An option is read back by its name. -/
theorem variant_reads {ofName? : String → Option α} {name : String} {a : α}
    (h : ofName? name = some a) (levels : Nat) :
    (variant ofName?).Reads levels (.string name) a := by
  have hnamed : named ofName? (some name) = .ok a := by
    simp only [named, keptKey, bind, Except.bind, h]
  cases levels <;> exact hnamed.trans (ifFits_of (Nat.zero_le _) a).symm

/-- A text that may be missing is read back if the text is. -/
theorem option_reads {decoder : Decoder α} {name : α → String} {levels : Nat}
    (h : ∀ a, decoder.Reads levels (.string (name a)) a) (a? : Option α) :
    (option decoder).Reads levels (.ofText? (a?.map name)) a? := by
  cases a? with
  | none => exact (ifFits_of (Nat.zero_le _) none).symm
  | some a =>
      show (decoder levels (Value.string (name a)).outline).map some = _
      rw [h a, ifFits_map]
      rfl

-- ── arrays ───────────────────────────────────────────────────────────────────────

/-- Items that are read back one by one are read back as a list. -/
theorem list_reads {decoder : Decoder α} {toValue : α → Value}
    (h : ∀ levels a, decoder.Reads levels (toValue a) a) (levels : Nat) (as : List α) :
    (list decoder).Reads levels (.array (as.map toValue)) as := by
  cases levels with
  | zero => exact (ifFits_of_not (by simp [Value.nesting]) as).symm
  | succ levels =>
      have items : (Value.itemOutlines (as.map toValue)).mapM (decoder levels) =
          ifFits (∀ item ∈ as.map toValue, item.nesting ≤ levels) as := by
        induction as with
        | nil => exact (ifFits_of (List.forall_mem_nil _) []).symm
        | cons a as ih =>
            rw [List.map_cons, Value.itemOutlines, List.mapM_cons, h levels a, ih]
            rw [ifFits_both List.cons]
            refine ifFits_congr ?_ _
            rw [List.forall_mem_cons]
      show (do
        let values ← (Value.itemOutlines (as.map toValue)).mapM (decoder levels)
        ArrayEnding.closed.check
        pure values) = _
      rw [items]
      exact (ifFits_then rfl).trans (ifFits_congr Value.nesting_array_le.symm as)

-- ── objects ──────────────────────────────────────────────────────────────────────

/-- Entries that are read back one by one are read back as a list. -/
theorem entries_reads {decoder : Decoder α} {toValue : α → Value} {levels : Nat}
    {es : List (String × α)} (h : ∀ e ∈ es, decoder.Reads levels (toValue e.2) e.2) :
    entries (decoder levels) (Value.memberOutlines (es.map fun e => (e.1, toValue e.2))) =
      ifFits (∀ e ∈ es, (toValue e.2).nesting ≤ levels) es := by
  induction es with
  | nil => exact (ifFits_of (List.forall_mem_nil _) []).symm
  | cons e es ih =>
      show (do
        let value ← decoder levels (toValue e.2).outline
        let rest ← entries (decoder levels)
          (Value.memberOutlines (es.map fun e : String × α => (e.1, toValue e.2)))
        pure ((e.1, value) :: rest)) = _
      rw [h e List.mem_cons_self, ih fun e he => h e (List.mem_cons_of_mem _ he)]
      rw [ifFits_both fun value rest => (e.1, value) :: rest]
      refine ifFits_congr ?_ _
      rw [List.forall_mem_cons]

/-- A table whose entries are read back is read back. -/
theorem table_reads {decoder : Decoder α} (toValue : α → Value) {levels : Nat} {t : Table α}
    (h : ∀ e ∈ t.entries, decoder.Reads levels (toValue e.2) e.2) :
    (table decoder).Reads (levels + 1)
      (.object (t.entries.map fun e => (e.1, toValue e.2))) t := by
  show (do
    let entries ← entries (decoder levels)
      (Value.memberOutlines (t.entries.map fun e : String × α => (e.1, toValue e.2)))
    ObjectEnding.closed.checkKept fun _ => .ok ()
    pure (Table.ofList entries)) = _
  rw [entries_reads h]
  refine (ifFits_then (by rw [Table.ofList_entries]; rfl)).trans (ifFits_congr ?_ t)
  rw [Value.nesting_object_le, List.forall_mem_map]

/-- Nothing is nested so little that it needs no level for an object. -/
theorem not_reads_zero {decoder : Decoder α} {members : List (String × Value)} {a : α}
    (h : decoder 0 (Value.object members).outline = .error .malformed) :
    decoder.Reads 0 (.object members) a := by
  rw [Reads, h, ifFits_of_not]
  simp [Value.nesting]

-- ── records ──────────────────────────────────────────────────────────────────────

/-- Read one after the other, the fields turn the first record into the last one. -/
inductive Fills (m : Members σ) (levels : Nat) : (fields : List (String × Value)) → σ → σ → Prop where
  | nil (record : σ) : Fills m levels [] record record
  | cons {γ : Type} {decoder : Decoder γ} {name : String} {value : Value} {a : γ}
      {fields : List (String × Value)} {record last : σ} (set : σ → γ → σ)
      (reads : decoder.Reads levels value a)
      (assign : m.assign name value.outline record =
        (decoder levels value.outline).map (set record))
      (rest : Fills m levels fields (set record a) last) :
      Fills m levels ((name, value) :: fields) record last

/-- Fields that are known and all different are read like that. -/
theorem Fills.readMembers {m : Members σ} {levels : Nat} {fields : List (String × Value)}
    {record last : σ} (h : Fills m levels fields record last) (seen : List String)
    (hknown : ∀ field ∈ fields, field.1 ∈ m.names)
    (hnew : ∀ field ∈ fields, field.1 ∉ seen) (hnodup : (fields.map (·.1)).Nodup) :
    ∃ seen', Decoder.readMembers m seen (Value.memberOutlines fields) record =
      ifFits (∀ field ∈ fields, field.2.nesting ≤ levels) (seen', last) := by
  induction h generalizing seen with
  | nil record => exact ⟨seen, (ifFits_of (List.forall_mem_nil _) _).symm⟩
  | @cons _ decoder name value a fields record last set reads assign rest ih =>
      obtain ⟨hname, hknown⟩ := List.forall_mem_cons.mp hknown
      obtain ⟨hunseen, hnew⟩ := List.forall_mem_cons.mp hnew
      obtain ⟨hdistinct, hnodup⟩ := List.nodup_cons.mp hnodup
      have hnew' : ∀ field ∈ fields, field.1 ∉ name :: seen := by
        intro field hfield hmem
        rcases List.mem_cons.mp hmem with heq | hmem
        · exact hdistinct (List.mem_map.mpr ⟨field, hfield, heq⟩)
        · exact hnew field hfield hmem
      obtain ⟨seen', hrest⟩ := ih (name :: seen) hknown hnew' hnodup
      refine ⟨seen', ?_⟩
      have hcheck : checkSeen m seen name = .ok () := by
        rw [checkSeen, if_neg (by simp [hunseen])]
      show (do
        checkSeen m seen name
        if m.names.contains name then
          let record ← m.assign name value.outline record
          Decoder.readMembers m (name :: seen) (Value.memberOutlines fields) record
        else
          value.outline.skip
          Decoder.readMembers m seen (Value.memberOutlines fields) record) = _
      rw [hcheck, if_pos (List.contains_iff_mem.mpr hname), assign, reads, ifFits_map]
      refine (ifFits_bind hrest).trans (ifFits_congr ?_ _)
      rw [List.forall_mem_cons]

/-- A record is read back from an object with all its members, in their order. -/
theorem record_reads_succ {members : Nat → Members σ} {levels : Nat}
    {fields : List (String × Value)} {start last : σ}
    (h : Fills (members levels) levels fields start last)
    (hnames : fields.map (·.1) = (members levels).names) (hnodup : (members levels).names.Nodup) :
    (record members start).Reads (levels + 1) (.object fields) last := by
  have hknown : ∀ field ∈ fields, field.1 ∈ (members levels).names := fun field hfield =>
    hnames ▸ List.mem_map_of_mem hfield
  obtain ⟨seen, hread⟩ := h.readMembers [] hknown (fun _ _ => List.not_mem_nil)
    (hnames ▸ hnodup)
  rw [Reads, Value.outline, record, hread]
  have hfits : (∀ field ∈ fields, field.2.nesting ≤ levels) ↔
      (Value.object fields).nesting ≤ levels + 1 := Value.nesting_object_le.symm
  rw [ifFits_congr hfits]
  exact ifFits_then rfl

/-- A record is read back with any number of levels left, if its members are. -/
theorem record_reads {members : Nat → Members σ} {fields : List (String × Value)} {start last : σ}
    (h : ∀ levels, Fills (members levels) levels fields start last)
    (hnames : ∀ levels, fields.map (·.1) = (members levels).names)
    (hnodup : (members 0).names.Nodup) (levels : Nat) :
    (record members start).Reads levels (.object fields) last := by
  cases levels with
  | zero => exact not_reads_zero rfl
  | succ levels =>
      have hsame : (members 0).names = (members levels).names :=
        (hnames 0).symm.trans (hnames levels)
      exact record_reads_succ (h levels) (hnames levels) (hsame ▸ hnodup)

end Decoder

end TemplateScan.Json
