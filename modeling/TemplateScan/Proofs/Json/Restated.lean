import Mathlib.Data.List.Forall2
import Mathlib.Data.List.Nodup
import Mathlib.Data.List.Perm.Basic
import TemplateScan.Proofs.Json.Decoders

/-! # Restatements — other values from which the same is read

    A value can be stated in other ways that mean the same to its reader: the members of every
    object in another order, and where an object is a record, members left out whose values are the
    defaults, and members added that the record does not know.  Which objects are records is said by
    a `Form`, and `Restates` relates a value of that form to all that may stand in its place.

    * **`Restates`** — what may stand in place of a value.
    * **`Decoder.Takes`** — a decoder reads the same from all of them.
    * **`list_takes`**, **`table_takes`**, **`record_takes`** — this is kept by every way of putting
      decoders together. -/

namespace TemplateScan

namespace Json

-- ── whole values ─────────────────────────────────────────────────────────────────

/-- A value in which nothing is broken. -/
inductive Outline.Whole : Outline → Prop where
  | null : Whole .null
  | bool (value : Bool) : Whole (.bool value)
  | number (inRange : Bool) : Whole (.number inRange)
  | string (text : Option String) : Whole (.string text)
  | array {items : List Outline} (each : ∀ item ∈ items, Whole item) :
      Whole (.array items .closed)
  | object {members : List (Key × Outline)} (each : ∀ m ∈ members, Whole m.2) :
      Whole (.object members .closed)

/-- Whatever is whole can be passed over. -/
theorem Outline.Whole.skip {value : Outline} (h : value.Whole) : value.skip = .ok () := by
  induction h with
  | null | bool | number | string => rw [Outline.skip] <;> nofun
  | @array items each ih =>
      have hitems : Outline.skipItems items = .ok () := by
        induction items with
        | nil => rw [Outline.skipItems]
        | cons item items ihs =>
            rw [Outline.skipItems, ih item List.mem_cons_self]
            exact ihs (fun i hi => each i (List.mem_cons_of_mem _ hi)) fun i hi =>
              ih i (List.mem_cons_of_mem _ hi)
      rw [Outline.skip, hitems]
      rfl
  | @object members each ih =>
      have hmembers : Outline.skipMembers members = .ok () := by
        induction members with
        | nil => rw [Outline.skipMembers]
        | cons m members ihs =>
            rw [Outline.skipMembers, ih m List.mem_cons_self]
            exact ihs (fun n hn => each n (List.mem_cons_of_mem _ hn)) fun n hn =>
              ih n (List.mem_cons_of_mem _ hn)
      rw [Outline.skip, hmembers]
      rfl

-- ── restatements ─────────────────────────────────────────────────────────────────

/-- Which of the objects inside a value are records, and of which kind. -/
inductive Form (κ : Type) where
  /-- None, and none of the objects are tables. -/
  | plain
  /-- An array of values of one form. -/
  | list (item : Form κ)
  /-- An object with keys of any names, and values of one form. -/
  | table (entry : Form κ)
  | record (kind : κ)

/-- A member of a record; one without a default may not be left out. -/
structure RecordField (κ : Type) where
  name : String
  form : Form κ
  default? : Option Value := none

variable {κ : Type} {fields : κ → List (RecordField κ)}

/-- The names of the members of a record. -/
def fieldNames (fields : κ → List (RecordField κ)) (kind : κ) : List String :=
  (fields kind).map (·.name)

/-- The members that may be left out of a record. -/
def defaults (fields : κ → List (RecordField κ)) (kind : κ) : List (String × Value) :=
  (fields kind).filterMap fun field => field.default?.map (field.name, ·)

/-- Members with their names, as members of an outline. -/
def withKeys (named : List (String × Outline)) : List (Key × Outline) :=
  named.map fun member => (some member.1, member.2)

/-- What may stand in place of a value of the given form: the members of an object in any order, and
    of a record only those members `kept` that are not left out, together with others that are
    `unknown` to it. -/
inductive Restates (fields : κ → List (RecordField κ)) : Form κ → Value → Outline → Prop where
  | same (form : Form κ) (value : Value) : Restates fields form value value.outline
  | list {item : Form κ} (items : List (Value × Outline))
      (each : ∀ i ∈ items, Restates fields item i.1 i.2) :
      Restates fields (.list item) (.array (items.map (·.1))) (.array (items.map (·.2)) .closed)
  | table {entry : Form κ} {named : List (String × Outline)}
      (members : List (String × Value × Outline))
      (each : ∀ m ∈ members, Restates fields entry m.2.1 m.2.2)
      (order : named.Perm (members.map fun m => (m.1, m.2.2))) :
      Restates fields (.table entry) (.object (members.map fun m => (m.1, m.2.1)))
        (.object (withKeys named) .closed)
  | record {kind : κ} {written : List (String × Value)} {named : List (String × Outline)}
      (kept : List (RecordField κ × Value × Outline)) (omitted : List (String × Value))
      (unknown : List (String × Outline))
      (known : ∀ k ∈ kept, k.1 ∈ fields kind)
      (each : ∀ k ∈ kept, Restates fields k.1.form k.2.1 k.2.2)
      (default : ∀ o ∈ omitted, o ∈ defaults fields kind)
      (whole : ∀ u ∈ unknown, u.1 ∉ fieldNames fields kind ∧ u.2.Whole)
      (all : written.Perm (kept.map (fun k => (k.1.name, k.2.1)) ++ omitted))
      (order : named.Perm (kept.map (fun k => (k.1.name, k.2.2)) ++ unknown)) :
      Restates fields (.record kind) (.object written) (.object (withKeys named) .closed)

/-- Nothing else may stand in place of a value in which no object is a table or a record. -/
theorem Restates.eq_of_plain {value : Value} {outline : Outline}
    (h : Restates fields .plain value outline) : outline = value.outline := by
  cases h with
  | same => rfl

theorem Restates.exists_items {item : Form κ} {values : List Value} {outline : Outline}
    (h : Restates fields (.list item) (.array values) outline) :
    ∃ outlines, outline = .array outlines .closed ∧
      List.Forall₂ (Restates fields item) values outlines := by
  cases h with
  | same =>
      refine ⟨values.map Value.outline, ?_, ?_⟩
      · rw [Value.outline, Value.itemOutlines_eq]
      · exact List.forall₂_map_right_iff.mpr (List.forall₂_same.mpr fun v _ => .same item v)
  | list items each =>
      refine ⟨_, rfl, ?_⟩
      exact List.forall₂_map_left_iff.mpr (List.forall₂_map_right_iff.mpr
        (List.forall₂_same.mpr each))

theorem Restates.exists_entries {entry : Form κ} {members : List (String × Value)}
    {outline : Outline} (h : Restates fields (.table entry) (.object members) outline) :
    ∃ named ordered, outline = .object (withKeys named) .closed ∧ named.Perm ordered ∧
      List.Forall₂ (fun m n => m.1 = n.1 ∧ Restates fields entry m.2 n.2) members ordered := by
  cases h with
  | same =>
      refine ⟨members.map fun m => (m.1, m.2.outline), _, ?_, .refl _, ?_⟩
      · rw [Value.outline, Value.memberOutlines_eq, withKeys, List.map_map]
        rfl
      · exact List.forall₂_map_right_iff.mpr
          (List.forall₂_same.mpr fun m _ => ⟨rfl, .same entry m.2⟩)
  | @table _ named members each order =>
      refine ⟨named, _, rfl, order, ?_⟩
      exact List.forall₂_map_left_iff.mpr (List.forall₂_map_right_iff.mpr
        (List.forall₂_same.mpr fun m hm => ⟨rfl, each m hm⟩))

-- ── decoders ─────────────────────────────────────────────────────────────────────

namespace Decoder

variable {α σ : Type}

/-- Whatever stands in place of the value is read as `a`, if the value is not nested too deep. -/
def Takes (fields : κ → List (RecordField κ)) (decoder : Decoder α) (levels : Nat) (form : Form κ)
    (value : Value) (a : α) : Prop :=
  value.nesting ≤ levels → ∀ outline, Restates fields form value outline →
    decoder levels outline = .ok a

/-- What is read back is taken. -/
theorem Reads.takes {decoder : Decoder α} {levels : Nat} {value : Value} {a : α}
    (h : decoder.Reads levels value a) : decoder.Takes fields levels .plain value a := by
  intro hfits outline hrestates
  rw [hrestates.eq_of_plain, h, ifFits_of hfits]

theorem mapM_eq_ok {value : Outline → Decoded α} {outlines : List Outline} {as : List α}
    (h : List.Forall₂ (fun outline a => value outline = .ok a) outlines as) :
    outlines.mapM value = .ok as := by
  induction h with
  | nil => rfl
  | cons hvalue _ ih =>
      rw [List.mapM_cons, hvalue, ih]
      rfl

theorem entries_eq_ok {value : Outline → Decoded α} {named : List (String × Outline)}
    {es : List (String × α)}
    (h : List.Forall₂ (fun n e => n.1 = e.1 ∧ value n.2 = .ok e.2) named es) :
    entries value (withKeys named) = .ok es := by
  induction h with
  | nil => rfl
  | @cons n e named es hvalue _ ih =>
      obtain ⟨name, outline⟩ := n
      obtain ⟨rfl, hvalue⟩ := hvalue
      show (do
        let a ← value outline
        let rest ← entries value (withKeys named)
        pure ((e.1, a) :: rest)) = _
      rw [hvalue, ih]
      rfl

/-- A list is taken if its items are. -/
theorem list_takes {decoder : Decoder α} {item : Form κ} {toValue : α → Value} {as : List α}
    (h : ∀ levels, ∀ a ∈ as, decoder.Takes fields levels item (toValue a) a) (levels : Nat) :
    (list decoder).Takes fields levels (.list item) (.array (as.map toValue)) as := by
  intro hfits outline hrestates
  cases levels with
  | zero => exact absurd hfits (by simp [Value.nesting])
  | succ levels =>
      rw [Value.nesting_array_le, List.forall_mem_map] at hfits
      obtain ⟨outlines, rfl, hitems⟩ := hrestates.exists_items
      have hread : List.Forall₂ (fun outline a => decoder levels outline = .ok a) outlines as := by
        rw [List.forall₂_map_left_iff] at hitems
        have htakes := (List.forall₂_and_left as outlines).mpr
          ⟨fun a ha => And.intro (h levels a ha) (hfits a ha), hitems⟩
        exact (htakes.imp fun a outline h => h.1.1 h.1.2 outline h.2).flip
      show (do
        let values ← outlines.mapM (decoder levels)
        ArrayEnding.closed.check
        pure values) = _
      rw [mapM_eq_ok hread]
      rfl

/-- A table is taken, in whatever order, if its entries are. -/
theorem table_takes {decoder : Decoder α} {entry : Form κ} (toValue : α → Value) {levels : Nat}
    {t : Table α}
    (h : ∀ e ∈ t.entries, decoder.Takes fields levels entry (toValue e.2) e.2) :
    (table decoder).Takes fields (levels + 1) (.table entry)
      (.object (t.entries.map fun e => (e.1, toValue e.2))) t := by
  intro hfits outline hrestates
  rw [Value.nesting_object_le, List.forall_mem_map] at hfits
  obtain ⟨named, ordered, rfl, hperm, hentries⟩ := hrestates.exists_entries
  have hread : List.Forall₂ (fun n e => n.1 = e.1 ∧ decoder levels n.2 = .ok e.2) ordered
      t.entries := by
    rw [List.forall₂_map_left_iff] at hentries
    have htakes := (List.forall₂_and_left t.entries ordered).mpr
      ⟨fun e he => And.intro (h e he) (hfits e he), hentries⟩
    exact (htakes.imp fun e n h => ⟨h.2.1.symm, h.1.1 h.1.2 n.2 h.2.2⟩).flip
  obtain ⟨es, hes, hsame⟩ := List.perm_comp_forall₂ hperm hread
  show (do
    let entries ← entries (decoder levels) (withKeys named)
    ObjectEnding.closed.checkKept fun _ => .ok ()
    pure (Table.ofList entries)) = _
  rw [entries_eq_ok hes, ← Table.ofList_of_perm hsame]
  rfl

-- ── records ──────────────────────────────────────────────────────────────────────

/-- Members in any order are put into a record one by one, and unknown ones passed over. -/
theorem readMembers_eq_ok {m : Members σ} {put : String → σ → σ} {named : List (String × Outline)}
    (known : ∀ n ∈ named, n.1 ∈ m.names → ∀ r, m.assign n.1 n.2 r = .ok (put n.1 r))
    (unknown : ∀ n ∈ named, n.1 ∉ m.names → n.2.skip = .ok ()) (seen : List String)
    (nodup : ((named.map (·.1)).filter (· ∈ m.names)).Nodup)
    (unseen : ∀ name ∈ (named.map (·.1)).filter (· ∈ m.names), name ∉ seen) (r : σ) :
    ∃ seen', readMembers m seen (withKeys named) r =
      .ok (seen', ((named.map (·.1)).filter (· ∈ m.names)).foldl (fun r name => put name r) r) := by
  induction named generalizing seen r with
  | nil => exact ⟨seen, rfl⟩
  | cons n named ih =>
      obtain ⟨name, outline⟩ := n
      obtain ⟨hknown, known⟩ := List.forall_mem_cons.mp known
      obtain ⟨hunknown, unknown⟩ := List.forall_mem_cons.mp unknown
      show ∃ seen', (do
        checkSeen m seen name
        if m.names.contains name then
          let record ← m.assign name outline r
          Decoder.readMembers m (name :: seen) (withKeys named) record
        else
          outline.skip
          Decoder.readMembers m seen (withKeys named) r) = _
      by_cases hname : name ∈ m.names
      · rw [List.map_cons, List.filter_cons_of_pos (by simpa using hname)] at nodup unseen ⊢
        obtain ⟨hdistinct, nodup⟩ := List.nodup_cons.mp nodup
        obtain ⟨hunseen, unseen⟩ := List.forall_mem_cons.mp unseen
        have hcheck : checkSeen m seen name = .ok () := by
          rw [checkSeen, if_neg (by simp [hunseen])]
        obtain ⟨seen', hread⟩ := ih known unknown (name :: seen) nodup (fun other hother hmem => by
          rcases List.mem_cons.mp hmem with rfl | hmem
          · exact hdistinct hother
          · exact unseen other hother hmem) (put name r)
        refine ⟨seen', ?_⟩
        rw [hcheck, if_pos (List.contains_iff_mem.mpr hname), hknown hname]
        exact hread
      · rw [List.map_cons, List.filter_cons_of_neg (by simpa using hname)] at nodup unseen ⊢
        have hcheck : checkSeen m seen name = .ok () := by
          rw [checkSeen, if_neg (by simp [hname])]
        obtain ⟨seen', hread⟩ := ih known unknown seen nodup unseen r
        refine ⟨seen', ?_⟩
        rw [hcheck, if_neg (by simpa using hname), hunknown hname]
        exact hread

/-- Whatever stands in place of a member is put into the record as `put` says. -/
def FieldTakes (fields : κ → List (RecordField κ)) (m : Members σ) (levels : Nat)
    (put : String → σ → σ) (field : RecordField κ) (member : String × Value) : Prop :=
  member.1 = field.name ∧ ∀ r,
    Takes fields (fun _ outline => m.assign field.name outline r) levels field.form member.2
      (put field.name r)

/-- How a record is put together from its members: each member is put in by itself, it does not
    matter in which order, and those at their defaults change nothing in the empty record. -/
structure Assembles (fields : κ → List (RecordField κ)) (kind : κ) (m : Members σ) (levels : Nat)
    (put : String → σ → σ) (start : σ) (written : List (String × Value)) (last : σ) : Prop where
  names : m.names = fieldNames fields kind
  nodup : (fieldNames fields kind).Nodup
  takes : List.Forall₂ (FieldTakes fields m levels put) (fields kind) written
  comm : ∀ name other r, put name (put other r) = put other (put name r)
  default : ∀ d ∈ defaults fields kind, d.2.nesting ≤ levels →
    m.assign d.1 d.2.outline start = .ok start
  all : (fieldNames fields kind).foldl (fun r name => put name r) start = last

namespace Assembles

variable {kind : κ} {m : Members σ} {levels : Nat} {put : String → σ → σ} {start last : σ}
  {written : List (String × Value)}

theorem map_written (h : Assembles fields kind m levels put start written last) :
    written.map (·.1) = fieldNames fields kind := by
  have htakes := h.takes
  rw [fieldNames]
  clear h
  generalize fields kind = row at htakes
  induction htakes with
  | nil => rfl
  | cons hfield _ ih => rw [List.map_cons, List.map_cons, hfield.1, ih]

/-- A member that is written is taken in the form of its field. -/
theorem takes_member (h : Assembles fields kind m levels put start written last)
    {field : RecordField κ} {value : Value} (hfield : field ∈ fields kind)
    (hmem : (field.name, value) ∈ written) (r : σ) :
    Takes fields (fun _ outline => m.assign field.name outline r) levels field.form value
      (put field.name r) := by
  obtain ⟨other, hother, hname, htakes⟩ : ∃ other ∈ fields kind,
      FieldTakes fields m levels put other (field.name, value) := by
    have htakes := h.takes
    clear h hfield
    generalize fields kind = row at htakes
    induction htakes with
    | nil => cases hmem
    | @cons first _ rest _ hfirst _ ih =>
        rcases List.mem_cons.mp hmem with rfl | hmem
        · exact ⟨first, List.mem_cons_self, hfirst⟩
        · obtain ⟨other, hother, htakes⟩ := ih hmem
          exact ⟨other, List.mem_cons_of_mem _ hother, htakes⟩
  obtain rfl : other = field := List.inj_on_of_nodup_map h.nodup hother hfield hname.symm
  exact htakes r

/-- A member that may be left out changes nothing in the empty record. -/
theorem put_default (h : Assembles fields kind m levels put start written last)
    {member : String × Value} (hdefault : member ∈ defaults fields kind)
    (hmem : member ∈ written) (hfits : member.2.nesting ≤ levels) :
    put member.1 start = start := by
  obtain ⟨field, hfield, hsome⟩ := List.mem_filterMap.mp hdefault
  obtain ⟨value, -, rfl⟩ := Option.map_eq_some_iff.mp hsome
  have htakes := h.takes_member hfield hmem start hfits _ (.same field.form value)
  have hassign : m.assign field.name value.outline start = .ok (put field.name start) := htakes
  rw [h.default _ hdefault hfits] at hassign
  exact (Except.ok.inj hassign).symm

/-- Members that may be left out change nothing, however many there are. -/
theorem foldl_defaults (h : Assembles fields kind m levels put start written last)
    {omitted : List (String × Value)} (hdefault : ∀ o ∈ omitted, o ∈ defaults fields kind)
    (hmem : ∀ o ∈ omitted, o ∈ written) (hfits : ∀ o ∈ written, o.2.nesting ≤ levels) :
    (omitted.map (·.1)).foldl (fun r name => put name r) start = start := by
  induction omitted with
  | nil => rfl
  | cons o omitted ih =>
      obtain ⟨hd, hdefault⟩ := List.forall_mem_cons.mp hdefault
      obtain ⟨ho, hmem⟩ := List.forall_mem_cons.mp hmem
      rw [List.map_cons, List.foldl_cons, h.put_default hd ho (hfits o ho)]
      exact ih hdefault hmem

/-- The members that are not left out make up the record, in whatever order. -/
theorem foldl_kept (h : Assembles fields kind m levels put start written last)
    {omitted : List (String × Value)} {kept : List String}
    (hdefault : ∀ o ∈ omitted, o ∈ defaults fields kind) (hmem : ∀ o ∈ omitted, o ∈ written)
    (hfits : ∀ o ∈ written, o.2.nesting ≤ levels)
    (hnames : (fieldNames fields kind).Perm (omitted.map (·.1) ++ kept)) :
    kept.foldl (fun r name => put name r) start = last := by
  have hall : (fieldNames fields kind).foldl (fun r name => put name r) start =
      (omitted.map (·.1) ++ kept).foldl (fun r name => put name r) start :=
    hnames.foldl_eq' (fun name _ other _ r => h.comm other name r) start
  rw [List.foldl_append, h.foldl_defaults hdefault hmem hfits] at hall
  exact hall.symm.trans h.all

/-- The members of a record as they are written, each with its field. -/
theorem exists_kept (h : Assembles fields kind m levels put start written last) :
    ∃ kept : List (RecordField κ × Value × Outline), (∀ k ∈ kept, k.1 ∈ fields kind) ∧
      (∀ k ∈ kept, k.2.2 = k.2.1.outline) ∧ written = kept.map fun k => (k.1.name, k.2.1) := by
  have htakes := h.takes
  clear h
  generalize fields kind = row at htakes
  induction htakes with
  | nil => exact ⟨[], List.forall_mem_nil _, List.forall_mem_nil _, rfl⟩
  | @cons field member row written hfield _ ih =>
      obtain ⟨name, value⟩ := member
      obtain rfl : name = field.name := hfield.1
      obtain ⟨kept, hknown, houtline, rfl⟩ := ih
      refine ⟨(field, value, value.outline) :: kept, ?_, ?_, rfl⟩
      · exact List.forall_mem_cons.mpr ⟨List.mem_cons_self, fun k hk =>
          List.mem_cons_of_mem _ (hknown k hk)⟩
      · exact List.forall_mem_cons.mpr ⟨rfl, houtline⟩

variable {named : List (String × Outline)} {kept : List (RecordField κ × Value × Outline)}
  {omitted : List (String × Value)} {unknown : List (String × Outline)}

/-- The names of the members that are given and known are those of the members kept. -/
theorem filter_names (h : Assembles fields kind m levels put start written last)
    (known : ∀ k ∈ kept, k.1 ∈ fields kind) (whole : ∀ u ∈ unknown, u.1 ∉ fieldNames fields kind)
    (order : named.Perm (kept.map (fun k => (k.1.name, k.2.2)) ++ unknown)) :
    ((named.map (·.1)).filter (· ∈ m.names)).Perm (kept.map (·.1.name)) := by
  have hknown : (kept.map (·.1.name)).filter (· ∈ m.names) = kept.map (·.1.name) := by
    refine List.filter_eq_self.mpr (List.forall_mem_map.mpr fun k hk => ?_)
    rw [h.names, decide_eq_true_eq]
    exact List.mem_map_of_mem (known k hk)
  have hunknown : (unknown.map (·.1)).filter (· ∈ m.names) = [] := by
    refine List.filter_eq_nil_iff.mpr (List.forall_mem_map.mpr fun u hu => ?_)
    rw [h.names, decide_eq_true_eq]
    exact whole u hu
  have hperm := (order.map (·.1)).filter (· ∈ m.names)
  rw [List.map_append, List.filter_append, List.map_map, hunknown, List.append_nil] at hperm
  exact hperm.trans (.of_eq hknown)

/-- Whatever stands in place of the members of a record is read as that record. -/
theorem readMembers (h : Assembles fields kind m levels put start written last)
    (hfits : ∀ member ∈ written, member.2.nesting ≤ levels)
    (known : ∀ k ∈ kept, k.1 ∈ fields kind)
    (each : ∀ k ∈ kept, Restates fields k.1.form k.2.1 k.2.2)
    (default : ∀ o ∈ omitted, o ∈ defaults fields kind)
    (whole : ∀ u ∈ unknown, u.1 ∉ fieldNames fields kind ∧ u.2.Whole)
    (all : written.Perm (kept.map (fun k => (k.1.name, k.2.1)) ++ omitted))
    (order : named.Perm (kept.map (fun k => (k.1.name, k.2.2)) ++ unknown)) :
    ∃ seen, Decoder.readMembers m [] (withKeys named) start = .ok (seen, last) := by
  have hmem : ∀ k ∈ kept, (k.1.name, k.2.1) ∈ written := fun k hk =>
    all.mem_iff.mpr (List.mem_append_left _ (List.mem_map.mpr ⟨k, hk, rfl⟩))
  have hnamed : ∀ n ∈ named, (∃ k ∈ kept, n = (k.1.name, k.2.2)) ∨ n ∈ unknown := by
    intro n hn
    rcases List.mem_append.mp (order.mem_iff.mp hn) with hn | hn
    · obtain ⟨k, hk, rfl⟩ := List.mem_map.mp hn
      exact Or.inl ⟨k, hk, rfl⟩
    · exact Or.inr hn
  have hput : ∀ n ∈ named, n.1 ∈ m.names → ∀ r, m.assign n.1 n.2 r = .ok (put n.1 r) := by
    intro n hn hname r
    rcases hnamed n hn with ⟨k, hk, rfl⟩ | hn
    · exact h.takes_member (known k hk) (hmem k hk) r (hfits _ (hmem k hk)) _ (each k hk)
    · exact absurd (h.names ▸ hname) (whole n hn).1
  have hskip : ∀ n ∈ named, n.1 ∉ m.names → n.2.skip = .ok () := by
    intro n hn hname
    rcases hnamed n hn with ⟨k, hk, rfl⟩ | hn
    · exact absurd (h.names ▸ List.mem_map_of_mem (known k hk)) hname
    · exact (whole n hn).2.skip
  have hnames : (fieldNames fields kind).Perm (omitted.map (·.1) ++ kept.map (·.1.name)) := by
    have hall := all.map (·.1)
    rw [h.map_written, List.map_append, List.map_map] at hall
    exact hall.trans List.perm_append_comm
  have hkept := h.filter_names known (fun u hu => (whole u hu).1) order
  have hnodup : (kept.map (·.1.name)).Nodup :=
    (List.nodup_append.mp (hnames.nodup_iff.mp h.nodup)).2.1
  obtain ⟨seen, hread⟩ := readMembers_eq_ok hput hskip [] (hkept.nodup_iff.mpr hnodup)
    (fun _ _ => List.not_mem_nil) start
  rw [hkept.foldl_eq' (fun name _ other _ r => h.comm other name r) start,
    h.foldl_kept default (fun o ho => all.mem_iff.mpr (List.mem_append_right _ ho)) hfits
      hnames] at hread
  exact ⟨seen, hread⟩

end Assembles

/-- **A record is taken if it is put together from its members,** in whatever order they come, with
    members at their defaults left out and unknown members passed over. -/
theorem record_takes_succ {kind : κ} {members : Nat → Members σ} {levels : Nat}
    {start last : σ} {written : List (String × Value)} (put : String → σ → σ)
    (h : Assembles fields kind (members levels) levels put start written last) :
    (record members start).Takes fields (levels + 1) (.record kind) (.object written) last := by
  intro hfits outline hrestates
  rw [Value.nesting_object_le] at hfits
  obtain ⟨named, seen, rfl, hread⟩ : ∃ named seen, outline = .object (withKeys named) .closed ∧
      readMembers (members levels) [] (withKeys named) start = .ok (seen, last) := by
    cases hrestates with
    | same =>
        obtain ⟨kept, known, houtline, rfl⟩ := h.exists_kept
        obtain ⟨seen, hread⟩ := h.readMembers hfits known
          (fun k hk => houtline k hk ▸ .same k.1.form k.2.1) (List.forall_mem_nil _)
          (List.forall_mem_nil _) (.of_eq (List.append_nil _).symm)
          (.of_eq (List.append_nil _).symm)
        refine ⟨_, seen, ?_, hread⟩
        rw [Value.outline, Value.memberOutlines_eq, withKeys, List.map_map, List.map_map]
        congr 1
        exact List.map_congr_left fun k hk => by simp [houtline k hk]
    | @record _ _ named kept omitted unknown known each default whole all order =>
        obtain ⟨seen, hread⟩ := h.readMembers hfits known each default whole all order
        exact ⟨named, seen, rfl, hread⟩
  rw [record, hread]
  rfl

/-- A record is taken with any number of levels left, if its members are. -/
theorem record_takes {kind : κ} {members : Nat → Members σ} {start last : σ}
    {written : List (String × Value)} (put : String → σ → σ)
    (h : ∀ levels, Assembles fields kind (members levels) levels put start written last)
    (levels : Nat) :
    (record members start).Takes fields levels (.record kind) (.object written) last := by
  cases levels with
  | zero =>
      intro hfits
      exact absurd hfits (by simp [Value.nesting])
  | succ levels => exact record_takes_succ put (h levels)

end Decoder

end Json

end TemplateScan
