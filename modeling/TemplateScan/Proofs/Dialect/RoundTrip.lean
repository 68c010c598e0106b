import TemplateScan.Dialect.Loading
import TemplateScan.Dialect.Writing
import TemplateScan.Proofs.Json.Decoders

/-! # Round trips — a dialect that is written is read back

    A dialect is written with all its records in full, so each of them is read back by its decoder,
    from the options of a rule up to the tables of a dialect; a schema is read back level by level.
    What can keep a written dialect from being loaded is its nesting alone, and a placement rule that
    names no tag.

    * **`schema_reads`** — schemas of any depth.
    * **`FirstStray`** — the parent that is reported.
    * **`message?_eq_some_iff`** — only a stray parent is reported with a message.
    * **`load_write`** — what loading a written dialect answers, for every dialect. -/

namespace TemplateScan

open Json Json.Decoder

namespace Dialect

-- ── rules ────────────────────────────────────────────────────────────────────────

/-- A description is read back, or is left out. -/
theorem description_reads (levels : Nat) (description : Option String) :
    (option text).Reads levels (.ofText? description) description := by
  have h : (option text).Reads levels (.ofText? (description.map id)) description :=
    option_reads (text_reads levels) description
  rwa [Option.map_id] at h

/-- A parameter of a tag is read back. -/
theorem parameter_reads (levels : Nat) (p : TagParameter) :
    parameter.Reads levels p.toValue p := by
  have hdraft : (record parameterMembers {}).Reads levels p.toValue
      ⟨some p.name, p.takesValue⟩ := by
    refine record_reads (fun levels => ?_) (fun _ => rfl) (by decide) levels
    exact
      .cons (fun draft name => { draft with name := some name }) (text_reads levels _) rfl <|
      .cons (fun draft takesValue => { draft with takesValue }) (bool_reads levels _) rfl <|
      .nil _
  show (record parameterMembers {} levels p.toValue.outline >>= _) = _
  rw [hdraft]
  exact ifFits_then rfl

/-- The rule of a tag is read back, with all its options. -/
theorem tagRule_reads (levels : Nat) (t : TagRule) : tagRule.Reads levels t.toValue t := by
  refine record_reads (fun levels => ?_) (fun _ => rfl) (by decide) levels
  exact
    .cons (fun t kind => { t with kind })
      (variant_reads (TagKind.ofName?_name t.kind) levels) rfl <|
    .cons (fun t block => { t with block }) (bool_reads levels t.block) rfl <|
    .cons (fun t singular => { t with singular }) (bool_reads levels t.singular) rfl <|
    .cons (fun t arguments => { t with arguments }) (bool_reads levels t.arguments) rfl <|
    .cons (fun t parents => { t with parents }) (list_reads text_reads levels t.parents) rfl <|
    .cons (fun t parameters => { t with parameters })
      (list_reads parameter_reads levels t.parameters) rfl <|
    .cons (fun t language => { t with language })
      (option_reads (fun l => variant_reads (Language.ofName?_name l) levels) t.language) rfl <|
    .cons (fun t description => { t with description })
      (description_reads levels t.description) rfl <|
    .nil _

/-- The types that an argument accepts are read back in order. -/
theorem accepted_reads (levels : Nat) (types : List ValueType) :
    (list (variant ValueType.ofName?)).Reads levels (.ofTexts (types.map (·.name))) types := by
  rw [Value.ofTexts, List.map_map]
  exact list_reads (fun levels t => variant_reads (ValueType.ofName?_name t) levels) levels types

/-- The rule of an argument is read back. -/
theorem argumentRule_reads (levels : Nat) (a : ArgumentRule) :
    argumentRule.Reads levels a.toValue a := by
  refine record_reads (fun levels => ?_) (fun _ => rfl) (by decide) levels
  exact
    .cons (fun a kind => { a with kind })
      (variant_reads (ArgumentKind.ofName?_name a.kind) levels) rfl <|
    .cons (fun a accepted => { a with accepted }) (accepted_reads levels a.accepted) rfl <|
    .cons (fun a required => { a with required }) (bool_reads levels a.required) rfl <|
    .nil _

/-- The rule of a filter is read back. -/
theorem filterRule_reads (levels : Nat) (f : FilterRule) : filterRule.Reads levels f.toValue f := by
  refine record_reads (fun levels => ?_) (fun _ => rfl) (by decide) levels
  exact
    .cons (fun f arguments => { f with arguments })
      (list_reads argumentRule_reads levels f.arguments) rfl <|
    .cons (fun f description => { f with description })
      (description_reads levels f.description) rfl <|
    .nil _

-- ── schemas ──────────────────────────────────────────────────────────────────────

/-- Properties are written one by one. -/
theorem propertyValues_eq (properties : List (String × Shape)) :
    Shape.propertyValues properties = properties.map fun p => (p.1, p.2.toValue) := by
  induction properties with
  | nil => rfl
  | cons property properties ih =>
      obtain ⟨name, shape⟩ := property
      rw [Shape.propertyValues, ih, List.map_cons]

/-- Properties in order, each of them in order, make up a table. -/
theorem exists_table {properties : List (String × Shape)} (h : Entries.Ascending properties)
    (each : ∀ property ∈ properties, property.2.Ordered) :
    ∃ t : Table Schema, t.entries.map (fun e => (e.1, e.2.shape)) = properties := by
  have hshapes : (properties.attach.map fun p => (p.1.1, (⟨p.1.2, each p.1 p.2⟩ : Schema))).map
      (fun e => (e.1, e.2.shape)) = properties := by
    rw [List.map_map]
    exact List.attach_map_subtype_val properties
  refine ⟨⟨_, ?_⟩, hshapes⟩
  rw [Entries.Ascending, ← hshapes, List.pairwise_map] at h
  exact h

/-- How the properties of a schema are read for which the given number of levels is left. -/
def propertiesAt : (levels : Nat) → Decoder (Table Schema)
  | levels + 2 => table fun _ property => schema levels property
  | _ => table fun _ _ => .error .malformed

/-- A schema is read like any other record, one level further in. -/
theorem schema_eq (levels : Nat) (outline : Outline) :
    schema levels outline =
      (record (schemaMembers (propertiesAt levels)) {} levels outline).map (·.schema) := by
  cases levels with
  | zero => rfl
  | succ levels => cases levels <;> rfl

/-- The properties of a schema are read back if their schemas are. -/
theorem properties_reads {t : Table Schema}
    (h : ∀ e ∈ t.entries, ∀ levels, schema.Reads levels e.2.shape.toValue e.2) (levels : Nat) :
    (propertiesAt (levels + 1)).Reads levels
      (.object (t.entries.map fun e => (e.1, e.2.shape.toValue))) t := by
  cases levels with
  | zero => exact not_reads_zero rfl
  | succ levels =>
      have hread : ∀ e ∈ t.entries, Reads (fun _ property => schema levels property) levels
          e.2.shape.toValue e.2 := fun e he => h e he levels
      exact table_reads (fun s : Schema => s.shape.toValue) hread

/-- A schema is read back if its properties are. -/
theorem schema_reads_of_properties {levels : Nat} {value : Value}
    {properties? : Option (Table Schema)} (description : Option String)
    (h : ∀ levels, (option (propertiesAt (levels + 1))).Reads levels value properties?) :
    schema.Reads levels (.object [("properties", value), ("description", .ofText? description)])
      (SchemaDraft.schema ⟨properties?, description⟩) := by
  cases levels with
  | zero => exact not_reads_zero rfl
  | succ levels =>
      have hdraft : (record (schemaMembers (propertiesAt (levels + 1))) {}).Reads (levels + 1)
          (.object [("properties", value), ("description", .ofText? description)])
          ⟨properties?, description⟩ := by
        refine record_reads_succ ?_ rfl (show ["properties", "description"].Nodup by decide)
        exact
          .cons (fun draft properties => { draft with properties }) (h levels) rfl <|
          .cons (fun draft description => { draft with description })
            (description_reads levels description) rfl <|
          .nil _
      rw [Reads, schema_eq, hdraft, ifFits_map]

/-- A schema is read back if it fits, whatever the depth of its properties. -/
theorem schema_reads (levels : Nat) (s : Schema) : schema.Reads levels s.shape.toValue s := by
  obtain ⟨shape, ordered⟩ := s
  induction ordered generalizing levels with
  | unchecked description =>
      rw [Shape.toValue]
      have hnone : ∀ levels, (option (propertiesAt (levels + 1))).Reads levels .null none :=
        fun levels => (ifFits_of (Nat.zero_le levels) none).symm
      exact schema_reads_of_properties description hnone
  | @checked properties description ascending each ih =>
      obtain ⟨t, rfl⟩ := exists_table ascending each
      have ht : ∀ e ∈ t.entries, ∀ levels, schema.Reads levels e.2.shape.toValue e.2 :=
        fun e he levels => ih (e.1, e.2.shape) (List.mem_map.mpr ⟨e, he, rfl⟩) levels
      have hsome : ∀ levels, (option (propertiesAt (levels + 1))).Reads levels
          (.object (t.entries.map fun e => (e.1, e.2.shape.toValue))) (some t) := by
        intro levels
        show (propertiesAt (levels + 1) levels _).map some = _
        rw [properties_reads ht, ifFits_map]
      rw [Shape.toValue, propertyValues_eq, List.map_map]
      exact schema_reads_of_properties description hsome

-- ── dialects ─────────────────────────────────────────────────────────────────────

/-- A table is read back if its entries are, with any number of levels left. -/
theorem toValue_reads {α : Type} {entry : Decoder α} {entryValue : α → Value}
    (h : ∀ levels a, entry.Reads levels (entryValue a) a) (levels : Nat) (t : Table α) :
    (table entry).Reads levels (t.toValue entryValue) t := by
  cases levels with
  | zero => exact not_reads_zero rfl
  | succ levels => exact table_reads entryValue fun e _ => h levels e.2

/-- A dialect is read back, as long as it is not nested too deeply. -/
theorem decoder_reads (levels : Nat) (d : Dialect) : decoder.Reads levels d.toValue d := by
  refine record_reads (fun levels => ?_) (fun _ => rfl) (by decide) levels
  exact
    .cons (fun d tags => { d with tags }) (toValue_reads tagRule_reads levels d.tags) rfl <|
    .cons (fun d filters => { d with filters })
      (toValue_reads filterRule_reads levels d.filters) rfl <|
    .cons (fun d objects => { d with objects }) (toValue_reads schema_reads levels d.objects) rfl <|
    .cons (fun d associates => { d with associates })
      (list_reads text_reads levels d.associates) rfl <|
    .nil _

/-- A written dialect is decoded, sound or not, if it is not nested too deep. -/
theorem decode_write (d : Dialect) :
    decode d.write.toList = ifFits (d.toValue.nesting ≤ maxLevels) d := by
  rw [write, String.toList_ofList, decode, outline_print]
  show (decoder maxLevels d.toValue.outline >>= _) = _
  rw [decoder_reads maxLevels d]
  exact ifFits_then rfl

-- ── the parent reported ──────────────────────────────────────────────────────────

/-- The first tag, in the order of names, whose rule names a parent that is no tag of the dialect,
    and the first such parent in its list. -/
def FirstStray (d : Dialect) (tag parent : String) : Prop :=
  ∃ before rule after known rest,
    d.tags.entries = before ++ (tag, rule) :: after ∧
    (∀ entry ∈ before, ∀ parent ∈ entry.2.parents, d.tags.contains parent = true) ∧
    rule.parents = known ++ parent :: rest ∧
    (∀ parent ∈ known, d.tags.contains parent = true) ∧
    d.tags.contains parent = false

theorem strayParent?_eq_some_iff {d : Dialect} {tag parent : String} :
    d.strayParent? = some (tag, parent) ↔ d.FirstStray tag parent := by
  have hfound : ∀ parents : List String, ∀ found,
      parents.find? (fun parent => !d.tags.contains parent) = some found ↔
        ∃ known rest, parents = known ++ found :: rest ∧
          (∀ parent ∈ known, d.tags.contains parent = true) ∧
          d.tags.contains found = false := by
    intro parents found
    rw [List.find?_eq_some_iff_append]
    constructor
    · rintro ⟨hstray, known, rest, hparents, hknown⟩
      exact ⟨known, rest, hparents, by simpa using hknown, by simpa using hstray⟩
    · rintro ⟨known, rest, hparents, hknown, hstray⟩
      exact ⟨by simpa using hstray, known, rest, hparents, by simpa using hknown⟩
  rw [strayParent?, List.findSome?_eq_some_iff]
  constructor
  · rintro ⟨before, ⟨name, rule⟩, after, hentries, hsome, hbefore⟩
    obtain ⟨found, hfind, heq⟩ := Option.map_eq_some_iff.mp hsome
    obtain ⟨rfl, rfl⟩ := Prod.mk.inj heq
    obtain ⟨known, rest, hparents, hknown, hstray⟩ := (hfound _ _).mp hfind
    exact ⟨before, rule, after, known, rest, hentries, by simpa using hbefore, hparents, hknown,
      hstray⟩
  · rintro ⟨before, rule, after, known, rest, hentries, hbefore, hparents, hknown, hstray⟩
    have hfind := (hfound rule.parents parent).mpr ⟨known, rest, hparents, hknown, hstray⟩
    exact ⟨before, (tag, rule), after, hentries, by rw [hfind, Option.map_some],
      by simpa using hbefore⟩

-- ── loading what was written ─────────────────────────────────────────────────────

variable {d : Dialect} {tag parent : String}

/-- What is nested too deeply is not read at all. -/
theorem load_write_of_deep (h : maxLevels < d.toValue.nesting) :
    load d.write = .error (.defective .malformed) := by
  have hdecode := decode_write d
  rw [ifFits_of_not (Nat.not_le.mpr h)] at hdecode
  rw [load, hdecode]

/-- A sound dialect is the one that is loaded. -/
theorem load_write_of_sound (hfits : d.toValue.nesting ≤ maxLevels) (h : d.Sound) :
    load d.write = .ok d := by
  have hdecode := decode_write d
  rw [ifFits_of hfits] at hdecode
  simp only [load, hdecode, strayParent?_eq_none_iff.mpr h]

/-- The first stray parent is reported. -/
theorem load_write_of_stray (hfits : d.toValue.nesting ≤ maxLevels) (h : d.FirstStray tag parent) :
    load d.write = .error (.strayParent tag parent) := by
  have hdecode := decode_write d
  rw [ifFits_of hfits] at hdecode
  simp only [load, hdecode, strayParent?_eq_some_iff.mpr h]

/-- A dialect with a stray parent has a first one, -/
theorem exists_firstStray (h : ¬ d.Sound) : ∃ tag parent, d.FirstStray tag parent := by
  cases hstray : d.strayParent? with
  | none => exact absurd (strayParent?_eq_none_iff.mp hstray) h
  | some found => exact ⟨found.1, found.2, strayParent?_eq_some_iff.mp hstray⟩

/-- which makes it unsound. -/
theorem FirstStray.not_sound (h : d.FirstStray tag parent) : ¬ d.Sound := by
  intro hsound
  have hnone := strayParent?_eq_none_iff.mpr hsound
  rw [strayParent?_eq_some_iff.mpr h] at hnone
  cases hnone

/-- Whatever text is refused: the refusal has a wording exactly when the text describes a dialect
    with a stray parent, and the wording names the first one and the tag that lists it. -/
theorem message?_eq_some_iff {text : String} {fault : LoadFault} (h : load text = .error fault)
    {message : String} :
    fault.message? = some message ↔ ∃ d tag parent, decode text.toList = .ok d ∧
      d.FirstStray tag parent ∧
        message = "Tag '" ++ tag ++ "' lists unknown parent '" ++ parent ++ "'" := by
  rw [load] at h
  cases hdecode : decode text.toList with
  | error defect =>
      rw [hdecode] at h
      obtain rfl := Except.error.inj h
      simp [LoadFault.message?]
  | ok described =>
      rw [hdecode] at h
      cases hstray : described.strayParent? with
      | none => simp [hstray] at h
      | some found =>
          obtain ⟨tag, parent⟩ := found
          simp only [hstray] at h
          obtain rfl := Except.error.inj h
          rw [LoadFault.message?, Option.some.injEq]
          constructor
          · rintro rfl
            exact ⟨described, tag, parent, rfl, strayParent?_eq_some_iff.mp hstray, rfl⟩
          · rintro ⟨d, tag', parent', hd, hfirst, rfl⟩
            obtain rfl := Except.ok.inj hd
            have hsame := hstray.symm.trans (strayParent?_eq_some_iff.mpr hfirst)
            obtain ⟨rfl, rfl⟩ := Prod.mk.inj (Option.some.inj hsame)
            rfl

/-- **Every dialect is loaded from its own text, or refused for its nesting or for a stray parent.**
    It comes back exactly when it is sound and not nested deeper than is allowed, and no other
    dialect ever does; a dialect that is not nested too deep is refused with its first stray parent,
    and one that is, as a defective text. -/
theorem load_write (d : Dialect) :
    (∀ e, load d.write = .ok e ↔ e = d ∧ d.Sound ∧ d.toValue.nesting ≤ maxLevels) ∧
    (∀ tag parent, load d.write = .error (.strayParent tag parent) ↔
      d.toValue.nesting ≤ maxLevels ∧ d.FirstStray tag parent) ∧
    (∀ defect, load d.write = .error (.defective defect) ↔
      maxLevels < d.toValue.nesting ∧ defect = .malformed) := by
  rcases Nat.lt_or_ge maxLevels d.toValue.nesting with hdeep | hfits
  · have hnot : ¬ d.toValue.nesting ≤ maxLevels := Nat.not_le.mpr hdeep
    rw [load_write_of_deep hdeep]
    simp [hnot, hdeep, eq_comm]
  have hnot : ¬ maxLevels < d.toValue.nesting := Nat.not_lt.mpr hfits
  by_cases hsound : d.Sound
  · have hstray : ∀ tag parent, ¬ d.FirstStray tag parent := fun _ _ h => h.not_sound hsound
    rw [load_write_of_sound hfits hsound]
    simp [hnot, hfits, hsound, hstray, eq_comm]
  · obtain ⟨tag, parent, hstray⟩ := exists_firstStray hsound
    have honly : ∀ tag' parent', d.FirstStray tag' parent' ↔ tag' = tag ∧ parent' = parent := by
      intro tag' parent'
      rw [← strayParent?_eq_some_iff, strayParent?_eq_some_iff.mpr hstray]
      simp [eq_comm]
    rw [load_write_of_stray hfits hstray]
    simp [hnot, hfits, hsound, honly, eq_comm]

end Dialect

end TemplateScan
