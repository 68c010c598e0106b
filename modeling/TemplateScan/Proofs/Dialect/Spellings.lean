import TemplateScan.Proofs.Dialect.RoundTrip
import TemplateScan.Proofs.Json.Restated
import TemplateScan.Proofs.Json.Spelling

/-! # Spellings of a dialect — all the texts from which it is loaded

    A dialect is written as one text, but loaded from many.  Each record of its description is put
    together from its members one by one, so neither their order matters nor what else the text
    holds, and a member at its default may be missing.

    * **`recordFields`** — the members of every kind of record, with their defaults.
    * **`decoder_takes`** — whatever stands in place of the description of a dialect is read as it.
    * **`load_restated`** — and so is every text of it. -/

namespace TemplateScan

open Json Json.Decoder

-- ── records ──────────────────────────────────────────────────────────────────────

/-- The kinds of record in the description of a dialect. -/
inductive RecordKind where
  | dialect
  | tag
  | parameter
  | filter
  | argument
  | schema

/-- The members of a record.  Only the name of a modifier has no default. -/
def recordFields : RecordKind → List (RecordField RecordKind)
  | .dialect => [
      ⟨"tags", .table (.record .tag), some (.object [])⟩,
      ⟨"filters", .table (.record .filter), some (.object [])⟩,
      ⟨"objects", .table (.record .schema), some (.object [])⟩,
      ⟨"associates", .plain, some (.array [])⟩]
  | .tag => [
      ⟨"kind", .plain, some (.string "other")⟩,
      ⟨"block", .plain, some (.bool false)⟩,
      ⟨"singular", .plain, some (.bool false)⟩,
      ⟨"arguments", .plain, some (.bool false)⟩,
      ⟨"parents", .plain, some (.array [])⟩,
      ⟨"parameters", .list (.record .parameter), some (.array [])⟩,
      ⟨"language", .plain, some .null⟩,
      ⟨"description", .plain, some .null⟩]
  | .parameter => [
      ⟨"name", .plain, none⟩,
      ⟨"value", .plain, some (.bool false)⟩]
  | .filter => [
      ⟨"arguments", .list (.record .argument), some (.array [])⟩,
      ⟨"description", .plain, some .null⟩]
  | .argument => [
      ⟨"kind", .plain, some (.string "argument")⟩,
      ⟨"accepts", .plain, some (.array [])⟩,
      ⟨"required", .plain, some (.bool false)⟩]
  | .schema => [
      ⟨"properties", .table (.record .schema), some .null⟩,
      ⟨"description", .plain, some .null⟩]

/-- The tag rule with one member as in another. -/
def TagRule.give (t : TagRule) (name : String) (rule : TagRule) : TagRule :=
  match name with
  | "kind" => { rule with kind := t.kind }
  | "block" => { rule with block := t.block }
  | "singular" => { rule with singular := t.singular }
  | "arguments" => { rule with arguments := t.arguments }
  | "parents" => { rule with parents := t.parents }
  | "parameters" => { rule with parameters := t.parameters }
  | "language" => { rule with language := t.language }
  | "description" => { rule with description := t.description }
  | _ => rule

/-- The options of a tag may be given in any order. -/
theorem TagRule.give_comm (t : TagRule) (name other : String) (rule : TagRule) :
    t.give name (t.give other rule) = t.give other (t.give name rule) := by
  unfold give
  split <;> split <;> rfl

/-- The argument rule with one member as in another. -/
def ArgumentRule.give (a : ArgumentRule) (name : String) (rule : ArgumentRule) : ArgumentRule :=
  match name with
  | "kind" => { rule with kind := a.kind }
  | "accepts" => { rule with accepted := a.accepted }
  | "required" => { rule with required := a.required }
  | _ => rule

theorem ArgumentRule.give_comm (a : ArgumentRule) (name other : String) (rule : ArgumentRule) :
    a.give name (a.give other rule) = a.give other (a.give name rule) := by
  unfold give
  split <;> split <;> rfl

/-- The filter rule with one member as in another. -/
def FilterRule.give (f : FilterRule) (name : String) (rule : FilterRule) : FilterRule :=
  match name with
  | "arguments" => { rule with arguments := f.arguments }
  | "description" => { rule with description := f.description }
  | _ => rule

theorem FilterRule.give_comm (f : FilterRule) (name other : String) (rule : FilterRule) :
    f.give name (f.give other rule) = f.give other (f.give name rule) := by
  unfold give
  split <;> split <;> rfl

namespace Dialect

/-- The modifier with one member as in another. -/
def ParameterDraft.give (p : ParameterDraft) (name : String) (draft : ParameterDraft) :
    ParameterDraft :=
  match name with
  | "name" => { draft with name := p.name }
  | "value" => { draft with takesValue := p.takesValue }
  | _ => draft

theorem ParameterDraft.give_comm (p : ParameterDraft) (name other : String)
    (draft : ParameterDraft) :
    p.give name (p.give other draft) = p.give other (p.give name draft) := by
  unfold give
  split <;> split <;> rfl

/-- The schema with one member as in another. -/
def SchemaDraft.give (s : SchemaDraft) (name : String) (draft : SchemaDraft) : SchemaDraft :=
  match name with
  | "properties" => { draft with properties := s.properties }
  | "description" => { draft with description := s.description }
  | _ => draft

theorem SchemaDraft.give_comm (s : SchemaDraft) (name other : String) (draft : SchemaDraft) :
    s.give name (s.give other draft) = s.give other (s.give name draft) := by
  unfold give
  split <;> split <;> rfl

/-- The dialect with one member as in another. -/
def give (d : Dialect) (name : String) (dialect : Dialect) : Dialect :=
  match name with
  | "tags" => { dialect with tags := d.tags }
  | "filters" => { dialect with filters := d.filters }
  | "objects" => { dialect with objects := d.objects }
  | "associates" => { dialect with associates := d.associates }
  | _ => dialect

theorem give_comm (d : Dialect) (name other : String) (dialect : Dialect) :
    d.give name (d.give other dialect) = d.give other (d.give name dialect) := by
  unfold give
  split <;> split <;> rfl

-- ── rules ────────────────────────────────────────────────────────────────────────

/-- A member is put in as it is set, if what stands for it is taken. -/
theorem fieldTakes {σ γ : Type} {m : Members σ} {levels : Nat} {put : String → σ → σ}
    {field : RecordField RecordKind} {value : Value} {decoder : Decoder γ} {a : γ} (set : σ → γ → σ)
    (h : decoder.Takes recordFields levels field.form value a)
    (assign : ∀ outline r, m.assign field.name outline r = (decoder levels outline).map (set r))
    (hput : ∀ r, put field.name r = set r a) :
    FieldTakes recordFields m levels put field (field.name, value) := by
  refine ⟨rfl, fun r hfits outline hrestates => ?_⟩
  show m.assign field.name outline r = _
  rw [assign, h hfits outline hrestates, hput]
  rfl

/-- Any respelling of a parameter is read as the parameter. -/
theorem parameter_takes (levels : Nat) (p : TagParameter) :
    parameter.Takes recordFields levels (.record .parameter) p.toValue p := by
  have hdraft : (record parameterMembers {}).Takes recordFields levels (.record .parameter)
      p.toValue ⟨some p.name, p.takesValue⟩ :=
    record_takes (ParameterDraft.give ⟨some p.name, p.takesValue⟩) (fun levels => {
      names := rfl
      nodup := by decide
      takes :=
        .cons (fieldTakes (fun draft name => { draft with name := some name })
          (text_reads levels p.name).takes (fun _ _ => rfl) fun _ => rfl) <|
        .cons (fieldTakes (fun draft takesValue => { draft with takesValue })
          (bool_reads levels p.takesValue).takes (fun _ _ => rfl) fun _ => rfl) <|
        .nil
      comm := ParameterDraft.give_comm _
      default := by
        intro d hd hfits
        simp only [defaults, recordFields, List.filterMap, Option.map, List.mem_cons,
          List.not_mem_nil, or_false] at hd
        subst hd
        rfl
      all := rfl }) levels
  intro hfits outline hrestates
  show (record parameterMembers {} levels outline >>= _) = _
  rw [hdraft hfits outline hrestates]
  rfl

/-- Any respelling of the rule of a tag is read as that rule. -/
theorem tagRule_takes (levels : Nat) (t : TagRule) :
    tagRule.Takes recordFields levels (.record .tag) t.toValue t :=
  record_takes t.give (fun levels => {
    names := rfl
    nodup := by decide
    takes :=
      .cons (fieldTakes (fun t kind => { t with kind })
        (variant_reads (TagKind.ofName?_name t.kind) levels).takes (fun _ _ => rfl) fun _ => rfl) <|
      .cons (fieldTakes (fun t block => { t with block }) (bool_reads levels t.block).takes
        (fun _ _ => rfl) fun _ => rfl) <|
      .cons (fieldTakes (fun t singular => { t with singular })
        (bool_reads levels t.singular).takes (fun _ _ => rfl) fun _ => rfl) <|
      .cons (fieldTakes (fun t arguments => { t with arguments })
        (bool_reads levels t.arguments).takes (fun _ _ => rfl) fun _ => rfl) <|
      .cons (fieldTakes (fun t parents => { t with parents })
        (list_reads text_reads levels t.parents).takes (fun _ _ => rfl) fun _ => rfl) <|
      .cons (fieldTakes (fun t parameters => { t with parameters })
        (list_takes (fun levels p _ => parameter_takes levels p) levels) (fun _ _ => rfl)
        fun _ => rfl) <|
      .cons (fieldTakes (fun t language => { t with language })
        (option_reads (fun l => variant_reads (Language.ofName?_name l) levels) t.language).takes
        (fun _ _ => rfl) fun _ => rfl) <|
      .cons (fieldTakes (fun t description => { t with description })
        (description_reads levels t.description).takes (fun _ _ => rfl) fun _ => rfl) <|
      .nil
    comm := t.give_comm
    default := by
      intro d hd hfits
      simp only [defaults, recordFields, List.filterMap, Option.map, List.mem_cons,
        List.not_mem_nil, or_false] at hd
      cases levels <;> rcases hd with rfl | rfl | rfl | rfl | rfl | rfl | rfl | rfl
      all_goals first | rfl | exact absurd hfits (by decide)
    all := by simp only [fieldNames, recordFields, List.map, List.foldl, TagRule.give] }) levels

/-- Any respelling of the rule of an argument is read as that rule. -/
theorem argumentRule_takes (levels : Nat) (a : ArgumentRule) :
    argumentRule.Takes recordFields levels (.record .argument) a.toValue a :=
  record_takes a.give (fun levels => {
    names := rfl
    nodup := by decide
    takes :=
      .cons (fieldTakes (fun a kind => { a with kind })
        (variant_reads (ArgumentKind.ofName?_name a.kind) levels).takes (fun _ _ => rfl)
        fun _ => rfl) <|
      .cons (fieldTakes (fun a accepted => { a with accepted })
        (accepted_reads levels a.accepted).takes (fun _ _ => rfl) fun _ => rfl) <|
      .cons (fieldTakes (fun a required => { a with required })
        (bool_reads levels a.required).takes (fun _ _ => rfl) fun _ => rfl) <|
      .nil
    comm := a.give_comm
    default := by
      intro d hd hfits
      simp only [defaults, recordFields, List.filterMap, Option.map, List.mem_cons,
        List.not_mem_nil, or_false] at hd
      cases levels <;> rcases hd with rfl | rfl | rfl
      all_goals first | rfl | exact absurd hfits (by decide)
    all := by
      simp only [fieldNames, recordFields, List.map, List.foldl, ArgumentRule.give] }) levels

/-- Any respelling of the rule of a filter is read as that rule. -/
theorem filterRule_takes (levels : Nat) (f : FilterRule) :
    filterRule.Takes recordFields levels (.record .filter) f.toValue f :=
  record_takes f.give (fun levels => {
    names := rfl
    nodup := by decide
    takes :=
      .cons (fieldTakes (fun f arguments => { f with arguments })
        (list_takes (fun levels a _ => argumentRule_takes levels a) levels) (fun _ _ => rfl)
        fun _ => rfl) <|
      .cons (fieldTakes (fun f description => { f with description })
        (description_reads levels f.description).takes (fun _ _ => rfl) fun _ => rfl) <|
      .nil
    comm := f.give_comm
    default := by
      intro d hd hfits
      simp only [defaults, recordFields, List.filterMap, Option.map, List.mem_cons,
        List.not_mem_nil, or_false] at hd
      cases levels <;> rcases hd with rfl | rfl
      all_goals first | rfl | exact absurd hfits (by decide)
    all := by simp only [fieldNames, recordFields, List.map, List.foldl, FilterRule.give] }) levels

-- ── schemas ──────────────────────────────────────────────────────────────────────

/-- The properties of a schema are taken if their schemas are. -/
theorem properties_takes {t : Table Schema}
    (h : ∀ e ∈ t.entries, ∀ levels,
      schema.Takes recordFields levels (.record .schema) e.2.shape.toValue e.2) (levels : Nat) :
    (propertiesAt (levels + 1)).Takes recordFields levels (.table (.record .schema))
      (.object (t.entries.map fun e => (e.1, e.2.shape.toValue))) t := by
  cases levels with
  | zero =>
      intro hfits
      exact absurd hfits (by simp [Value.nesting])
  | succ levels =>
      have htakes : ∀ e ∈ t.entries, Takes recordFields (fun _ property => schema levels property)
          levels (.record .schema) e.2.shape.toValue e.2 := fun e he => h e he levels
      exact table_takes (fun s : Schema => s.shape.toValue) htakes

/-- A schema is taken if its properties are. -/
theorem schema_takes_of_properties {levels : Nat} {value : Value}
    {properties? : Option (Table Schema)} (description : Option String)
    (h : ∀ levels, (option (propertiesAt (levels + 1))).Takes recordFields levels
      (.table (.record .schema)) value properties?) :
    schema.Takes recordFields levels (.record .schema)
      (.object [("properties", value), ("description", .ofText? description)])
      (SchemaDraft.schema ⟨properties?, description⟩) := by
  cases levels with
  | zero =>
      intro hfits
      exact absurd hfits (by simp [Value.nesting])
  | succ levels =>
      have hdraft : (record (schemaMembers (propertiesAt (levels + 1))) {}).Takes recordFields
          (levels + 1) (.record .schema)
          (.object [("properties", value), ("description", .ofText? description)])
          ⟨properties?, description⟩ :=
        record_takes_succ (SchemaDraft.give ⟨properties?, description⟩) {
          names := rfl
          nodup := by decide
          takes :=
            .cons (fieldTakes (fun draft properties => { draft with properties }) (h levels)
              (fun _ _ => rfl) fun _ => rfl) <|
            .cons (fieldTakes (fun draft description => { draft with description })
              (description_reads levels description).takes (fun _ _ => rfl) fun _ => rfl) <|
            .nil
          comm := SchemaDraft.give_comm _
          default := by
            intro d hd hfits
            simp only [defaults, recordFields, List.filterMap, Option.map, List.mem_cons,
              List.not_mem_nil, or_false] at hd
            rcases hd with rfl | rfl
            all_goals rfl
          all := rfl }
      intro hfits outline hrestates
      rw [schema_eq, hdraft hfits outline hrestates]
      rfl

/-- A schema is taken, whatever the depth of its properties. -/
theorem schema_takes (levels : Nat) (s : Schema) :
    schema.Takes recordFields levels (.record .schema) s.shape.toValue s := by
  obtain ⟨shape, ordered⟩ := s
  induction ordered generalizing levels with
  | unchecked description =>
      have hnone : ∀ levels, (option (propertiesAt (levels + 1))).Takes recordFields levels
          (.table (.record .schema)) .null none := by
        intro levels _ outline hrestates
        cases hrestates with
        | same => rfl
      rw [Shape.toValue]
      exact schema_takes_of_properties description hnone
  | @checked properties description ascending each ih =>
      obtain ⟨t, rfl⟩ := exists_table ascending each
      have ht : ∀ e ∈ t.entries, ∀ levels,
          schema.Takes recordFields levels (.record .schema) e.2.shape.toValue e.2 :=
        fun e he levels => ih (e.1, e.2.shape) (List.mem_map.mpr ⟨e, he, rfl⟩) levels
      have hsome : ∀ levels, (option (propertiesAt (levels + 1))).Takes recordFields levels
          (.table (.record .schema))
          (.object (t.entries.map fun e => (e.1, e.2.shape.toValue))) (some t) := by
        intro levels hfits outline hrestates
        have htable := properties_takes ht levels hfits outline hrestates
        obtain ⟨named, _, rfl, -, -⟩ := hrestates.exists_entries
        show (propertiesAt (levels + 1) levels _).map some = _
        rw [htable]
        rfl
      rw [Shape.toValue, propertyValues_eq, List.map_map]
      exact schema_takes_of_properties description hsome

-- ── dialects ─────────────────────────────────────────────────────────────────────

/-- A table is taken if its entries are, with any number of levels left. -/
theorem toValue_takes {α : Type} {entry : Decoder α} {form : Form RecordKind}
    {entryValue : α → Value}
    (h : ∀ levels a, entry.Takes recordFields levels form (entryValue a) a) (levels : Nat)
    (t : Table α) :
    (table entry).Takes recordFields levels (.table form) (t.toValue entryValue) t := by
  cases levels with
  | zero =>
      intro hfits
      exact absurd hfits (by simp [Table.toValue, Value.nesting])
  | succ levels => exact table_takes entryValue fun e _ => h levels e.2

/-- Whatever stands in place of the description of a dialect is read as that dialect. -/
theorem decoder_takes (levels : Nat) (d : Dialect) :
    decoder.Takes recordFields levels (.record .dialect) d.toValue d :=
  record_takes d.give (fun levels => {
    names := rfl
    nodup := by decide
    takes :=
      .cons (fieldTakes (fun d tags => { d with tags })
        (toValue_takes tagRule_takes levels d.tags) (fun _ _ => rfl) fun _ => rfl) <|
      .cons (fieldTakes (fun d filters => { d with filters })
        (toValue_takes filterRule_takes levels d.filters) (fun _ _ => rfl) fun _ => rfl) <|
      .cons (fieldTakes (fun d objects => { d with objects })
        (toValue_takes schema_takes levels d.objects) (fun _ _ => rfl) fun _ => rfl) <|
      .cons (fieldTakes (fun d associates => { d with associates })
        (list_reads text_reads levels d.associates).takes (fun _ _ => rfl) fun _ => rfl) <|
      .nil
    comm := d.give_comm
    default := by
      intro e he hfits
      simp only [defaults, recordFields, List.filterMap, Option.map, List.mem_cons,
        List.not_mem_nil, or_false] at he
      cases levels <;> rcases he with rfl | rfl | rfl | rfl
      all_goals first | rfl | exact absurd hfits (by decide)
    all := by
      simp only [fieldNames, recordFields, List.map, List.foldl, give] }) levels

/-- A dialect that is loaded from the text that it is written as is sound and not nested too
    deep. -/
theorem fits_of_load_write {d e : Dialect} (h : load d.write = .ok e) :
    d.toValue.nesting ≤ maxLevels ∧ d.Sound := by
  have hfits : d.toValue.nesting ≤ maxLevels := by
    refine Nat.le_of_not_lt fun hdeep => ?_
    rw [load_write_of_deep hdeep] at h
    cases h
  refine ⟨hfits, Classical.byContradiction fun hunsound => ?_⟩
  obtain ⟨tag, parent, hstray⟩ := exists_firstStray hunsound
  rw [load_write_of_stray hfits hstray] at h
  cases h

/-- The text that a dialect is written as is one of its texts. -/
theorem spells_write (d : Dialect) : Spells d.toValue.outline d.write.toList := by
  rw [write, String.toList_ofList]
  exact spells_print d.toValue 0

/-- **A dialect that is loaded from the text that it is written as is loaded from every other text
    of it.**  White space stands wherever it may, the members of objects come in any order, strings
    are written with any escapes, members of records are left out where they are at their defaults,
    and unknown members with any whole values are added. -/
theorem load_restated {d : Dialect} (h : ∃ e, load d.write = .ok e) {outline : Outline}
    (hrestates : Restates recordFields (.record .dialect) d.toValue outline) {text : Padded}
    (hspells : Spells outline text.text) : load (String.ofList text.chars) = .ok d := by
  obtain ⟨e, h⟩ := h
  obtain ⟨hfits, hsound⟩ := fits_of_load_write h
  have hdecode : decode text.chars = .ok d := by
    rw [decode, outline_spelled hspells]
    show (decoder maxLevels outline >>= _) = _
    rw [decoder_takes maxLevels d hfits outline hrestates]
    rfl
  simp only [load, String.toList_ofList, hdecode, strayParent?_eq_none_iff.mpr hsound]

/-- Two filters in another order, the one without members, the other one described by a surrogate
    pair, behind a member that the dialect does not know. -/
theorem load_restated_filters :
    load ("\x7b\"note\":1e999, \"filters\":\x7b\"b\":\x7b\x7d," ++
        "\"a\":\x7b\"description\":\"\\uD83D\\ude00\"\x7d\x7d\x7d") =
      .ok ((empty.withFilter "a" { description := some "😀" }).withFilter "b" {}) := by
  have hloads : ∃ e,
      load ((empty.withFilter "a" { description := some "😀" }).withFilter "b" {}).write = .ok e :=
    ⟨_, load_write_of_sound (by decide) (strayParent?_eq_none_iff.mp (by decide))⟩
  have hempty : Restates recordFields (.record .filter)
      (.object [("arguments", .array []), ("description", .null)]) (.object [] .closed) :=
    .record [] [("arguments", .array []), ("description", .null)] [] (List.forall_mem_nil _)
      (List.forall_mem_nil _) (by simp [defaults, recordFields]) (List.forall_mem_nil _) (.refl _)
      (.refl [])
  have hdescribed : Restates recordFields (.record .filter)
      (.object [("arguments", .array []), ("description", .string "😀")])
      (.object [(some "description", .string (some "😀"))] .closed) :=
    @Restates.record _ _ _ _ [("description", .string (some "😀"))]
      [(⟨"description", .plain, some .null⟩, .string "😀", .string (some "😀"))]
      [("arguments", .array [])] [] (by simp [recordFields]) (by simpa using .same _ _)
      (by simp [defaults, recordFields]) (List.forall_mem_nil _) (.swap ..) (.refl _)
  have hfilters : Restates recordFields (.table (.record .filter))
      (.object [
        ("a", .object [("arguments", .array []), ("description", .string "😀")]),
        ("b", .object [("arguments", .array []), ("description", .null)])])
      (.object [(some "b", .object [] .closed),
        (some "a", .object [(some "description", .string (some "😀"))] .closed)] .closed) :=
    @Restates.table _ _ _ [("b", .object [] .closed),
        ("a", .object [(some "description", .string (some "😀"))] .closed)]
      [("a", .object [("arguments", .array []), ("description", .string "😀")],
        .object [(some "description", .string (some "😀"))] .closed),
      ("b", .object [("arguments", .array []), ("description", .null)], .object [] .closed)]
      (List.forall_mem_cons.mpr ⟨hdescribed, List.forall_mem_singleton.mpr hempty⟩) (.swap ..)
  have hnumeral : SpellsNumeral ⟨['1'], [], false, ['9', '9', '9']⟩ ['1', 'e', '9', '9', '9'] :=
    @SpellsNumeral.mk ⟨['1'], [], false, ['9', '9', '9']⟩ [] [] _ (Or.inl rfl)
      ⟨by simp, by simp⟩ (by decide) .absent
      (.given (Or.inl rfl) .absent ⟨by simp, by simp⟩)
  have hface : SpellsString (some "😀")
      ['\\', 'u', 'D', '8', '3', 'D', '\\', 'u', 'd', 'e', '0', '0'] :=
    .text (.code ⟨by decide, Or.inr rfl, Or.inl rfl, Or.inl rfl, Or.inr rfl⟩
      (.code ⟨by decide, Or.inl rfl, Or.inl rfl, Or.inl rfl, Or.inl rfl⟩ .nil))
      (@Encodes.pair '😀' _ _ (by decide) .nil)
  have hspells := @Spells.object [
      .printed .none "note" _ ⟨.none, _, .none⟩,
      .printed .single "filters" _ ⟨.none, _, .none⟩] .none
    (List.forall_mem_cons.mpr ⟨.number hnumeral, List.forall_mem_singleton.mpr <|
      @Spells.object [
          .printed .none "b" _ ⟨.none, _, .none⟩,
          .printed .none "a" _ ⟨.none, _, .none⟩] .none
        (List.forall_mem_cons.mpr ⟨@Spells.object [] .none (List.forall_mem_nil _),
          List.forall_mem_singleton.mpr <|
            @Spells.object [.printed .none "description" _ ⟨.none, _, .none⟩] .none
              (List.forall_mem_singleton.mpr (.string hface))⟩)⟩)
  have hdialect := @Restates.record _ recordFields .dialect
    [("tags", .object []),
      ("filters", .object [
        ("a", .object [("arguments", .array []), ("description", .string "😀")]),
        ("b", .object [("arguments", .array []), ("description", .null)])]),
      ("objects", .object []), ("associates", .array [])]
    [("note", .number (Numeral.inRange ⟨['1'], [], false, ['9', '9', '9']⟩)), ("filters", _)]
    [(⟨"filters", .table (.record .filter), some (.object [])⟩, _, _)]
    [("tags", .object []), ("objects", .object []), ("associates", .array [])]
    [("note", .number (Numeral.inRange ⟨['1'], [], false, ['9', '9', '9']⟩))]
    (by simp [recordFields]) (List.forall_mem_singleton.mpr hfilters)
    (by simp [defaults, recordFields])
    (List.forall_mem_singleton.mpr ⟨by decide, .number _⟩) (.swap ..) (.swap ..)
  refine Eq.trans (congrArg load ?_) (@load_restated _ hloads _ hdialect ⟨.none, _, .none⟩ hspells)
  decide +kernel

end Dialect

end TemplateScan
