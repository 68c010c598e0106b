import Mathlib.Data.Option.Basic
import TemplateScan.Dialect.Lookup
import TemplateScan.Grammar

/-! # Concerns — what two dialects may differ in

    A dialect is asked about four things beside the shape of its tags and filters: which objects
    and properties exist, where tags may stand, which types the arguments of filters accept, and
    which HTML elements are tracked.  Two dialects that differ in some of these concerns only answer
    every other question alike, and so do two lookups in them that have asked for the same names.

    * **`Dialect.DifferIn`** — two dialects that differ in the listed concerns only.
    * **`Lookup.Akin`** — two lookups in such dialects, with the same names asked for last. -/

namespace TemplateScan

/-- A part of a dialect that can be exchanged without another. -/
inductive Concern where
  /-- The objects and their properties. -/
  | objects
  /-- The tags inside which a tag may stand. -/
  | placements
  /-- The types that the arguments of filters accept. -/
  | arguments
  /-- The HTML elements that are tracked. -/
  | associates
deriving DecidableEq, Repr

variable {concerns : List Concern}

/-- A question about what is left of an entry is answered alike where the same is left. -/
theorem any_of_map_eq {α : Type} {o o' : Option α} {without : α → α} {question : α → Bool}
    (h : o'.map without = o.map without) (hq : ∀ a, question (without a) = question a) :
    o'.any question = o.any question := by
  have hany := congrArg (Option.any question) h
  simpa only [Option.any_map, hq] using hany

-- ── rules ────────────────────────────────────────────────────────────────────────

/-- What is left of the rule without its description and what the concerns are about. -/
def TagRule.without (concerns : List Concern) (t : TagRule) : TagRule :=
  { t with
    parents := if .placements ∈ concerns then [] else t.parents
    description := none }

@[inherit_doc TagRule.without]
def ArgumentRule.without (concerns : List Concern) (a : ArgumentRule) : ArgumentRule :=
  { a with accepted := if .arguments ∈ concerns then [] else a.accepted }

@[inherit_doc TagRule.without]
def FilterRule.without (concerns : List Concern) (f : FilterRule) : FilterRule where
  arguments := f.arguments.map (·.without concerns)

-- ── dialects ─────────────────────────────────────────────────────────────────────

/-- The two dialects differ in descriptions and in the listed concerns only. -/
structure Dialect.DifferIn (concerns : List Concern) (d e : Dialect) : Prop where
  tags : ∀ name, (e.tags.get? name).map (·.without concerns) =
    (d.tags.get? name).map (·.without concerns)
  filters : ∀ name, (e.filters.get? name).map (·.without concerns) =
    (d.filters.get? name).map (·.without concerns)
  objects : .objects ∉ concerns → e.objects = d.objects
  associates : .associates ∉ concerns → e.associates = d.associates

namespace Dialect.DifferIn

variable {d e : Dialect}

/-- The two dialects have the same tags -/
theorem contains_tag (h : d.DifferIn concerns e) (name : String) :
    e.tags.contains name = d.tags.contains name := by
  have hsome := congrArg Option.isSome (h.tags name)
  rwa [Option.isSome_map, Option.isSome_map] at hsome

/-- and the same filters. -/
theorem contains_filter (h : d.DifferIn concerns e) (name : String) :
    e.filters.contains name = d.filters.contains name := by
  have hsome := congrArg Option.isSome (h.filters name)
  rwa [Option.isSome_map, Option.isSome_map] at hsome

/-- A dialect does not differ from itself. -/
theorem refl (concerns : List Concern) (d : Dialect) : d.DifferIn concerns d :=
  ⟨fun _ => rfl, fun _ => rfl, fun _ => rfl, fun _ => rfl⟩

/-- Dialects go on to differ in no more when both get a tag, -/
theorem withTag (h : d.DifferIn concerns e) (name : String) {rule rule' : TagRule}
    (hrule : rule'.without concerns = rule.without concerns) :
    (d.withTag name rule).DifferIn concerns (e.withTag name rule') where
  tags other := by
    by_cases hname : other = name
    · rw [hname, Dialect.withTag, Dialect.withTag, Table.get?_insert_self, Table.get?_insert_self,
        Option.map_some, Option.map_some, hrule]
    · rw [Dialect.withTag, Dialect.withTag, Table.get?_insert_ne _ hname,
        Table.get?_insert_ne _ hname]
      exact h.tags other
  filters := h.filters
  objects := h.objects
  associates := h.associates

/-- or a filter, -/
theorem withFilter (h : d.DifferIn concerns e) (name : String) {rule rule' : FilterRule}
    (hrule : rule'.without concerns = rule.without concerns) :
    (d.withFilter name rule).DifferIn concerns (e.withFilter name rule') where
  tags := h.tags
  filters other := by
    by_cases hname : other = name
    · rw [hname, Dialect.withFilter, Dialect.withFilter, Table.get?_insert_self,
        Table.get?_insert_self, Option.map_some, Option.map_some, hrule]
    · rw [Dialect.withFilter, Dialect.withFilter, Table.get?_insert_ne _ hname,
        Table.get?_insert_ne _ hname]
      exact h.filters other
  objects := h.objects
  associates := h.associates

/-- and when one of them gets, if that is a concern, an object -/
theorem withObject (h : d.DifferIn concerns e) (hc : .objects ∈ concerns) (name : String)
    (schema : Schema) : d.DifferIn concerns (e.withObject name schema) :=
  { h with objects := fun hno => absurd hc hno }

/-- or other elements to be tracked. -/
theorem withAssociates (h : d.DifferIn concerns e) (hc : .associates ∈ concerns)
    (associates : List String) : d.DifferIn concerns { e with associates } :=
  { h with associates := fun hno => absurd hc hno }

end Dialect.DifferIn

-- ── lookups ──────────────────────────────────────────────────────────────────────

namespace Lookup

/-- Lookups in dialects that differ in the listed concerns only, in which the same tag and the same
    filter have been asked for last. -/
structure Akin (concerns : List Concern) (l l' : Lookup) : Prop where
  dialect : l.dialect.DifferIn concerns l'.dialect
  tag : l'.tagRule?.map (·.without concerns) = l.tagRule?.map (·.without concerns)
  filter : l'.filter.map (·.without concerns) = l.filter.map (·.without concerns)
  argumentIndex : l'.argumentIndex = l.argumentIndex

variable {l l' : Lookup}

/-- At first nothing has been asked for. -/
theorem akin_lookup {d e : Dialect} (h : d.DifferIn concerns e) :
    Akin concerns d.lookup e.lookup :=
  ⟨h, rfl, rfl, rfl⟩

-- ── the tag ──────────────────────────────────────────────────────────────────────

/-- A question about the rule of the tag that its place plays no part in. -/
theorem Akin.map_tagRule? (h : Akin concerns l l') {α : Type} {question : TagRule → α}
    (hq : ∀ rule : TagRule, question (rule.without concerns) = question rule) :
    l'.tagRule?.map question = l.tagRule?.map question := by
  have hcomp : question ∘ TagRule.without concerns = question := funext hq
  have hmap := congrArg (Option.map question) h.tag
  rwa [Option.map_map, Option.map_map, hcomp] at hmap

/-- A question that is no concern has the same answer under both rules of a tag. -/
theorem Akin.bind_tagRule? (h : Akin concerns l l') {α : Type} {question : TagRule → Option α}
    (hq : ∀ rule : TagRule, question (rule.without concerns) = question rule) :
    l'.tagRule?.bind question = l.tagRule?.bind question := by
  have hjoin (o : Option TagRule) : o.bind question = (o.map question).join := by
    cases o <;> rfl
  rw [hjoin, hjoin, h.map_tagRule? hq]

/-- The category of a tag is no concern, nor are the options that follow. -/
theorem Akin.kind? (h : Akin concerns l l') : Grammar.kind? l' = Grammar.kind? l :=
  h.map_tagRule? fun _ => rfl

theorem Akin.isSingular (h : Akin concerns l l') : Grammar.isSingular l' = Grammar.isSingular l :=
  any_of_map_eq h.tag fun _ => rfl

theorem Akin.isBlock (h : Akin concerns l l') : Grammar.isBlock l' = Grammar.isBlock l :=
  any_of_map_eq h.tag fun _ => rfl

theorem Akin.hasArguments (h : Akin concerns l l') :
    Grammar.hasArguments l' = Grammar.hasArguments l :=
  any_of_map_eq h.tag fun _ => rfl

theorem Akin.language? (h : Akin concerns l l') : Grammar.language? l' = Grammar.language? l :=
  h.bind_tagRule? fun _ => rfl

/-- The parameters of a tag are no concern. -/
theorem Akin.parameter? (h : Akin concerns l l') (name : String) :
    Grammar.parameter? l' name = Grammar.parameter? l name :=
  h.bind_tagRule? fun _ => rfl

/-- Where placements agree, so do the questions about the place of the tag. -/
theorem Akin.placement (h : Akin concerns l l') (hp : .placements ∉ concerns)
    (parent : Option String) :
    (Grammar.hasPlacement l' && !Grammar.allowsParent l' parent) =
      (Grammar.hasPlacement l && !Grammar.allowsParent l parent) := by
  have hparents (rule : TagRule) : (rule.without concerns).parents = rule.parents :=
    if_neg hp
  have hplace (rule : TagRule) : (rule.without concerns).hasPlacement = rule.hasPlacement := by
    simp only [TagRule.hasPlacement, hparents]
  have hallows (rule : TagRule) :
      (rule.without concerns).allowsParent parent = rule.allowsParent parent := by
    cases parent <;> simp only [TagRule.allowsParent, TagRule.hasPlacement, hparents]
  have hfirst : Grammar.hasPlacement l' = Grammar.hasPlacement l := any_of_map_eq h.tag hplace
  have hsecond : Grammar.allowsParent l' parent = Grammar.allowsParent l parent :=
    any_of_map_eq h.tag hallows
  rw [hfirst, hsecond]

/-- The same tag is asked for. -/
theorem Akin.resolve_tag (h : Akin concerns l l') (name : String) :
    Akin concerns (Grammar.resolve (Grammar.setExpect l .tag) name)
      (Grammar.resolve (Grammar.setExpect l' .tag) name) := by
  refine { h with tag := ?_ }
  show (((l'.dialect.tags.get? name).map fun rule => (name, rule)).map (·.2)).map _ =
    (((l.dialect.tags.get? name).map fun rule => (name, rule)).map (·.2)).map _
  have hrule (t : Option TagRule) : (t.map fun rule => (name, rule)).map (·.2) = t := by
    cases t <;> rfl
  rw [hrule, hrule]
  exact h.dialect.tags name

/-- Both dialects know the same tags. -/
theorem Akin.knows_tag (h : Akin concerns l l') (name : String) :
    Grammar.knows (Grammar.setExpect l' .tag) name =
      Grammar.knows (Grammar.setExpect l .tag) name :=
  h.dialect.contains_tag name

-- ── the filter ───────────────────────────────────────────────────────────────────

/-- The same filter is asked for. -/
theorem Akin.resolve_filter (h : Akin concerns l l') (name : String) :
    Akin concerns (Grammar.resolve (Grammar.setExpect l .filter) name)
      (Grammar.resolve (Grammar.setExpect l' .filter) name) :=
  { h with filter := h.dialect.filters name, argumentIndex := rfl }

/-- Both dialects know the same filters. -/
theorem Akin.knows_filter (h : Akin concerns l l') (name : String) :
    Grammar.knows (Grammar.setExpect l' .filter) name =
      Grammar.knows (Grammar.setExpect l .filter) name :=
  h.dialect.contains_filter name

theorem Akin.resetFilter (h : Akin concerns l l') :
    Akin concerns (Grammar.resetFilter l) (Grammar.resetFilter l') :=
  { h with filter := rfl, argumentIndex := rfl }

/-- How many arguments a filter has is no concern. -/
theorem Akin.filterTakesArguments (h : Akin concerns l l') :
    Grammar.filterTakesArguments l' = Grammar.filterTakesArguments l := by
  refine any_of_map_eq h.filter fun filter => ?_
  rw [FilterRule.hasArguments, FilterRule.without, List.isEmpty_map]
  rfl

/-- Which arguments are required is no concern. -/
theorem Akin.filterRequiresArguments (h : Akin concerns l l') :
    Grammar.filterRequiresArguments l' = Grammar.filterRequiresArguments l := by
  refine any_of_map_eq h.filter fun filter => ?_
  rw [FilterRule.requiresArguments, FilterRule.without, List.head?_map, Option.any_map]
  rfl

/-- Both dialects count the same arguments. -/
theorem Akin.isLast (h : Akin concerns l l') : Grammar.isLast l' = Grammar.isLast l := by
  have hall (o : Option FilterRule) (i : Nat) :
      o.all (fun filter => filter.arguments.length ≤ i + 1) =
        !o.any fun filter => !decide (filter.arguments.length ≤ i + 1) := by
    cases o <;> simp
  show l'.isLastArgument = l.isLastArgument
  rw [isLastArgument, isLastArgument, h.argumentIndex, hall, hall]
  refine congrArg (!·) (any_of_map_eq h.filter fun filter => ?_)
  rw [FilterRule.without, List.length_map]

theorem Akin.hasNext (h : Akin concerns l l') : Grammar.hasNext l' = Grammar.hasNext l :=
  congrArg (!·) h.isLast

/-- Both dialects go on to the same argument. -/
theorem Akin.nextArgument (h : Akin concerns l l') :
    Akin concerns (Grammar.nextArgument l) (Grammar.nextArgument l') := by
  show Akin concerns l.nextArgument l'.nextArgument
  have hlast : l'.isLastArgument = l.isLastArgument := h.isLast
  rw [Lookup.nextArgument, Lookup.nextArgument, hlast]
  split
  · exact h
  · exact { h with argumentIndex := congrArg (· + 1) h.argumentIndex }

/-- The current arguments differ in no more than the filters do. -/
theorem Akin.argument? (h : Akin concerns l l') :
    l'.argument?.map (·.without concerns) = l.argument?.map (·.without concerns) := by
  have hargument (o : Option FilterRule) (i : Nat) :
      (o.bind (·.arguments[i]?)).map (ArgumentRule.without concerns) =
        (o.map (FilterRule.without concerns)).bind (·.arguments[i]?) := by
    cases o with
    | none => rfl
    | some filter =>
        show filter.arguments[i]?.map _ = (filter.arguments.map _)[i]?
        rw [List.getElem?_map]
  rw [Lookup.argument?, Lookup.argument?, h.argumentIndex, hargument, hargument, h.filter]

/-- How an argument is written is no concern. -/
theorem Akin.argumentKind? (h : Akin concerns l l') :
    Grammar.argumentKind? l' = Grammar.argumentKind? l := by
  have hmap := congrArg (Option.map ArgumentRule.kind) h.argument?
  rwa [Option.map_map, Option.map_map] at hmap

/-- Whether the argument may be left out is no concern. -/
theorem Akin.isRequired (h : Akin concerns l l') :
    Grammar.isRequired l' = Grammar.isRequired l :=
  any_of_map_eq h.argument? fun _ => rfl

/-- Where the types agree, the same values are accepted. -/
theorem Akin.accepts (h : Akin concerns l l') (ha : .arguments ∉ concerns) (value : ValueType) :
    Grammar.accepts l' value = Grammar.accepts l value := by
  refine any_of_map_eq h.argument? fun rule => ?_
  simp only [ArgumentRule.accepts, ArgumentRule.without, if_neg ha]

-- ── the object ───────────────────────────────────────────────────────────────────

/-- Whatever object is asked for, the tag and the filter stay. -/
theorem Akin.resolve_object (h : Akin concerns l l') (name : String) :
    Akin concerns (Grammar.resolve (Grammar.setExpect l .object) name)
      (Grammar.resolve (Grammar.setExpect l' .object) name) :=
  { h with }

theorem Akin.releaseObject (h : Akin concerns l l') :
    Akin concerns (Grammar.releaseObject l) (Grammar.releaseObject l') :=
  { h with }

/-- Going on to a property is about the object alone. -/
theorem Akin.enterProperty (h : Akin concerns l l') (name : String) :
    Akin concerns (Grammar.enterProperty l name) (Grammar.enterProperty l' name) := by
  show Akin concerns (l.enterProperty name) (l'.enterProperty name)
  obtain ⟨_, hl⟩ := l.enterProperty_eq name
  obtain ⟨_, hl'⟩ := l'.enterProperty_eq name
  rw [hl, hl']
  exact { h with }

/-- Where the objects agree, the same names are objects -/
theorem Akin.knows_object (h : Akin concerns l l') (ho : .objects ∉ concerns) (name : String) :
    Grammar.knows (Grammar.setExpect l' .object) name =
      Grammar.knows (Grammar.setExpect l .object) name := by
  show l'.dialect.objects.contains name = l.dialect.objects.contains name
  rw [h.dialect.objects ho]

/-- and have the same schemas. -/
theorem Akin.object_resolve (h : Akin concerns l l') (ho : .objects ∉ concerns) (name : String) :
    (Grammar.resolve (Grammar.setExpect l' .object) name).object =
      (Grammar.resolve (Grammar.setExpect l .object) name).object := by
  show l'.dialect.objects.get? name = l.dialect.objects.get? name
  rw [h.dialect.objects ho]

/-- The properties depend on the object alone. -/
theorem hasProperty?_of_object (h : l'.object = l.object) (name : String) :
    Grammar.hasProperty? l' name = Grammar.hasProperty? l name := by
  show l'.hasProperty? name = l.hasProperty? name
  rw [hasProperty?, hasProperty?, answer, answer, h]

/-- What a property holds depends on the object alone. -/
theorem object_enterProperty (h : l'.object = l.object) (name : String) :
    (Grammar.enterProperty l' name).object = (Grammar.enterProperty l name).object := by
  show (l'.enterProperty name).object = (l.enterProperty name).object
  rw [enterProperty, enterProperty, answer, answer, h]
  split <;> rfl

-- ── tracked HTML elements ────────────────────────────────────────────────────────

/-- Whether elements are tracked is the same, unless it is a concern. -/
theorem Akin.hasAssociates (h : Akin concerns l l') (ha : .associates ∉ concerns) :
    Grammar.hasAssociates l' = Grammar.hasAssociates l := by
  show l'.hasAssociates = l.hasAssociates
  rw [Lookup.hasAssociates, Lookup.hasAssociates, h.dialect.associates ha]

theorem Akin.isAssociate (h : Akin concerns l l') (ha : .associates ∉ concerns) (name : String) :
    Grammar.isAssociate l' name = Grammar.isAssociate l name := by
  show l'.isAssociate name = l.isAssociate name
  rw [Lookup.isAssociate, Lookup.isAssociate, h.dialect.associates ha]

end Lookup

end TemplateScan
