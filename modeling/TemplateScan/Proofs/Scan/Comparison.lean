import TemplateScan.Proofs.Dialect.Concerns
import TemplateScan.Proofs.Scan.PrintedTags
import TemplateScan.Proofs.Scan.Twins

/-! # Comparisons — one tag scanned under two dialects

    Two dialects that differ in a few concerns lead the scanner through a tag in the same steps: a
    concern decides what a token is called, and not where it ends or what comes next.  There is one
    exception: a name that an argument does not accept is not followed by the path that may begin
    with it, so behind such a name the two scans are parted until the argument ends.

    The step functions are gone through once for all concerns.  What the two scans have recorded of
    blocks around the tag may be related in any way that opening and closing blocks respects.

    * **`Reclassified`** — the tokens that are called otherwise under another dialect.
    * **`Comparison`** — the concerns, and how the records of blocks are related.
    * **`Comparison.Alike`** — two machines that go on in the same way.
    * **`Comparison.Parted`** — two machines of which one has had its argument rejected.
    * **`Comparison.Alike.step_inTag`** — inside a tag machines stay alike, or are parted. -/

namespace TemplateScan

open Text

-- ── tokens that are called otherwise ─────────────────────────────────────────────

/-- The kind of token is that of a value of the given type. -/
inductive TokenKind.HasType : TokenKind → ValueType → Prop where
  | string : HasType .string .string
  | integer : HasType .integer .integer
  | float : HasType .float .float
  | boolean : HasType .boolean .boolean
  | object : HasType .object .reference
  | variableName : HasType .variableName .reference

/-- A token of the given text may be of the one kind or of the other, depending on what a dialect
    with the tags of `d` says in the concern. -/
inductive Reclassified (d : Dialect) (text : List Char) :
    Concern → TokenKind → TokenKind → Prop where
  | object : Reclassified d text .objects .object .variableName
  | property : Reclassified d text .objects (.invalid .unknownProperty) .property
  | propertyString : Reclassified d text .objects (.invalid .unknownProperty) .propertyString
  /-- A misplaced tag has the token of the tag that its name stands for, but for its kind. -/
  | misplaced {rule : TagRule} (h : d.tags.get? (String.ofList text) = some rule) :
      Reclassified d text .placements (.invalid .misplacedTag) rule.identity.1
  | rejected {value : ValueType} {kind : TokenKind} (h : kind.HasType value) :
      Reclassified d text .arguments (.invalid (.rejected value)) kind

/-- The kinds are the same, or differ because of one of the concerns. -/
def TokenKind.Kindred (concerns : List Concern) (d : Dialect) (text : List Char)
    (kind kind' : TokenKind) : Prop :=
  kind' = kind ∨ ∃ concern ∈ concerns,
    Reclassified d text concern kind kind' ∨ Reclassified d text concern kind' kind

/-- The events are the same, or tokens whose kinds differ because of one of the concerns. -/
inductive Event.Kindred (concerns : List Concern) (d : Dialect) (text : List Char) :
    Event → Event → Prop where
  | same (event : Event) : Kindred concerns d text event event
  | token {kind kind' : TokenKind} (h : kind.Kindred concerns d text kind') :
      Kindred concerns d text (.token kind) (.token kind')

/-- The tokens have the same place, and their kinds are the same or differ because of one of the
    concerns. -/
structure Token.Kindred (concerns : List Concern) (d : Dialect) (document : Document)
    (token token' : Token) : Prop where
  span : token'.span = token.span
  kind : ∃ text, token.text? document = some text ∧
    token.kind.Kindred concerns d text token'.kind

-- ── records of blocks ────────────────────────────────────────────────────────────

/-- What a machine has recorded of tags and blocks. -/
structure Ledger where
  /-- The number of the tag being scanned. -/
  node : Nat
  blocks : Blocks
  nodes : Nat
  pair : Option Nat
  notices : List Notice
  flushed : Bool

namespace Ledger

/-- A tag has been opened. -/
def openTag (l : Ledger) : Ledger :=
  { l with node := l.nodes, nodes := l.nodes + 1, pair := none }

/-- The tag being scanned has opened a block. -/
def push (l : Ledger) (name : String) (span : Span) : Ledger :=
  { l with blocks := l.blocks.push ⟨name, l.node, span⟩ }

/-- The nearest block of the name has been closed. -/
def close (l : Ledger) (name : String) : Ledger :=
  { l with pair := (l.blocks.nearest? name).map Block.node, blocks := l.blocks.close name }

end Ledger

/-- What the machine has recorded. -/
def Machine.ledger {γ : Type} (m : Machine γ) : Ledger where
  node := m.tag.node
  blocks := m.blocks
  nodes := m.nodes
  pair := m.pair
  notices := m.notices
  flushed := m.flushed

-- ── comparisons ──────────────────────────────────────────────────────────────────

/-- The concerns in which the dialects of two scans differ, and how the records of the two scans
    are related.  The names of tags hold no angle bracket. -/
structure Comparison where
  concerns : List Concern
  /-- The concerns in which tokens may show a difference: no token inside a tag has to do with
      associates, and the places of tags are decided by the records, too. -/
  causes : List Concern
  concerns_subset : ∀ concern ∈ concerns, concern ≠ .associates → concern ∈ causes
  ledgers : Ledger → Ledger → Prop
  openTag {l l' : Ledger} : ledgers l l' → ledgers l.openTag l'.openTag
  push {l l' : Ledger} {name : String} (span : Span) :
    '<' ∉ name.toList → ledgers l l' → ledgers (l.push name span) (l'.push name span)
  close {l l' : Ledger} {name : String} :
    '<' ∉ name.toList → ledgers l l' → ledgers (l.close name) (l'.close name)

/-- The phase is one of a path. -/
def Phase.inPath : Phase → Bool
  | .path _ _ => true
  | _ => false

/-- The phase is one in which brackets may be open. -/
def Phase.mayHoldBrackets : Phase → Bool
  | .path _ _ | .close _ => true
  | _ => false

/-- Outside tags no brackets are open. -/
theorem Phase.mayHoldBrackets_of_outside {p : Phase} (h : p.inTag = false) :
    p.mayHoldBrackets = false := by
  cases p with
  | path _ _ | close _ => cases h
  | _ => rfl

/-- Behind a value the path has ended. -/
theorem Resume.inPath_phase (resume : Resume) : resume.phase.inPath = false := by
  cases resume <;> rfl

namespace Comparison

variable {C : Comparison} {m m' : Machine Lookup} {d : Dialect} {text : List Char}
  {r : Reader} {kind kind' : TokenKind} {n : Nat} {p : Phase} {fault : Fault} {ending : Bool}
  {resume : Resume}

/-- The machines agree in all but what the concerns are about and the phase. -/
structure Akin (C : Comparison) (m m' : Machine Lookup) : Prop where
  body : m'.body = m.body
  brackets : m'.brackets = m.brackets
  form : m'.tag.form = m.tag.form
  start : m'.tag.start = m.tag.start
  lookups : m.grammar.Akin C.concerns m'.grammar
  ledgers : C.ledgers m.ledger m'.ledger

/-- No bracket is open, either. -/
structure Settled (C : Comparison) (m m' : Machine Lookup) : Prop extends C.Akin m m' where
  closed : m.brackets = ∅

/-- The machines are in the same phase, in which the same is known of an object, if objects are no
    concern. -/
structure Alike (C : Comparison) (m m' : Machine Lookup) : Prop extends C.Akin m m' where
  phase : m'.phase = m.phase
  object : m.phase.inPath = true → .objects ∉ C.concerns → m'.grammar.object = m.grammar.object
  closed : m.phase.mayHoldBrackets = false → m.brackets = ∅

/-- The same text is taken, as tokens whose kinds differ because of the concerns at most, and the
    machines left are alike. -/
structure Matched (C : Comparison) (d : Dialect) (r : Reader) (reply reply' : Reply Lookup) :
    Prop where
  extent : reply'.extent = reply.extent
  event : reply.event.Kindred C.causes d (reply.extent.apply r).token reply'.event
  machine : C.Alike reply.machine reply'.machine

/-- Replies chosen by the same condition match when both choices do. -/
theorem Matched.ite {c : Prop} [Decidable c] {a b a' b' : Reply Lookup}
    (ha : C.Matched d r a a') (hb : C.Matched d r b b') :
    C.Matched d r (if c then a else b) (if c then a' else b') := by
  split
  · exact ha
  · exact hb

-- ── machines ─────────────────────────────────────────────────────────────────────

/-- Machines stay akin under any grammars that are. -/
theorem Akin.withGrammar (h : C.Akin m m') {g g' : Lookup} (hg : g.Akin C.concerns g') :
    C.Akin { m with grammar := g } { m' with grammar := g' } :=
  { h with lookups := hg }

/-- Between values, too, only the relation of the grammars matters. -/
theorem Settled.withGrammar (h : C.Settled m m') {g g' : Lookup} (hg : g.Akin C.concerns g') :
    C.Settled { m with grammar := g } { m' with grammar := g' } :=
  ⟨h.toAkin.withGrammar hg, h.closed⟩

/-- The same change of the brackets leaves the machines akin. -/
theorem Akin.mapBrackets (h : C.Akin m m') (change : Brackets → Brackets) :
    C.Akin { m with brackets := change m.brackets } { m' with brackets := change m'.brackets } :=
  { h with brackets := congrArg change h.brackets }

/-- With the tag its brackets, its filter and its object are left behind. -/
theorem Akin.leaveTag (h : C.Akin m m') : C.Settled m.leaveTag m'.leaveTag :=
  ⟨{ h with brackets := rfl, lookups := h.lookups.resetFilter.releaseObject }, rfl⟩

theorem Settled.forgetFilter (h : C.Settled m m') : C.Settled m.forgetFilter m'.forgetFilter :=
  h.withGrammar h.lookups.resetFilter

theorem Settled.nextArgument (h : C.Settled m m') : C.Settled m.nextArgument m'.nextArgument :=
  h.withGrammar h.lookups.nextArgument

theorem Akin.releaseObject (h : C.Akin m m') : C.Akin m.releaseObject m'.releaseObject :=
  h.withGrammar h.lookups.releaseObject

-- ── replies ──────────────────────────────────────────────────────────────────────

/-- Tokens of kindred kinds and of the same length match, if the object is known alike in a path,
    and brackets are closed where none may be open. -/
theorem Akin.emit (h : C.Akin m m') (hk : kind.Kindred C.causes d (r.rest.take n) kind')
    (ho : p.inPath = true → .objects ∉ C.concerns → m'.grammar.object = m.grammar.object)
    (hb : p.mayHoldBrackets = false → m.brackets = ∅) :
    C.Matched d r (m.emit kind n p) (m'.emit kind' n p) where
  extent := rfl
  event := .token hk
  machine := { h with phase := rfl, object := ho, closed := hb }

theorem Akin.emit_close (h : C.Akin m m') :
    C.Matched d r (m.emit kind n (.close ending)) (m'.emit kind n (.close ending)) :=
  h.emit (Or.inl rfl) (by rintro ⟨⟩) (by rintro ⟨⟩)

/-- Within a path the object must be known alike. -/
theorem Akin.emit_path (h : C.Akin m m') (hk : kind.Kindred C.causes d (r.rest.take n) kind')
    (ho : .objects ∉ C.concerns → m'.grammar.object = m.grammar.object) {phase : PathPhase} :
    C.Matched d r (m.emit kind n (.path phase resume)) (m'.emit kind' n (.path phase resume)) :=
  h.emit hk (fun _ => ho) (by rintro ⟨⟩)

/-- Outside paths the kinds alone may differ. -/
theorem Settled.emit_as (h : C.Settled m m') (hk : kind.Kindred C.causes d (r.rest.take n) kind')
    (hp : p.inPath = false) : C.Matched d r (m.emit kind n p) (m'.emit kind' n p) :=
  h.toAkin.emit hk (fun hin => absurd (hp.symm.trans hin) Bool.false_ne_true) fun _ => h.closed

theorem Settled.emit (h : C.Settled m m') (hp : p.inPath = false) :
    C.Matched d r (m.emit kind n p) (m'.emit kind n p) :=
  h.emit_as (Or.inl rfl) hp

-- ── the end of the tag ───────────────────────────────────────────────────────────

/-- The end of a tag is scanned alike: brackets and form are the same. -/
theorem Akin.close (h : C.Akin m m') :
    C.Matched d r (m.close ending r.rest) (m'.close ending r.rest) := by
  have hempty : m'.brackets.isEmpty = m.brackets.isEmpty := by rw [h.brackets]
  simp only [Machine.close, h.form, hempty]
  refine .ite ?_ (.ite ?_ ?_)
  · exact (h.mapBrackets Brackets.pop).emit_close
  · exact h.emit_close
  · split
    · exact h.emit_close
    · refine .ite ?_ ?_
      · exact h.leaveTag.emit rfl
      · split
        · exact h.emit_close
        · exact h.leaveTag.emit rfl

/-- Both scans recover at the same place, for it is found in the text. -/
theorem Akin.recover (h : C.Akin m m') :
    C.Matched d r (m.recover fault r.rest) (m'.recover fault r.rest) := by
  rw [Machine.recover, Machine.recover, h.form]
  exact h.emit_close

/-- What is out of place for one scan is so for the other. -/
theorem Akin.unexpected (h : C.Akin m m') :
    C.Matched d r (m.unexpected r.rest) (m'.unexpected r.rest) := by
  rw [Machine.unexpected, Machine.unexpected, h.form]
  split
  · exact h.close
  · exact h.recover

/-- Both scans pass over the same rest. -/
theorem Akin.skipRest (h : C.Akin m m') :
    C.Matched d r (m.skipRest r.rest) (m'.skipRest r.rest) := by
  simp only [Machine.skipRest, h.form]
  exact .ite h.close h.emit_close

-- ── values ───────────────────────────────────────────────────────────────────────

/-- A name is an object or a variable, as the objects of the dialect have it. -/
theorem Akin.referenceKind (h : C.Akin m m') (name : List Char) {bare : TokenKind}
    (hb : bare = .object ∨ bare = .variableName) :
    (m.referenceKind name bare).Kindred C.causes d text (m'.referenceKind name bare) := by
  by_cases ho : .objects ∈ C.concerns
  · rw [Machine.referenceKind, Machine.referenceKind]
    rcases hb with rfl | rfl
    · rw [ite_self, ite_self]
      exact Or.inl rfl
    · split
      · split
        · exact Or.inl rfl
        · exact Or.inr ⟨_, C.concerns_subset _ ho (by decide), Or.inl .object⟩
      · split
        · exact Or.inr ⟨_, C.concerns_subset _ ho (by decide), Or.inr .object⟩
        · exact Or.inl rfl
  · left
    rw [Machine.referenceKind, Machine.referenceKind, h.lookups.knows_object ho]

/-- Both scans begin the path with the same name, and know as much of the object if objects are no
    concern. -/
theorem Akin.beginPath (h : C.Akin m m') {name : List Char}
    (hk : kind.Kindred C.causes d (r.rest.take name.length) kind') :
    C.Matched d r (m.beginPath name kind resume) (m'.beginPath name kind' resume) :=
  (h.withGrammar (h.lookups.resolve_object (String.ofList name))).emit_path hk fun ho =>
    h.lookups.object_resolve ho (String.ofList name)

/-- The value that is expected is the same; a name may be an object for one scan and a variable for
    the other. -/
theorem Settled.expectValue (h : C.Settled m m') {bare : TokenKind}
    (hb : bare = .object ∨ bare = .variableName) :
    C.Matched d r (m.expectValue fault bare resume r.rest)
      (m'.expectValue fault bare resume r.rest) := by
  have hresume : resume.phase.inPath = false := resume.inPath_phase
  rw [Machine.expectValue, Machine.expectValue, Machine.value?, Machine.value?, h.form]
  refine .ite h.emit_close ?_
  split
  · exact h.emit hresume
  · exact h.emit_close
  · split
    · exact h.emit hresume
    · split
      · exact h.emit hresume
      · cases identifier? r.rest with
        | some name => exact h.beginPath (h.referenceKind name hb)
        | none => exact h.unexpected

-- ── filters ──────────────────────────────────────────────────────────────────────

/-- A pipe leads both scans to the name of a filter. -/
theorem Settled.pipe (h : C.Settled m m') :
    C.Matched d r (m.stepPipe r.rest) (m'.stepPipe r.rest) := by
  rw [Machine.stepPipe, Machine.stepPipe, h.form]
  exact .ite (h.emit rfl) (.ite h.close h.unexpected)

/-- The two dialects know the same filters. -/
theorem Settled.filterName (h : C.Settled m m') :
    C.Matched d r (m.stepFilterName r.rest) (m'.stepFilterName r.rest) := by
  simp only [Machine.stepFilterName, h.form, h.lookups.knows_filter]
  split
  · next name _ =>
      have hnext := h.withGrammar (h.lookups.resolve_filter (String.ofList name))
      exact .ite (hnext.emit rfl) (hnext.emit rfl)
  · exact .ite h.emit_close h.recover

/-- The two dialects agree on which filters take arguments, and which require them. -/
theorem Settled.colon (h : C.Settled m m') :
    C.Matched d r (m.stepColon r.rest) (m'.stepColon r.rest) := by
  rw [Machine.stepColon, Machine.stepColon, h.lookups.filterTakesArguments,
    h.lookups.filterRequiresArguments]
  refine .ite (.ite ?_ ?_) (.ite ?_ ?_)
  · exact h.emit rfl
  · exact h.recover
  · exact h.forgetFilter.emit rfl
  · exact h.forgetFilter.pipe

/-- The two dialects agree on how many arguments there are, and on which may be left out or
    repeated. -/
theorem Settled.separator (h : C.Settled m m') :
    C.Matched d r (m.stepSeparator r.rest) (m'.stepSeparator r.rest) := by
  have hspread : m'.inSpread = m.inSpread := by
    rw [Machine.inSpread, Machine.inSpread, h.lookups.argumentKind?]
  have hrequired : Grammar.isRequired m'.nextArgument.grammar =
      Grammar.isRequired m.nextArgument.grammar := h.nextArgument.lookups.isRequired
  rw [Machine.stepSeparator, Machine.stepSeparator, h.form, hspread, h.lookups.isLast,
    h.lookups.hasNext, hrequired]
  refine .ite (.ite ?_ (.ite ?_ ?_)) (.ite (.ite ?_ (.ite ?_ ?_)) ?_)
  · exact h.emit rfl
  · exact h.recover
  · exact h.nextArgument.emit rfl
  · exact h.forgetFilter.pipe
  · exact h.nextArgument.forgetFilter.emit rfl
  · exact h.nextArgument.forgetFilter.pipe
  · split
    · exact h.close
    · exact h.recover

/-- A value that is not accepted is taken all the same, as an error. -/
theorem Settled.acceptArgument (h : C.Settled m m') {value : ValueType}
    (hk : kind.HasType value) :
    C.Matched d r (m.acceptArgument value kind n) (m'.acceptArgument value kind n) := by
  refine h.emit_as ?_ rfl
  by_cases ha : .arguments ∈ C.concerns
  · split
    · split
      · exact Or.inl rfl
      · exact Or.inr ⟨_, C.concerns_subset _ ha (by decide), Or.inr (.rejected hk)⟩
    · split
      · exact Or.inr ⟨_, C.concerns_subset _ ha (by decide), Or.inl (.rejected hk)⟩
      · exact Or.inl rfl
  · rw [h.lookups.accepts ha]
    exact Or.inl rfl

-- ── names that are not accepted ──────────────────────────────────────────────────

/-- One machine may go on with a path, and the other, whose name has been rejected, goes on behind
    the argument. -/
structure Parted (C : Comparison) (m m' : Machine Lookup) : Prop extends C.Settled m m' where
  phases : m.phase = .filter .separator ∧ m'.phase = .path .member .arguments ∨
    m.phase = .path .member .arguments ∧ m'.phase = .filter .separator

/-- The same name is taken by both, and rejected by one of them. -/
structure Departs (C : Comparison) (reply reply' : Reply Lookup) : Prop where
  concern : .arguments ∈ C.concerns
  extent : reply'.extent = reply.extent
  event : ∃ kind : TokenKind, kind.HasType .reference ∧
    (reply.event = .token (.invalid (.rejected .reference)) ∧ reply'.event = .token kind ∨
      reply.event = .token kind ∧ reply'.event = .token (.invalid (.rejected .reference)))
  machine : C.Parted reply.machine reply'.machine

/-- A name given as an argument is a reference, object or not. -/
theorem hasType_referenceKind (m : Machine Lookup) (name : List Char) :
    (m.referenceKind name .variableName).HasType .reference := by
  rw [Machine.referenceKind]
  split
  · exact .object
  · exact .variableName

/-- A name is accepted by both, rejected by both, or rejected by one: then the scans part. -/
theorem Settled.acceptReference (h : C.Settled m m') (name : List Char) :
    C.Matched d r (m.acceptReference name) (m'.acceptReference name) ∨
      C.Departs (m.acceptReference name) (m'.acceptReference name) := by
  have hresolve := h.lookups.resolve_object (String.ofList name)
  have htype := hasType_referenceKind m name
  have htype' := hasType_referenceKind m' name
  have haccept : C.Matched d r (m.beginPath name (m.referenceKind name .variableName) .arguments)
      (m'.beginPath name (m'.referenceKind name .variableName) .arguments) :=
    h.beginPath (h.referenceKind name (Or.inr rfl))
  have hreject : C.Matched d r (m.report (.rejected .reference) name.length (.filter .separator))
      (m'.report (.rejected .reference) name.length (.filter .separator)) := h.emit rfl
  rw [Machine.acceptReference, Machine.acceptReference]
  by_cases ha : .arguments ∈ C.concerns
  · -- where the two dialects disagree, one goes on with the path and the other behind the argument
    split
    · split
      · exact Or.inl haccept
      · exact Or.inr ⟨ha, rfl, ⟨_, htype, Or.inr ⟨rfl, rfl⟩⟩,
          { h with lookups := { hresolve with }, phases := Or.inr ⟨rfl, rfl⟩ }⟩
    · split
      · exact Or.inr ⟨ha, rfl, ⟨_, htype', Or.inl ⟨rfl, rfl⟩⟩,
          { h with lookups := { hresolve with }, phases := Or.inl ⟨rfl, rfl⟩ }⟩
      · exact Or.inl hreject
  · rw [h.lookups.accepts ha]
    split
    · exact Or.inl haccept
    · exact Or.inl hreject

/-- Only a name makes the two scans part; any other value ends where it does. -/
theorem Settled.argumentValue (h : C.Settled m m') :
    C.Matched d r (m.stepArgumentValue r.rest) (m'.stepArgumentValue r.rest) ∨
      C.Departs (m.stepArgumentValue r.rest) (m'.stepArgumentValue r.rest) := by
  rw [Machine.stepArgumentValue, Machine.stepArgumentValue, h.form]
  split
  · exact Or.inl h.forgetFilter.emit_close
  · split
    · exact Or.inl (h.forgetFilter.emit rfl)
    · split
      · exact Or.inl (h.acceptArgument .string)
      · exact Or.inl h.emit_close
      · split
        · exact Or.inl (h.acceptArgument .integer)
        · exact Or.inl (h.acceptArgument .float)
        · split
          · exact Or.inl (h.acceptArgument .boolean)
          · split
            · exact h.acceptReference _
            · exact Or.inl h.unexpected

/-- The two dialects agree on how the argument is written. -/
theorem Settled.argument (h : C.Settled m m') :
    C.Matched d r (m.stepArgument r.rest) (m'.stepArgument r.rest) ∨
      C.Departs (m.stepArgument r.rest) (m'.stepArgument r.rest) := by
  rw [Machine.stepArgument, Machine.stepArgument, h.lookups.argumentKind?]
  split
  · exact Or.inl h.skipRest
  · exact h.argumentValue
  · exact Or.inl h.close

theorem Settled.filter (h : C.Settled m m') {phase : FilterPhase} :
    C.Matched d r (m.stepFilter phase r.rest) (m'.stepFilter phase r.rest) ∨
      C.Departs (m.stepFilter phase r.rest) (m'.stepFilter phase r.rest) := by
  cases phase with
  | pipe => exact Or.inl h.pipe
  | name => exact Or.inl h.filterName
  | colon => exact Or.inl h.colon
  | argument => exact h.argument
  | separator => exact Or.inl h.separator

-- ── conditions ───────────────────────────────────────────────────────────────────

/-- Operators are the same in all dialects. -/
theorem Settled.operator (h : C.Settled m m') :
    C.Matched d r (m.stepOperator r.rest) (m'.stepOperator r.rest) := by
  rw [Machine.stepOperator, Machine.stepOperator, h.form]
  refine .ite h.close ?_
  split
  · exact h.emit rfl
  · exact .ite (h.emit rfl) h.recover

/-- The two dialects agree on which tags take arguments. -/
theorem Settled.control (h : C.Settled m m') {phase : ControlPhase} :
    C.Matched d r (m.stepControl phase r.rest) (m'.stepControl phase r.rest) := by
  cases phase with
  | start =>
      rw [Machine.stepControl, Machine.stepControl, h.lookups.hasArguments]
      exact .ite (h.expectValue (Or.inr rfl)) h.close
  | condition => exact h.expectValue (Or.inr rfl)
  | operator => exact h.operator

-- ── loops ────────────────────────────────────────────────────────────────────────

/-- Ranges are the same in all dialects. -/
theorem Settled.range (h : C.Settled m m') :
    C.Matched d r (m.stepRange r.rest) (m'.stepRange r.rest) := by
  rw [Machine.stepRange, Machine.stepRange, h.form]
  split
  · exact .ite (h.emit rfl) (h.emit rfl)
  · exact h.recover

/-- The collection is the same range, or begins with the same name. -/
theorem Settled.collection (h : C.Settled m m') :
    C.Matched d r (m.stepCollection r.rest) (m'.stepCollection r.rest) := by
  rw [Machine.stepCollection, Machine.stepCollection, h.form]
  refine .ite h.emit_close (.ite h.range ?_)
  split
  · exact h.beginPath (Or.inl rfl)
  · exact h.recover

/-- The two dialects agree on the parameters of a loop. -/
theorem Settled.parameter (h : C.Settled m m') :
    C.Matched d r (m.stepParameter r.rest) (m'.stepParameter r.rest) := by
  simp only [Machine.stepParameter, h.form, h.lookups.parameter?]
  refine .ite h.close ?_
  split
  · split
    · exact h.emit rfl
    · exact h.emit rfl
    · exact h.emit rfl
  · exact h.unexpected

/-- The value of a parameter is the same number, or begins with the same name. -/
theorem Settled.parameterValue (h : C.Settled m m') :
    C.Matched d r (m.stepParameterValue r) (m'.stepParameterValue r) := by
  rw [Machine.stepParameterValue, Machine.stepParameterValue, h.form]
  refine .ite (h.emit rfl) (.ite h.emit_close (.ite h.recover ?_))
  split
  · exact h.emit rfl
  · split
    · exact h.beginPath (Or.inl rfl)
    · exact h.recover

theorem Settled.loop (h : C.Settled m m') {phase : LoopPhase} :
    C.Matched d r (m.stepLoop phase r) (m'.stepLoop phase r) := by
  cases phase with
  | variableName =>
      simp only [Machine.stepLoop, Machine.stepLoopVariable, h.form]
      split
      · exact h.emit rfl
      · exact .ite h.emit_close h.recover
  | operator =>
      simp only [Machine.stepLoop, Machine.stepLoopOperator, h.form]
      exact .ite (h.emit rfl) (.ite h.emit_close h.recover)
  | collection => exact h.collection
  | parameter => exact h.parameter
  | parameterValue => exact h.parameterValue

-- ── assignments ──────────────────────────────────────────────────────────────────

/-- The two dialects agree on whether a value must be assigned. -/
theorem Settled.assignment (h : C.Settled m m') {phase : AssignmentPhase} :
    C.Matched d r (m.stepAssignment phase r.rest) (m'.stepAssignment phase r.rest) := by
  cases phase with
  | name =>
      simp only [Machine.stepAssignment, Machine.stepAssignedName, h.form]
      split
      · exact h.emit rfl
      · exact .ite h.emit_close h.recover
  | operator =>
      have hmust : m'.mustAssign = m.mustAssign := by
        rw [Machine.mustAssign, Machine.mustAssign, h.lookups.hasArguments, h.lookups.isBlock]
      simp only [Machine.stepAssignment, Machine.stepAssignmentOperator, h.form, hmust]
      exact .ite (h.emit rfl) (.ite (.ite h.emit_close h.close) h.recover)
  | value => exact h.expectValue (Or.inr rfl)

-- ── paths ────────────────────────────────────────────────────────────────────────

/-- The same bracket is closed; behind one whose key is a path, neither scan knows the object. -/
theorem Akin.keyEnd (h : C.Akin m m')
    (ho : .objects ∉ C.concerns → m'.grammar.object = m.grammar.object) :
    C.Matched d r (m.stepKeyEnd resume r.rest) (m'.stepKeyEnd resume r.rest) := by
  have hinner : m'.brackets.innermost? = m.brackets.innermost? := by rw [h.brackets]
  rw [Machine.stepKeyEnd, Machine.stepKeyEnd, h.form, hinner]
  refine .ite ?_ (.ite h.close h.recover)
  split
  · exact h.recover
  · next bracket _ =>
      cases bracket.dynamic with
      | true =>
          exact (h.releaseObject.mapBrackets Brackets.pop).emit_path (Or.inl rfl) fun _ => rfl
      | false => exact (h.mapBrackets Brackets.pop).emit_path (Or.inl rfl) ho

/-- Behind a value both scans go back to the same place. -/
theorem Settled.stepResume (h : C.Settled m m') :
    C.Matched d r (m.stepResume resume r.rest) (m'.stepResume resume r.rest) := by
  cases resume with
  | filters => exact h.pipe
  | condition => exact h.operator
  | parameters => exact h.parameter
  | arguments => exact h.separator

/-- Where a path may go on, it does so for both scans, or has ended for both. -/
theorem Akin.member (h : C.Akin m m')
    (ho : .objects ∉ C.concerns → m'.grammar.object = m.grammar.object) :
    C.Matched d r (m.stepMember resume r) (m'.stepMember resume r) := by
  have hempty : m'.brackets.isEmpty = m.brackets.isEmpty := by rw [h.brackets]
  rw [Machine.stepMember, Machine.stepMember, hempty]
  split
  · exact .ite (h.emit_path (Or.inl rfl) ho) (.ite h.recover h.recover)
  · exact (h.mapBrackets (·.push r.offset)).emit_path (Or.inl rfl) ho
  · split
    · exact h.keyEnd ho
    · next hopen =>
        refine .ite h.recover ?_
        have hsettled : C.Settled m m' := ⟨h, Brackets.eq_empty_of_isEmpty (by simpa using hopen)⟩
        exact (hsettled.withGrammar h.lookups.releaseObject).stepResume

/-- A property may be unknown to one of the two dialects, and then is an error there. -/
theorem Akin.takeProperty (h : C.Akin m m')
    (ho : .objects ∉ C.concerns → m'.grammar.object = m.grammar.object) {name : List Char}
    (hk : kind = .property ∨ kind = .propertyString) {phase : PathPhase} :
    C.Matched d r (m.takeProperty name kind n (.path phase resume))
      (m'.takeProperty name kind n (.path phase resume)) := by
  refine (h.withGrammar (h.lookups.enterProperty (String.ofList name))).emit_path ?_ fun hc =>
    Lookup.object_enterProperty (ho hc) (String.ofList name)
  by_cases hc : .objects ∈ C.concerns
  · have hreclassified :
        Reclassified d (r.rest.take n) .objects (.invalid .unknownProperty) kind := by
      rcases hk with rfl | rfl
      · exact .property
      · exact .propertyString
    split
    · split
      · exact Or.inl rfl
      · exact Or.inr ⟨_, C.concerns_subset _ hc (by decide), Or.inl hreclassified⟩
    · split
      · exact Or.inr ⟨_, C.concerns_subset _ hc (by decide), Or.inr hreclassified⟩
      · exact Or.inl rfl
  · rw [Lookup.hasProperty?_of_object (ho hc)]
    exact Or.inl rfl

/-- The key in a bracket is the same, whatever is known of the object. -/
theorem Akin.key (h : C.Akin m m')
    (ho : .objects ∉ C.concerns → m'.grammar.object = m.grammar.object) :
    C.Matched d r (m.stepKey resume r.rest) (m'.stepKey resume r.rest) := by
  simp only [Machine.stepKey, h.form]
  refine .ite (h.emit_path (Or.inl rfl) ho) (.ite h.emit_close ?_)
  split
  · exact .ite (h.emit_path (Or.inl rfl) ho) (h.takeProperty ho (Or.inr rfl))
  · exact h.emit_close
  · split
    · exact h.releaseObject.emit_path (Or.inl rfl) fun _ => rfl
    · split
      · next name _ =>
          refine (h.releaseObject.mapBrackets Brackets.markDynamic).beginPath ?_
          exact h.releaseObject.referenceKind name (Or.inr rfl)
      · exact h.releaseObject.unexpected

theorem Akin.path (h : C.Akin m m')
    (ho : .objects ∉ C.concerns → m'.grammar.object = m.grammar.object) {phase : PathPhase} :
    C.Matched d r (m.stepPath phase resume r) (m'.stepPath phase resume r) := by
  cases phase with
  | member => exact h.member ho
  | dot =>
      simp only [Machine.stepPath, Machine.stepDot]
      split
      · exact h.takeProperty ho (Or.inl rfl)
      · exact h.recover
  | key => exact h.key ho
  | keyEnd => exact h.keyEnd ho

-- ── the names of tags ────────────────────────────────────────────────────────────

/-- The block that the end tag names is closed. -/
theorem Settled.takeEndTag (h : C.Settled m m') (name : List Char) {block : List Char}
    (hb : '<' ∉ block) : C.Matched d r (m.takeEndTag name block) (m'.takeEndTag name block) where
  extent := by
    show Extent.takeFrom m'.tag.start name.length = Extent.takeFrom m.tag.start name.length
    rw [h.start]
  event := .same _
  machine :=
    { h with
      ledgers := C.close (by rwa [String.toList_ofList]) h.ledgers
      phase := rfl
      object := by rintro ⟨⟩
      closed := by rintro ⟨⟩ }

/-- The name of a tag is not followed by a path. -/
theorem inPath_identity (m : Machine Lookup) : m.identity.2.inPath = false := by
  rw [Machine.identity]
  split
  · rfl
  · split <;> first | rfl | (split <;> rfl)

/-- A tag is called what its rule says, or misplaced. -/
theorem Akin.identity (h : C.Akin m m')
    (hparent : .placements ∉ C.causes → m'.blocks.parent? = m.blocks.parent?)
    {rule : TagRule} (hrule : m.grammar.tagRule? = some rule)
    (hget : d.tags.get? (String.ofList text) = some rule) :
    (if m.isMisplaced then .invalid .misplacedTag else m.identity.1).Kindred C.causes d text
      (if m'.isMisplaced then .invalid .misplacedTag else m.identity.1) := by
  have hidentity : m.identity = rule.identity := Machine.identity_eq hrule
  rw [hidentity]
  by_cases hp : .placements ∈ C.causes
  · split
    · split
      · exact Or.inl rfl
      · exact Or.inr ⟨_, hp, Or.inl (.misplaced hget)⟩
    · split
      · exact Or.inr ⟨_, hp, Or.inr (.misplaced hget)⟩
      · exact Or.inl rfl
  · have hplace : m'.isMisplaced = m.isMisplaced := by
      rw [Machine.isMisplaced, Machine.isMisplaced, hparent hp]
      exact h.lookups.placement (fun hc => hp (C.concerns_subset _ hc (by decide))) m.blocks.parent?
    rw [hplace]
    exact Or.inl rfl

/-- A block is opened by both or by neither. -/
theorem Settled.takeStartTag (h : C.Settled m m')
    (hparent : .placements ∉ C.causes → m'.blocks.parent? = m.blocks.parent?)
    {rule : TagRule} {name : List Char}
    (hrule : m.grammar.tagRule? = some rule) (hget : d.tags.get? (String.ofList name) = some rule)
    (hname : '<' ∉ name) (htake : r.rest.take name.length = name) (document : Document) :
    C.Matched d r (m.takeStartTag name document) (m'.takeStartTag name document) := by
  have hidentity : m'.identity = m.identity := by
    rw [Machine.identity, Machine.identity, h.lookups.isSingular, h.lookups.kind?,
      h.lookups.hasArguments]
  have hbody : m'.bodyKind? = m.bodyKind? := by
    rw [Machine.bodyKind?, Machine.bodyKind?, h.lookups.isSingular, h.lookups.kind?,
      h.lookups.language?]
  have hopened : C.Settled { m with
        blocks := if Grammar.isBlock m.grammar then m.blocks.push (m.openedBlock name document)
          else m.blocks
        body := (m.bodyKind?.map (Body.mk name)).or m.body }
      { m' with
        blocks := if Grammar.isBlock m.grammar then m'.blocks.push (m'.openedBlock name document)
          else m'.blocks
        body := (m.bodyKind?.map (Body.mk name)).or m.body } := by
    cases Grammar.isBlock m.grammar with
    | false => exact { h with body := rfl }
    | true =>
        have hspan : m'.openedBlock name document =
            { m.openedBlock name document with node := m'.tag.node } := by
          rw [Machine.openedBlock, Machine.openedBlock, h.start, h.form]
        rw [hspan]
        exact { h with
          body := rfl
          ledgers := C.push (m.openedBlock name document).span (by rwa [String.toList_ofList])
            h.ledgers }
  simp only [Machine.takeStartTag, hidentity, hbody, h.body, h.lookups.isBlock]
  refine hopened.emit_as ?_ (inPath_identity m)
  rw [htake]
  exact h.identity hparent hrule hget

/-- The two dialects know the same tags, and each stands in the right place for both if places are
    no concern. -/
theorem Settled.tagName (h : C.Settled m m')
    (hparent : .placements ∉ C.causes → m'.blocks.parent? = m.blocks.parent?) :
    C.Matched m.grammar.dialect r (m.stepTagName r) (m'.stepTagName r) := by
  simp only [Machine.stepTagName, h.form, h.lookups.knows_tag]
  refine .ite h.emit_close (.ite h.emit_close ?_)
  split
  · exact h.recover
  · next name hname =>
      have hnext := h.withGrammar (h.lookups.resolve_tag (String.ofList name))
      split
      · next hknown =>
          obtain ⟨rule, hget⟩ := Option.isSome_iff_exists.mp hknown
          refine hnext.takeStartTag hparent ?_ hget (not_mem_identifier hname) ?_ r.document
          · show ((m.grammar.dialect.tags.get? (String.ofList name)).map fun rule =>
              (String.ofList name, rule)).map (·.2) = some rule
            rw [show m.grammar.dialect.tags.get? (String.ofList name) = some rule from hget]
            rfl
          · exact (List.prefix_iff_eq_take.mp (identifier?_eq_some hname).1).symm
      · exact hnext.emit rfl

/-- Behind the open delimiter both scans find the same dash, name or end tag. -/
theorem Settled.opened (h : C.Settled m m')
    (hparent : .placements ∉ C.causes → m'.blocks.parent? = m.blocks.parent?) :
    C.Matched m.grammar.dialect r (m.stepOpened r) (m'.stepOpened r) := by
  rw [Machine.stepOpened, Machine.stepOpened, h.form, h.start]
  refine .ite (h.emit rfl) ?_
  split
  · exact h.emit rfl
  · split
    · next name hname =>
        split
        · next block hblock =>
            refine h.takeEndTag name fun hmem => not_mem_identifier hname ?_
            rw [closedName?_eq_some hblock]
            exact List.mem_append_right _ hmem
        · exact h.tagName hparent
    · exact h.tagName hparent

-- ── any step inside a tag ────────────────────────────────────────────────────────

/-- Where no bracket may be open, none is. -/
theorem Alike.settled (h : C.Alike m m') (hp : m.phase.mayHoldBrackets = false) : C.Settled m m' :=
  ⟨h.toAkin, h.closed hp⟩

/-- In each phase inside a tag the scans match, or part behind a name that one of them rejects. -/
theorem Alike.stepPhase (h : C.Alike m m')
    (hparent : .placements ∉ C.causes → m'.blocks.parent? = m.blocks.parent?)
    (hp : m.phase.inTag = true) :
    C.Matched m.grammar.dialect r (m.stepPhase r) (m'.stepPhase r) ∨
      C.Departs (m.stepPhase r) (m'.stepPhase r) := by
  have hsettled := h.settled
  have hobject := h.object
  rw [Machine.stepPhase, Machine.stepPhase, h.phase]
  generalize m.phase = phase at hp hsettled hobject ⊢
  cases phase with
  | literal | markup _ => cases hp
  | opened => exact Or.inl ((hsettled rfl).opened hparent)
  | outputValue => exact Or.inl ((hsettled rfl).expectValue (Or.inl rfl))
  | unknownTag | skipRest => exact Or.inl h.skipRest
  | loop phase => exact Or.inl (hsettled rfl).loop
  | assignment phase => exact Or.inl (hsettled rfl).assignment
  | control phase => exact Or.inl (hsettled rfl).control
  | embedded =>
      left
      simp only [Machine.stepEmbedded, h.lookups.hasArguments]
      exact .ite h.skipRest h.close
  | path phase resume => exact Or.inl (h.path (hobject rfl))
  | filter phase => exact (hsettled rfl).filter
  | close ending => exact Or.inl h.close

/-- At the end of the document a tag without open brackets is left. -/
theorem Settled.stepEnd (h : C.Settled m m') (hp : m.phase.inTag = true)
    (hp' : m'.phase.inTag = true) (size : Nat) :
    C.Matched d r (m.stepEnd size) (m'.stepEnd size) := by
  have hempty : (!m.brackets.isEmpty) = false := by rw [h.closed]; rfl
  rw [Machine.stepEnd, Machine.stepEnd, if_pos hp, if_pos hp', h.brackets, hempty]
  exact h.leaveTag.emit rfl

/-- At the end of the document both scans report the same. -/
theorem Alike.stepEnd (h : C.Alike m m') (hp : m.phase.inTag = true) (size : Nat) :
    C.Matched d r (m.stepEnd size) (m'.stepEnd size) := by
  have hp' : m'.phase.inTag = true := by rwa [h.phase]
  have hempty : m'.brackets.isEmpty = m.brackets.isEmpty := by rw [h.brackets]
  rw [Machine.stepEnd, Machine.stepEnd, if_pos hp, if_pos hp', hempty, h.phase]
  refine .ite ?_ (h.leaveTag.emit rfl)
  refine (h.mapBrackets Brackets.pop).emit (Or.inl rfl) h.object fun hholds => ?_
  show m.brackets.pop = ∅
  rw [h.closed hholds]
  rfl

/-- **Inside a tag** two machines that are alike take the same text, and stay alike, unless a name
    is rejected by one of them. -/
theorem Alike.step_inTag (h : C.Alike m m')
    (hparent : .placements ∉ C.causes → m'.blocks.parent? = m.blocks.parent?)
    (hp : m.phase.inTag = true) (r : Reader) :
    C.Matched m.grammar.dialect r (m.step r) (m'.step r) ∨ C.Departs (m.step r) (m'.step r) := by
  have hliteral : m.phase ≠ .literal := by
    intro hliteral
    rw [hliteral] at hp
    cases hp
  rw [Machine.step, Machine.step, h.phase, if_neg hliteral, if_neg hliteral]
  split
  · exact Or.inl (h.stepEnd hp _)
  · dsimp only
    split
    · exact Or.inl (h.emit (Or.inl rfl) h.object h.closed)
    · split
      · exact Or.inl (h.emit (Or.inl rfl) h.object h.closed)
      · exact h.stepPhase hparent hp

-- ── between the tags ─────────────────────────────────────────────────────────────

/-- Both scans open the same tag, and record it. -/
theorem Akin.openTag (h : C.Akin m m') (form : TagForm) (offset : Nat) :
    C.Matched d r (m.openTag form offset) (m'.openTag form offset) := by
  have hlookups := h.lookups.resetFilter
  exact Settled.emit ⟨⟨h.body, rfl, rfl, rfl, { hlookups with }, C.openTag h.ledgers⟩, rfl⟩ rfl

/-- A body is passed over up to the same end tag. -/
theorem Settled.passBody (h : C.Settled m m') (body : Body) :
    C.Matched d r (m.stepBody body r.rest) (m'.stepBody body r.rest) := by
  rw [Machine.stepBody, Machine.stepBody]
  split
  · exact ⟨rfl, .same _, { h with
      body := rfl
      phase := rfl
      object := by rintro ⟨⟩
      closed := fun _ => h.closed }⟩
  · exact h.emit rfl

end Comparison

end TemplateScan
