import TemplateScan.Proofs.Scan.EndTag

/-! # Names of tags — one step takes the name of a tag, as its rule says

    Behind the open delimiter of a statement, the name of a tag that the dialect has is taken in one
    step.  The rule of the tag says all that the step does, but for the kind of its token: which one
    that is depends on the block inside which the tag stands as well.

    * **`TagRule.identity`**, **`TagRule.body?`** — how a tag of the rule goes on, and its body.
    * **`Machine.named`** — the machine once the name has been taken.
    * **`step_named_eq`** — the step. -/

namespace TemplateScan

open Text

-- ── what a rule says ─────────────────────────────────────────────────────────────

/-- The kind of token that the name of the tag becomes, and the phase in which the tag goes on. -/
def TagRule.identity (rule : TagRule) : TokenKind × Phase :=
  if rule.singular then (.singularTag, .skipRest)
  else match rule.kind with
  | .comment => (.comment, .skipRest)
  | .raw => (.startTag, .skipRest)
  | .embedded => (.embeddedTag, .embedded)
  | .control => (.control, .control .start)
  | .iteration => (.iteration, .loop .variableName)
  | .assignment => (.assignment, .assignment .name)
  | .output => (.startTag, .outputValue)
  | .inclusion | .other => (.startTag, if rule.arguments then .skipRest else .close false)

/-- The kind of token that the body of the tag becomes, when it is passed over. -/
def TagRule.body? (rule : TagRule) : Option TokenKind :=
  if rule.singular then none
  else match rule.kind with
  | .comment => some .comment
  | .raw => some .rawBody
  | .embedded => some (.embeddedBody rule.language)
  | _ => none

/-- Once its name has been taken, a tag waits for no other. -/
theorem TagRule.isNamed_identity (rule : TagRule) : rule.identity.2.isNamed = true := by
  unfold identity
  split
  · rfl
  · split
    all_goals first | rfl | (split <;> rfl)

namespace Machine

variable {m : Machine Lookup} {r : Reader} {name : List Char} {rule : TagRule}

/-- What is asked of a lookup about the name of a tag is what the rule of the tag says. -/
theorem identity_eq (h : m.grammar.tagRule? = some rule) : m.identity = rule.identity := by
  have hsingular : Grammar.isSingular m.grammar = rule.singular := by
    show m.grammar.tagRule?.any (·.singular) = _
    rw [h]
    rfl
  have hkind : Grammar.kind? m.grammar = some rule.kind := by
    show m.grammar.tagRule?.map (·.kind) = _
    rw [h]
    rfl
  have harguments : Grammar.hasArguments m.grammar = rule.arguments := by
    show m.grammar.tagRule?.any (·.arguments) = _
    rw [h]
    rfl
  rw [identity, hsingular, hkind, harguments]
  rfl

/-- So is what is asked about the body. -/
theorem bodyKind?_eq (h : m.grammar.tagRule? = some rule) : m.bodyKind? = rule.body? := by
  show (if m.grammar.tagRule?.any (·.singular) then (none : Option TokenKind)
    else match (m.grammar.tagRule?.map (·.kind)).getD .other with
    | .comment => some .comment
    | .raw => some .rawBody
    | .embedded => some (.embeddedBody (m.grammar.tagRule?.bind (·.language)))
    | _ => none) = _
  rw [h]
  rfl

-- ── the step ─────────────────────────────────────────────────────────────────────

/-- The name of a tag that the dialect has is taken for it. -/
theorem stepTagName_known (hn : identifier? r.rest = some name)
    (hrule : m.grammar.dialect.tags.get? (String.ofList name) = some rule) :
    m.stepTagName r = takeStartTag { m with
      grammar := Grammar.resolve (Grammar.setExpect m.grammar .tag) (String.ofList name)
      } name r.document := by
  obtain ⟨c, hh, hc⟩ := exists_head_of_identifier? hn
  have hclose : atClose m.tag.form r.rest = false := by
    obtain ⟨tail, hr⟩ := List.head?_eq_some_iff.mp hh
    rw [hr]
    exact atClose_eq_false rfl rfl rfl hc
  have hhash : r.rest.head? ≠ some '#' := by
    rw [hh]
    rintro ⟨⟩
    cases hc
  have hknows : Grammar.knows (Grammar.setExpect m.grammar .tag) (String.ofList name) = true :=
    Option.isSome_iff_exists.mpr ⟨rule, hrule⟩
  rw [stepTagName, hclose, if_neg Bool.false_ne_true, if_neg hhash, hn]
  exact if_pos hknows

/-- The machine once the name of a tag of the given rule has been taken: the tag goes on as its
    category asks, its body is to be passed over if it has one, and its block is open. -/
def named (m : Machine Lookup) (name : List Char) (rule : TagRule) (d : Document) :
    Machine Lookup :=
  { m with
    grammar := { m.grammar with expect := .tag, tag := some (String.ofList name, rule) }
    phase := rule.identity.2
    body := (rule.body?.map (Body.mk name)).or m.body
    blocks := if rule.block then m.blocks.push (m.openedBlock name d) else m.blocks }

/-- The name of a tag that the dialect has is taken for it, wherever the tag stands; only the kind
    of the token tells whether it may stand there. -/
theorem step_named_eq (hp : m.phase = .opened) (hf : m.tag.form = .statement)
    (hn : identifier? r.rest = some name) (hs : closedName? name = none)
    (hrule : m.grammar.dialect.tags.get? (String.ofList name) = some rule) :
    m.step r = ⟨.token (if rule.hasPlacement && !rule.allowsParent m.blocks.parent? then
        .invalid .misplacedTag else rule.identity.1), .take name.length,
      m.named name rule r.document⟩ := by
  have hresolve : Grammar.resolve (Grammar.setExpect m.grammar .tag) (String.ofList name) =
      { m.grammar with expect := .tag, tag := some (String.ofList name, rule) } := by
    show ({ m.grammar with
      expect := .tag
      tag := (m.grammar.dialect.tags.get? (String.ofList name)).map fun rule =>
        (String.ofList name, rule) } : Lookup) = _
    rw [hrule]
    rfl
  rw [step_named hp hf hn, hs]
  dsimp only
  rw [stepTagName_known hn hrule, hresolve]
  generalize hnamed : ({ m with grammar := { m.grammar with
    expect := .tag, tag := some (String.ofList name, rule) } } : Machine Lookup) = m'
  have hentry : m'.grammar.tagRule? = some rule := by
    rw [← hnamed]
    rfl
  have hmisplaced : m'.isMisplaced =
      (rule.hasPlacement && !rule.allowsParent m.blocks.parent?) := by
    rw [← hnamed]
    rfl
  have hblock : Grammar.isBlock m'.grammar = rule.block := by
    show m'.grammar.tagRule?.any (·.block) = _
    rw [hentry]
    rfl
  rw [takeStartTag, identity_eq hentry, bodyKind?_eq hentry, hmisplaced, hblock, ← hnamed]
  rfl

end Machine

end TemplateScan
