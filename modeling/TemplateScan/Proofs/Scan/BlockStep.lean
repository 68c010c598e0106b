import TemplateScan.Proofs.Scan.BracketBalance
import TemplateScan.Proofs.Scan.Replay

/-! # Steps and blocks — what one step does to the blocks that are open

    Only the name of a tag and the markup of an element open blocks or close them.  `BlockStep`
    lists the answers that do, those that lead up to a name, and the others, which leave the blocks
    alone and hold no name of a tag that the grammar knows.

    * **`blockStep_opened`** — behind an open delimiter, where the step functions are opened.
    * **`step_blockStep`** — every step before the end of the document is one of the answers. -/

namespace TemplateScan

open Text

-- ── tokens and phases ────────────────────────────────────────────────────────────

/-- The token neither opens a block, nor closes one, nor leads up to the name of a tag. -/
def TokenKind.isInert : TokenKind → Bool
  | .openDelimiter | .trimLeft | .spacing | .lineBreak => false
  | .endTag | .markupName | .endMarkupName | .markupClose => false
  | _ => true

theorem TokenKind.isInert_of_isPart {kind : TokenKind} (h : kind.isPart = true) :
    kind.isInert = true := by
  cases kind with
  | invalid fault => rfl
  | _ => first | rfl | cases h

/-- Neither is a name to come, nor may the markup of an element end. -/
def Phase.isSettled : Phase → Bool
  | .opened => false
  | phase => !phase.inAttributes

theorem Phase.isSettled_of_isNamed {p : Phase} (h : p.isNamed = true) : p.isSettled = true := by
  cases p with
  | opened => cases h
  | markup phase => cases h
  | _ => rfl

theorem Phase.of_isSettled {p : Phase} (h : p.isSettled = true) :
    p ≠ .opened ∧ p.inAttributes = false := by
  cases p with
  | opened => cases h
  | markup phase =>
      refine ⟨by rintro ⟨⟩, ?_⟩
      cases phase <;> first | rfl | cases h
  | _ => exact ⟨by rintro ⟨⟩, rfl⟩

-- ── names ────────────────────────────────────────────────────────────────────────

/-- The text begins with no name of a tag that the grammar knows. -/
def Grammar.Unknown {γ : Type} [Grammar γ] (g : γ) (text : List Char) : Prop :=
  ∀ name, identifier? text = some name →
    Grammar.knows (Grammar.setExpect g .tag) (String.ofList name) = false

theorem Grammar.unknown_of_none {γ : Type} [Grammar γ] {g : γ} {text : List Char}
    (h : identifier? text = none) : Grammar.Unknown g text := by
  intro name hname
  rw [h] at hname
  cases hname

-- ── answers ──────────────────────────────────────────────────────────────────────

namespace Machine

variable {γ : Type} [Grammar γ] {ending : Bool} {bound : Nat} {m : Machine γ} {r : Reader}
  {reply : Reply γ}

/-- The blocks and the numbers are those of before. -/
structure KeepsBlocks (m m' : Machine γ) : Prop where
  blocks : m'.blocks = m.blocks
  nodes : m'.nodes = m.nodes

/-- What one step before the end of the document does to the open blocks. -/
inductive BlockStep (m : Machine γ) (r : Reader) : Reply γ → Prop where
  /-- An open delimiter. -/
  | opens {form : TagForm} (hf : form.opener <+: r.rest) :
      BlockStep m r (m.openTag form r.offset)
  /-- The name of a tag, taken for one that the grammar knows. -/
  | starts {name} (hp : m.phase = .opened) (hn : identifier? r.rest = some name) :
      BlockStep m r ({ m with
        grammar := Grammar.resolve (Grammar.setExpect m.grammar .tag) (String.ofList name)
        }.takeStartTag name r.document)
  /-- The name of an end tag. -/
  | ends {name block} (hp : m.phase = .opened) (hn : identifier? r.rest = some name)
      (hb : closedName? name = some block) : BlockStep m r (m.takeEndTag name block)
  /-- The name of an element that begins. -/
  | element {name tail} (ho : m.phase ≠ .opened) (hr : r.rest = '<' :: tail)
      (hn : identifier? tail = some name) :
      BlockStep m r ({ m with
        blocks := m.blocks.push ⟨elementKey name, m.nodes,
          r.document.spanOf r.offset (r.offsetAt (1 + name.length))⟩
        nodes := m.nodes + 1 }.emit .markupName (1 + name.length) (.markup .attributeName))
  /-- The name of an element that ends. -/
  | endElement {name tail} (ho : m.phase ≠ .opened) (hr : r.rest = '<' :: '/' :: tail)
      (hn : identifier? tail = some name) :
      BlockStep m r ({ m with
        pair := (m.blocks.nearest? (elementKey name)).map Block.node
        blocks := m.blocks.close (elementKey name)
        }.emit .endMarkupName (2 + name.length) (.markup .closeName))
  /-- The end of an element without content. -/
  | selfClose (hs : ['/', '>'] <+: r.rest) (hm : m.phase.inAttributes = true) :
      BlockStep m r ({ m with blocks := closeInnermost m.blocks }.emit .markupClose 2 .literal)
  /-- A dash or white space, after which things go on as before. -/
  | waits {reply kind n} (he : reply.event = .token kind) (hx : reply.extent = .take n)
      (hk : kind = .trimLeft ∨ kind = .spacing ∨ kind = .lineBreak)
      (hkeeps : KeepsBlocks m reply.machine) (hp : reply.machine.phase = m.phase)
      (ht : reply.machine.tag = m.tag)
      (hfill : m.phase = .opened → ∀ c ∈ r.rest.take n, isFiller c = true) : BlockStep m r reply
  /-- Anything else.  Right behind an open delimiter it is no name that the grammar knows. -/
  | plain {reply n} (hx : reply.extent = .take n) (hkeeps : KeepsBlocks m reply.machine)
      (he : ∀ kind, reply.event = .token kind → kind.isInert = true ∨
        kind = .markupClose ∧ r.rest.head? = some '>' ∧ m.phase ≠ .opened)
      (ho : reply.machine.phase ≠ .opened)
      (ha : reply.machine.phase.inAttributes = true → m.phase.inAttributes = true)
      (hname : m.phase = .opened → (∃ kind, reply.event = .token kind) ∧
        Grammar.Unknown m.grammar (r.rest.take n)) :
      BlockStep m r reply

/-- The name of a tag opens a block, or leaves the open blocks as they are. -/
theorem blocks_takeStartTag (m : Machine γ) (name : List Char) (d : Document) :
    (m.takeStartTag name d).machine.blocks = m.blocks.push (m.openedBlock name d) ∨
      (m.takeStartTag name d).machine.blocks = m.blocks := by
  cases hblock : Grammar.isBlock m.grammar with
  | true => exact Or.inl (if_pos hblock)
  | false => exact Or.inr (if_neg (by rw [hblock]; exact Bool.false_ne_true))

/-- No other name is waited for once the name of a tag has been taken. -/
theorem phase_takeStartTag_ne_opened (m : Machine γ) (name : List Char) (d : Document) :
    (m.takeStartTag name d).machine.phase ≠ .opened := by
  intro ho
  have hnamed := isNamed_identity m
  rw [show m.identity.2 = .opened from ho] at hnamed
  cases hnamed

/-- Before the end of the document the cursor moves, if only by no character. -/
theorem BlockStep.extent_ne_hold (h : BlockStep m r reply) : reply.extent ≠ .hold := by
  cases h with
  | @starts name _ _ =>
      obtain ⟨kind, blocks, -, heq⟩ := takeStartTag_eq { m with
        grammar := Grammar.resolve (Grammar.setExpect m.grammar .tag) (String.ofList name)
        } name r.document
      rw [heq]
      nofun
  | waits _ hx _ _ _ _ _ | plain hx _ _ _ _ _ =>
      rw [hx]
      nofun
  | _ => nofun

/-- A step that finds the end of a tag, or of an element, closes a block by its name. -/
theorem BlockStep.of_end (h : BlockStep m r reply)
    (he : reply.event = .token .endTag ∨ reply.event = .token .endMarkupName) :
    (∃ name block, m.phase = .opened ∧ identifier? r.rest = some name ∧
        closedName? name = some block ∧ reply = m.takeEndTag name block) ∨
      ∃ name tail, m.phase ≠ .opened ∧ r.rest = '<' :: '/' :: tail ∧
        identifier? tail = some name ∧ reply = { m with
          pair := (m.blocks.nearest? (elementKey name)).map Block.node
          blocks := m.blocks.close (elementKey name)
          }.emit .endMarkupName (2 + name.length) (.markup .closeName) := by
  have hend : ∀ {kind}, reply.event = .token kind → kind = .endTag ∨ kind = .endMarkupName := by
    intro kind hkind
    rcases he with he | he
    · exact Or.inl (Event.token.inj (hkind.symm.trans he))
    · exact Or.inr (Event.token.inj (hkind.symm.trans he))
  have hinert : ∀ {kind}, reply.event = .token kind → kind.isInert ≠ true := by
    intro kind hkind
    rcases hend hkind with rfl | rfl <;> decide
  cases h with
  | ends hp hn hclosed => exact Or.inl ⟨_, _, hp, hn, hclosed, rfl⟩
  | endElement ho hr hn => exact Or.inr ⟨_, _, ho, hr, hn, rfl⟩
  | opens _ => exact absurd (hend rfl) (by decide)
  | element _ _ _ => exact absurd (hend rfl) (by decide)
  | selfClose _ _ => exact absurd (hend rfl) (by decide)
  | @starts name _ _ =>
      obtain ⟨kind, blocks, hk, heq⟩ := takeStartTag_eq { m with
        grammar := Grammar.resolve (Grammar.setExpect m.grammar .tag) (String.ofList name)
        } name r.document
      exact absurd (TokenKind.isInert_of_isPart hk) (hinert (congrArg Reply.event heq))
  | waits hkind _ hk _ _ _ _ =>
      have hboth := hend hkind
      rcases hk with rfl | rfl | rfl <;> exact absurd hboth (by decide)
  | plain _ _ hplain _ _ _ =>
      rcases he with he | he <;> rcases hplain _ he with hk | ⟨⟨⟩, -⟩ <;>
        exact absurd hk (hinert he)

-- ── inside a tag ─────────────────────────────────────────────────────────────────

/-- A token that says nothing about blocks, after which no name is to come. -/
theorem blockStep_inert {kind : TokenKind} {n : Nat} (he : reply.event = .token kind)
    (hk : kind.isInert = true) (hx : reply.extent = .take n)
    (hkeeps : KeepsBlocks m reply.machine) (hp : reply.machine.phase.isSettled = true)
    (hname : m.phase = .opened → Grammar.Unknown m.grammar (r.rest.take n)) :
    BlockStep m r reply := by
  obtain ⟨ho, ha⟩ := Phase.of_isSettled hp
  refine .plain hx hkeeps ?_ ho ?_ fun h => ⟨⟨kind, he⟩, hname h⟩
  · intro other hother
    obtain rfl := Event.token.inj (he.symm.trans hother)
    exact Or.inl hk
  · intro h
    rw [ha] at h
    cases h

/-- Once the name of the tag has been taken, a step inside the tag leaves the blocks alone. -/
theorem TagStep.blockStep (hp : m.phase ≠ .opened) (h : TagStep ending bound m r reply) :
    BlockStep m r reply := by
  cases h with
  | trimLeft hp' _ _ => exact absurd hp' hp
  | outputTag hp' _ _ => exact absurd hp' hp
  | startTag hp' _ _ => exact absurd hp' hp
  | endTag hp' _ _ => exact absurd hp' hp
  | space hk _ _ => exact .waits rfl rfl (Or.inr hk) ⟨rfl, rfl⟩ rfl rfl fun h => absurd h hp
  | part hk _ _ hn _ =>
      exact blockStep_inert rfl (TokenKind.isInert_of_isPart hk) rfl ⟨rfl, rfl⟩
        (Phase.isSettled_of_isNamed hn) fun h => absurd h hp
  | keyPath hk _ _ hn _ =>
      exact blockStep_inert rfl (TokenKind.isInert_of_isPart hk) rfl ⟨rfl, rfl⟩
        (Phase.isSettled_of_isNamed hn) fun h => absurd h hp
  | mark _ hn _ _ =>
      exact blockStep_inert rfl rfl rfl ⟨rfl, rfl⟩ (Phase.isSettled_of_isNamed hn)
        fun h => absurd h hp
  | openBracket _ hn _ _ | closeBracket _ _ hn _ _ =>
      exact blockStep_inert rfl rfl rfl ⟨rfl, rfl⟩ (Phase.isSettled_of_isNamed hn)
        fun h => absurd h hp
  | dropBracket _ hn _ _ =>
      rcases hn with rfl | rfl
      · refine .plain rfl ⟨rfl, rfl⟩ ?_ hp id fun h => absurd h hp
        rintro kind ⟨⟩
        exact Or.inl rfl
      · exact blockStep_inert rfl rfl rfl ⟨rfl, rfl⟩ rfl fun h => absurd h hp
  | recovered _ _ _ | trimRight _ _ | abandoned _ _ =>
      exact blockStep_inert rfl rfl rfl ⟨rfl, rfl⟩ rfl fun h => absurd h hp
  | closed _ _ =>
      cases ending <;> exact blockStep_inert rfl rfl rfl ⟨rfl, rfl⟩ rfl fun h => absurd h hp

-- ── behind an open delimiter ─────────────────────────────────────────────────────

/-- White space or a dash behind an open delimiter. -/
theorem blockStep_filler {kind : TokenKind} {n : Nat}
    (hk : kind = .trimLeft ∨ kind = .spacing ∨ kind = .lineBreak)
    (hfill : ∀ c ∈ r.rest.take n, isFiller c = true) : BlockStep m r (m.emit kind n m.phase) :=
  .waits rfl rfl hk ⟨rfl, rfl⟩ rfl rfl fun _ => hfill

/-- A token behind an open delimiter that is no name which the grammar knows. -/
theorem blockStep_nameless {kind : TokenKind} {n : Nat} {p : Phase} {g : γ}
    (hk : kind.isInert = true) (hn : p.isNamed = true)
    (hname : Grammar.Unknown m.grammar (r.rest.take n)) :
    BlockStep m r ({ m with grammar := g }.emit kind n p) :=
  blockStep_inert rfl hk rfl ⟨rfl, rfl⟩ (Phase.isSettled_of_isNamed hn) fun _ => hname

theorem blockStep_tagName (hp : m.phase = .opened) : BlockStep m r (m.stepTagName r) := by
  rw [stepTagName]
  split
  · exact blockStep_nameless rfl rfl (Grammar.unknown_of_none rfl)
  · split
    · next hh =>
        have hnone : identifier? r.rest = none := by
          obtain ⟨cs, hcs⟩ := List.head?_eq_some_iff.mp hh
          rw [hcs]
          rfl
        exact blockStep_nameless rfl rfl
          (Grammar.unknown_of_none (identifier?_take_eq_none hnone _))
    · split
      · next hnone =>
          exact blockStep_nameless rfl rfl
            (Grammar.unknown_of_none (identifier?_take_eq_none hnone _))
      · next name hn =>
          dsimp only
          split
          · exact .starts hp hn
          · next hunknown =>
              refine blockStep_nameless rfl rfl fun other hother => ?_
              obtain ⟨hpre, -, -⟩ := identifier?_eq_some hn
              rw [← List.prefix_iff_eq_take.mp hpre, identifier?_self hn] at hother
              obtain rfl := Option.some.inj hother
              exact Bool.eq_false_iff.mpr hunknown

/-- A step behind an open delimiter, up to the name of the tag. -/
theorem blockStep_opened (hp : m.phase = .opened) (hm : m.BracketSound) :
    BlockStep m r (m.step r) := by
  rw [step]
  split
  · -- no bracket is open yet, so at the end of the document the tag is left at once
    have hnone : m.brackets.isEmpty = true := by
      rw [hm (Or.inr hp)]
      rfl
    rw [stepEnd, if_pos (by rw [hp]; rfl), hnone]
    exact blockStep_inert rfl rfl rfl ⟨rfl, rfl⟩ rfl fun _ => Grammar.unknown_of_none rfl
  · rw [if_neg (by rw [hp]; rintro ⟨⟩)]
    dsimp only
    split
    · refine blockStep_filler (Or.inr (Or.inl rfl)) fun c hc => ?_
      simp [isFiller, of_mem_take_takeWhile hc]
    · split
      · refine blockStep_filler (Or.inr (Or.inr rfl)) fun c hc => ?_
        simp [isFiller, of_mem_take_takeWhile hc]
      · rw [stepPhase, hp]
        show BlockStep m r (m.stepOpened r)
        rw [stepOpened]
        split
        · next hd =>
            have hdash : ∀ c ∈ r.rest.take 1, isFiller c = true := by
              intro c hc
              obtain ⟨cs, hcs⟩ := List.head?_eq_some_iff.mp hd.2
              rw [hcs] at hc
              obtain rfl : c = '-' := by simpa using hc
              rfl
            have hstep := @blockStep_filler γ _ m r .trimLeft 1 (Or.inl rfl) hdash
            rw [hp] at hstep
            exact hstep
        · split
          · exact blockStep_nameless rfl rfl (Grammar.unknown_of_none rfl)
          · split
            · next hn =>
                split
                · next hb => exact .ends hp hn hb
                · exact blockStep_tagName hp
            · exact blockStep_tagName hp

-- ── outside tags ─────────────────────────────────────────────────────────────────

/-- Outside tags only the markup of elements, and open delimiters, touch the blocks. -/
theorem TextStep.blockStep (hm : m.BodySound) (hp : m.phase.inTag = false) (hr : r.rest ≠ [])
    (h : TextStep m r reply) : BlockStep m r reply := by
  have ho : m.phase ≠ .opened := by
    intro h
    rw [h] at hp
    cases hp
  have hopened : ∀ {P : Prop}, m.phase = .opened → P := fun h => absurd h ho
  have htext : ∀ {n : Nat} {m' : Machine γ}, KeepsBlocks m m' → m'.phase = .literal →
      BlockStep m r ⟨.text, .take n, m'⟩ := by
    intro n m' hkeeps hphase
    refine .plain rfl hkeeps ?_ ?_ ?_ hopened
    · rintro kind ⟨⟩
    · rw [hphase]
      rintro ⟨⟩
    · rw [hphase]
      rintro ⟨⟩
  cases h with
  | @body body hb =>
      obtain ⟨n, event, kept, heq, -, hcase⟩ := stepBody_eq m body hr
      rw [heq]
      rcases hcase with ⟨-, rfl, -⟩ | ⟨-, rfl⟩
      · exact htext ⟨rfl, rfl⟩ rfl
      · have hkind := hm body hb
        refine blockStep_inert rfl ?_ rfl ⟨rfl, rfl⟩ rfl hopened
        cases hk : body.kind <;> rw [hk] at hkind <;> first | rfl | cases hkind
  | opens _ hf => exact .opens hf
  | element _ hrest hn =>
      rw [stepElement]
      split
      · exact .element ho hrest hn
      · exact blockStep_inert rfl rfl rfl ⟨rfl, rfl⟩ rfl hopened
  | endElement _ hrest hn =>
      rw [stepEndElement]
      split
      · exact .endElement ho hrest hn
      · exact blockStep_inert rfl rfl rfl ⟨rfl, rfl⟩ rfl hopened
  | text _ _ _ => exact htext ⟨rfl, rfl⟩ rfl
  | @markup kind _ _ hk _ _ hq _ ha he =>
      refine .plain rfl ⟨rfl, rfl⟩ ?_ ?_ (fun h => ha (Or.inl h)) hopened
      · rintro other ⟨⟩
        by_cases hclose : kind = .markupClose
        · exact Or.inr ⟨hclose, he hclose, ho⟩
        · refine Or.inl ?_
          cases kind <;> first | rfl | exact absurd rfl hclose | cases hk
      · rintro rfl
        cases hq
  | selfClose hs hm => exact .selfClose hs hm
  | space hk _ _ _ => exact .waits rfl rfl (Or.inr hk) ⟨rfl, rfl⟩ rfl rfl hopened
  | leave _ => exact blockStep_inert rfl rfl rfl ⟨rfl, rfl⟩ rfl hopened

-- ── any step ─────────────────────────────────────────────────────────────────────

/-- **Steps and blocks.**  Every step before the end of the document does one of these things to the
    open blocks. -/
theorem step_blockStep (hb : m.BracketSound) (hm : m.BodySound)
    (h : (m.step r).event ≠ .finished) : BlockStep m r (m.step r) := by
  cases hp : m.phase.inTag with
  | false =>
      obtain ⟨hr, hne⟩ := rest_ne_nil_of_outside hp h
      exact (step_outside m r hp hr).blockStep hm hp hne
  | true =>
      by_cases ho : m.phase = .opened
      · exact blockStep_opened ho hb
      · exact (step_inTag m r hp).blockStep ho

end Machine

end TemplateScan
