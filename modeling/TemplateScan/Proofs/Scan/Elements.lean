import TemplateScan.Proofs.Scan.Openers

/-! # Elements — what the tracked HTML elements leave alone

    Which HTML elements a dialect tracks decides how the text between the tags is cut into tokens,
    and which blocks stand open beside those of the template.  Neither where the next tag begins nor
    the blocks of the template have to do with it.

    * **`Blocks.template`** — the open blocks that are no elements.
    * **`Machine.Strays`** — a machine that has seen nothing but elements and text.
    * **`Scanner.exists_comesToOpener`** — outside tags a scan comes to the next open delimiter. -/

namespace TemplateScan

open Text

-- ── the names of elements ────────────────────────────────────────────────────────

/-- The name under which an open block is kept is that of an HTML element. -/
def isElementName (name : String) : Bool :=
  name.toList.head? == some '<'

/-- The key of an element begins with an angle bracket, and so is told from the names of tags. -/
theorem isElementName_elementKey (name : List Char) :
    isElementName (Machine.elementKey name) = true := by
  rw [isElementName, Machine.elementKey, String.toList_ofList]
  rfl

/-- The names of tags are not those of elements. -/
theorem isElementName_of_not_mem {name : String} (h : '<' ∉ name.toList) :
    isElementName name = false := by
  rw [isElementName, beq_eq_false_iff_ne]
  exact fun hhead => h (List.mem_of_mem_head? hhead)

-- ── the blocks of the template ───────────────────────────────────────────────────

namespace Blocks

variable {b b' : Blocks} {name : String}

/-- The open blocks of the template, with the places of their tags, in the order in which they were
    opened. -/
def template (b : Blocks) : List (String × Span) :=
  (b.entries.filter fun block => !isElementName block.name).map fun block =>
    (block.name, block.span)

/-- A block of a tag is added to those of the template. -/
theorem template_push (b : Blocks) (block : Block) (h : isElementName block.name = false) :
    (b.push block).template = b.template ++ [(block.name, block.span)] := by
  rw [template, entries_push, List.filter_append, List.map_append, List.filter_cons, h]
  rfl

/-- An element is no block of the template. -/
theorem template_push_element (b : Blocks) (block : Block) (h : isElementName block.name = true) :
    (b.push block).template = b.template := by
  rw [template, entries_push, List.filter_append, List.map_append, List.filter_cons, h]
  exact List.append_nil _

/-- Closing an element leaves the blocks of the template alone. -/
theorem template_close_element (b : Blocks) (h : isElementName name = true) :
    (b.close name).template = b.template := by
  rw [template, close, List.filter_reverse, filter_eraseP_of_disjoint, ← List.filter_reverse,
    List.reverse_reverse, template]
  intro block hname
  rw [eq_of_beq hname, h]
  rfl

/-- A tag closes the nearest block of its name in the template. -/
theorem template_close (b : Blocks) (h : isElementName name = false) :
    (b.close name).template = (b.template.reverse.eraseP (·.1 == name)).reverse := by
  have hkept (block : Block) (hname : (block.name == name) = true) :
      (!isElementName block.name) = true := by
    rw [eq_of_beq hname, h]
    rfl
  rw [template, close, List.filter_reverse, filter_eraseP_comm hkept, List.filter_reverse,
    List.map_reverse, template]
  refine congrArg List.reverse ?_
  rw [← List.map_reverse, List.eraseP_map]
  rfl

/-- Unless an element was opened last, the innermost block is that of the template. -/
theorem parent?_eq_template (h : b.parent?.any isElementName = false) :
    b.parent? = b.template.getLast?.map (·.1) := by
  obtain ⟨entries⟩ := b
  rcases List.eq_nil_or_concat entries with rfl | ⟨outer, block, rfl⟩
  · rfl
  · have hparent : parent? ⟨outer.concat block⟩ = some block.name := by
      rw [List.concat_eq_append]
      exact congrArg (Option.map Block.name) (innermost?_push ⟨outer⟩ block)
    rw [hparent] at h ⊢
    have hpush := template_push ⟨outer⟩ block h
    rw [List.concat_eq_append]
    show _ = (template (push ⟨outer⟩ block)).getLast?.map (·.1)
    rw [hpush, List.getLast?_concat]
    rfl

end Blocks

/-- The reports about tags of the template. -/
def templateNotices (notices : List Notice) : List Notice :=
  notices.filter fun notice => !isElementName notice.tag

/-- Reports of the template are those before and those after. -/
theorem templateNotices_append (a b : List Notice) :
    templateNotices (a ++ b) = templateNotices a ++ templateNotices b :=
  List.filter_append ..

/-- The blocks of the template decide what is reported about tags of the template. -/
theorem templateNotices_notices (b : Blocks) (size : Nat) :
    templateNotices (b.notices size) =
      b.template.map fun block => ⟨block.1, { block.2 with stop := size }⟩ := by
  rw [templateNotices, Blocks.notices, List.filter_map, Blocks.template, List.map_map]
  rfl

/-- The same blocks of the template are reported at the end of the document. -/
theorem Machine.templateNotices_flush {γ : Type} {m m' : Machine γ}
    (hblocks : m'.blocks.template = m.blocks.template)
    (hnotices : templateNotices m'.notices = templateNotices m.notices)
    (hflushed : m'.flushed = m.flushed) (size : Nat) :
    templateNotices (({ m' with phase := .literal } : Machine γ).flush size).notices =
      templateNotices (({ m with phase := .literal } : Machine γ).flush size).notices := by
  rw [flush, flush]
  dsimp only
  rw [hflushed]
  split
  · exact hnotices
  · rw [templateNotices_append, templateNotices_append, hnotices, templateNotices_notices,
      templateNotices_notices, hblocks]

/-- The event has to do with neither a tag nor a body of the template. -/
def Event.isAside : Event → Bool
  | .text => true
  | .token kind => !kind.isBody && kind != .openDelimiter
  | .finished => false

/-- What is found among elements is neither the end of the document nor an open delimiter. -/
theorem Event.ne_of_isAside {event : Event} (h : event.isAside = true) :
    event ≠ .finished ∧ event ≠ .token .openDelimiter := by
  constructor
  · rintro rfl
    cases h
  · rintro rfl
    cases h

namespace Machine

variable {γ : Type} [Grammar γ] {m m' : Machine γ} {r : Reader} {reply : Reply γ}

-- ── outside tags ─────────────────────────────────────────────────────────────────

/-- Among the attributes of an element, an element was opened last. -/
def ElementSound (m : Machine γ) : Prop :=
  m.phase.inAttributes = true → m.blocks.parent?.any isElementName = true

/-- The block pushed last is the innermost one. -/
theorem parent?_push (b : Blocks) (block : Block) : (b.push block).parent? = some block.name := by
  rw [Blocks.parent?, Blocks.innermost?_push]
  rfl

/-- Inside the markup of an element, the element is the innermost block. -/
theorem TextStep.elementSound (hm : m.ElementSound) (hr : r.rest ≠ []) (h : TextStep m r reply) :
    reply.machine.ElementSound := by
  cases h with
  | @body body _ =>
      obtain ⟨n, event, kept, heq, -, -⟩ := stepBody_eq m body hr
      rw [heq]
      rintro ⟨⟩
  | opens _ _ => rintro ⟨⟩
  | @element name _ _ _ _ =>
      rw [stepElement]
      split
      · intro _
        show (Blocks.parent? (m.blocks.push _)).any isElementName = true
        rw [parent?_push]
        exact isElementName_elementKey name
      · rintro ⟨⟩
  | endElement _ _ _ =>
      rw [stepEndElement]
      split
      · rintro ⟨⟩
      · rintro ⟨⟩
  | text _ _ _ | selfClose _ _ | leave _ => rintro ⟨⟩
  | @markup kind n p _ _ _ _ _ ha _ =>
      intro hp
      rcases ha (Or.inl hp) with hin
      exact hm hin
  | space _ _ _ _ => exact hm

/-- No step leaves the markup of an element while another block is the innermost one. -/
theorem elementSound_step (hm : m.ElementSound) (r : Reader) :
    (m.step r).machine.ElementSound := by
  intro hin
  obtain ⟨phase, hphase⟩ := Phase.exists_of_inAttributes hin
  obtain ⟨hp, hr⟩ := outside_of_markup hphase
  exact (step_outside m r hp hr).elementSound hm (List.isEmpty_eq_false_iff.mp hr) hin

/-- The two differ at most in what has to do with elements. -/
structure Strays (m m' : Machine γ) : Prop where
  grammar : m'.grammar = m.grammar
  tag : m'.tag = m.tag
  body : m'.body = m.body
  brackets : m'.brackets = m.brackets
  notices : m'.notices = m.notices
  flushed : m'.flushed = m.flushed
  blocks : m'.blocks.template = m.blocks.template

omit [Grammar γ] in
/-- One stretch among elements may follow another. -/
theorem Strays.trans {m'' : Machine γ} (h : m.Strays m') (h' : m'.Strays m'') : m.Strays m'' where
  grammar := h'.grammar.trans h.grammar
  tag := h'.tag.trans h.tag
  body := h'.body.trans h.body
  brackets := h'.brackets.trans h.brackets
  notices := h'.notices.trans h.notices
  flushed := h'.flushed.trans h.flushed
  blocks := h'.blocks.trans h.blocks

/-- The element that ends by itself is no block of the template. -/
theorem template_closeInnermost {b : Blocks} (h : b.parent?.any isElementName = true) :
    (closeInnermost b).template = b.template := by
  rw [closeInnermost]
  cases hb : b.parent? with
  | none => rfl
  | some name =>
      rw [hb] at h
      exact Blocks.template_close_element b h

/-- A step outside tags, where no body is passed over, opens a tag or stays aside. -/
theorem TextStep.opens_or_strays (hb : m.body = none) (he : m.ElementSound)
    (h : TextStep m r reply) :
    (∃ form, form.opener <+: r.rest ∧ reply = m.openTag form r.offset) ∨
      reply.event.isAside = true ∧ m.Strays reply.machine ∧
        reply.machine.phase.inTag = false := by
  have hsame : m.Strays m := ⟨rfl, rfl, rfl, rfl, rfl, rfl, rfl⟩
  cases h with
  | body hbody =>
      rw [hb] at hbody
      cases hbody
  | @opens form _ hf => exact Or.inl ⟨form, hf, rfl⟩
  | @element name _ _ _ _ =>
      right
      rw [stepElement]
      split
      · refine ⟨rfl, { hsame with blocks := ?_ }, rfl⟩
        exact Blocks.template_push_element m.blocks _ (isElementName_elementKey name)
      · exact ⟨rfl, { hsame with }, rfl⟩
  | @endElement name _ _ _ _ =>
      right
      rw [stepEndElement]
      split
      · refine ⟨rfl, { hsame with blocks := ?_ }, rfl⟩
        exact Blocks.template_close_element m.blocks (isElementName_elementKey name)
      · exact ⟨rfl, { hsame with }, rfl⟩
  | text _ _ _ => exact Or.inr ⟨rfl, { hsame with }, rfl⟩
  | @markup kind _ _ hk _ _ hp _ _ _ =>
      refine Or.inr ⟨?_, { hsame with }, hp⟩
      cases kind <;> first | rfl | cases hk
  | selfClose _ hm =>
      refine Or.inr ⟨rfl, { hsame with blocks := ?_ }, rfl⟩
      exact template_closeInnermost (he hm)
  | space hk _ _ hp =>
      refine Or.inr ⟨?_, hsame, by rw [hp]; rfl⟩
      rcases hk with rfl | rfl <;> rfl
  | leave _ => exact Or.inr ⟨rfl, { hsame with }, rfl⟩

end Machine

namespace Scanner

/-- The next scan opens a tag. -/
structure OpensTag (s : Scanner Lookup) (form : TagForm) : Prop where
  opener : form.opener <+: s.reader.rest
  step : s.machine.step s.reader = s.machine.openTag form s.reader.offset

/-- The scanner has come to an open delimiter, or to the end of the document. -/
def AtOpener (s : Scanner Lookup) : Prop :=
  s.reader.rest = [] ∨ ∃ form, s.OpensTag form

/-- An open delimiter comes next. -/
theorem AtOpener.atStop {s : Scanner Lookup} (h : s.AtOpener) : AtStop openers s.reader.rest := by
  rcases h with hnil | ⟨form, hopens⟩
  · exact Or.inl hnil
  · refine Or.inr ⟨form.opener, ?_, hopens.opener⟩
    cases form <;> decide

/-- The first `k` scans, which take `n` characters, stay outside tags and come to an open delimiter,
    or to the end of the document, with the same blocks of the template. -/
structure ComesToOpener (s : Scanner Lookup) (k n : Nat) : Prop where
  aside : ∀ i < k, (s.after i).machine.phase.inTag = false ∧ (s.eventAt i).isAside = true
  strays : s.machine.Strays (s.after k).machine
  outside : (s.after k).machine.phase.inTag = false
  avoids : Avoids openers n s.reader.rest
  rest : (s.after k).reader.rest = s.reader.rest.drop n
  atOpener : (s.after k).AtOpener

namespace ComesToOpener

variable {s : Scanner Lookup} {k n : Nat}

/-- A scanner that is at the open delimiter already has nothing to pass over. -/
theorem here (hp : s.machine.phase.inTag = false) (h : s.AtOpener) : s.ComesToOpener 0 0 where
  aside _ hi := absurd hi (Nat.not_lt_zero _)
  strays := ⟨rfl, rfl, rfl, rfl, rfl, rfl, rfl⟩
  outside := hp
  avoids := Avoids.zero _ _
  rest := rfl
  atOpener := h

/-- One scan more, over text or over what belongs to an element. -/
theorem scan (h : s.scanHere.2.ComesToOpener k n) (hp : s.machine.phase.inTag = false)
    (hb : s.machine.body = none) (hm : s.machine.MarkupSound)
    (haside : s.scanHere.1.isAside = true) (hstrays : s.machine.Strays s.scanHere.2.machine) :
    s.ComesToOpener (1 + k) ((s.machine.step s.reader).extent.count + n) := by
  have hafter (i : Nat) : s.after (1 + i) = s.scanHere.2.after i := after_add s 1 i
  obtain ⟨hend, hopen⟩ := Event.ne_of_isAside haside
  have havoids := h.avoids
  have hrest := h.rest
  rw [reader_scanHere, rest_apply] at havoids hrest
  refine ⟨fun i hi => ?_, ?_, ?_, ?_, ?_, ?_⟩
  · cases i with
    | zero => exact ⟨hp, haside⟩
    | succ i =>
        rw [Nat.add_comm i 1, eventAt, hafter]
        exact h.aside i (by omega)
  · rw [hafter]
    exact hstrays.trans h.strays
  · rw [hafter]
    exact h.outside
  · exact (Machine.step_avoids hm hend hopen fun _ => hb).append havoids
  · rw [hafter, hrest, List.drop_drop]
  · rw [hafter]
    exact h.atOpener

/-- What is passed over among elements uses up no more than there is. -/
theorem potential_le (h : s.ComesToOpener k n) : (s.after k).potential ≤ s.potential :=
  potential_after_le fun i hi => (Event.ne_of_isAside (h.aside i hi).2).1

end ComesToOpener

/-- **Outside tags** a scan comes to the next open delimiter, or to the end of the document. -/
theorem exists_comesToOpener {s : Scanner Lookup} (hp : s.machine.phase.inTag = false)
    (hb : s.machine.body = none) (hm : s.machine.MarkupSound) (he : s.machine.ElementSound) :
    ∃ k n, s.ComesToOpener k n := by
  generalize hpotential : s.potential = bound
  induction bound using Nat.strongRecOn generalizing s with
  | ind bound ih =>
      cases hr : s.reader.atEnd with
      | true => exact ⟨0, 0, .here hp (Or.inl (List.isEmpty_iff.mp hr))⟩
      | false =>
          have hstep := Machine.step_outside s.machine s.reader hp hr
          rcases hstep.opens_or_strays hb he with ⟨form, hf, heq⟩ | ⟨haside, hstrays, hout⟩
          · exact ⟨0, 0, .here hp (Or.inr ⟨form, hf, heq⟩)⟩
          · have hlt := potential_scanHere_lt (Event.ne_of_isAside haside).1
            obtain ⟨k, n, hcomes⟩ := ih s.scanHere.2.potential (hpotential ▸ hlt) hout
              (hstrays.body.trans hb) (Machine.markupSound_step hm s.reader)
              (Machine.elementSound_step he s.reader) rfl
            exact ⟨1 + k, _, hcomes.scan hp hb hm haside hstrays⟩

end Scanner

end TemplateScan
