import TemplateScan.Proofs.Scan.Comparison
import TemplateScan.Proofs.Scan.Elements
import TemplateScan.Proofs.Scan.Tokens

/-! # Tags among elements — whether tags are found does not depend on the tracked HTML elements

    Two scans of a document under dialects that track different elements are compared from one open
    delimiter to the next: in between each of them goes its own way, and both come to the same place
    with the same blocks of the template.  Inside a tag, and over a body, they go on in step; only a
    tag that may stand in a certain block alone can be misplaced in an element that is still open.

    * **`templatePart`** — the tokens inside tags, and the bodies that are passed over.
    * **`Scanner.Abreast`** — two scans at the same place, with the same blocks of the template.
    * **`Scanner.Abreast.findsSame`** — from there on they find the same tags and bodies.
    * **`Scanner.template_part_associates`** — the same for whole documents. -/

namespace TemplateScan

open Text

-- ── the part of the tokens that belongs to the template ──────────────────────────

/-- A token, and the name of the block opened last among those open before it. -/
structure Placed where
  token : Token
  parent : Option String

namespace Placed

/-- An element was opened last among what is open before the token. -/
def inElement (a : Placed) : Bool :=
  a.parent.any isElementName

/-- The tokens have the same place, and are of the same kind, unless the one is a misplaced tag, the
    other is that tag, and an element is open around one of them. -/
def Kindred (d : Dialect) (document : Document) (a b : Placed) : Prop :=
  a.token.Kindred (if a.inElement || b.inElement then [.placements] else []) d document b.token

end Placed

/-- The tokens that belong to the template: those inside tags, from the open delimiter to the token
    that ends the tag, and the bodies that are passed over. -/
def templatePart : (inTag : Bool) → List Placed → List Placed
  | _, [] => []
  | true, a :: tail => a :: templatePart (!(Event.token a.token.kind).endsTag) tail
  | false, a :: tail =>
      if a.token.kind = .openDelimiter then a :: templatePart true tail
      else if a.token.kind.isBody then a :: templatePart false tail
      else templatePart false tail

namespace Scanner

variable {s t : Scanner Lookup} {kind : TokenKind} {n : Nat}

/-- The token that the next scan finds, of the given kind. -/
def placedHere (s : Scanner Lookup) (kind : TokenKind) : Placed where
  token := ⟨kind, s.scanHere.2.reader.span⟩
  parent := s.machine.blocks.parent?

@[simp] theorem kind_placedHere (s : Scanner Lookup) (kind : TokenKind) :
    (s.placedHere kind).token.kind = kind := rfl

/-- The tokens that the first `n` scans find. -/
def placedWithin : Nat → Scanner Lookup → List Placed
  | 0, _ => []
  | n + 1, s =>
      match s.scanHere.1 with
      | .token kind => s.placedHere kind :: placedWithin n s.scanHere.2
      | .text => placedWithin n s.scanHere.2
      | .finished => []

/-- The tokens up to the end of the document. -/
def placed (s : Scanner Lookup) : List Placed :=
  placedWithin s.work s

/-- They are the tokens of the document. -/
theorem map_token_placed (source : String) (d : Dialect) :
    (ofString source d.lookup).placed.map (·.token) = (tokenize source d.lookup).tokens := by
  have hwithin (n : Nat) (s : Scanner Lookup) : (placedWithin n s).map (·.token) =
      (scans n s).filterMap fun found => found.2.tokenOf found.1 := by
    induction n generalizing s with
    | zero => rfl
    | succ n ih =>
        rw [placedWithin, scans]
        cases hevent : s.scanHere.1 with
        | token kind =>
            rw [List.map_cons, ih, List.filterMap_cons]
            simp only [hevent, tokenOf, placedHere]
        | text =>
            rw [ih, List.filterMap_cons]
            simp only [hevent, tokenOf]
        | finished =>
            rw [List.filterMap_cons]
            simp only [hevent, tokenOf]
            rfl
  exact hwithin _ _

/-- More scans than are needed find no more. -/
theorem placedWithin_eq {n k : Nat} (hn : s.potential < n) (hk : s.potential < k) :
    placedWithin n s = placedWithin k s := by
  induction n generalizing s k with
  | zero => exact absurd hn (Nat.not_lt_zero _)
  | succ n ih =>
      cases k with
      | zero => exact absurd hk (Nat.not_lt_zero _)
      | succ k =>
          rw [placedWithin, placedWithin]
          cases hevent : s.scanHere.1 with
          | finished => rfl
          | token kind =>
              have hlt := potential_scanHere_lt (s := s) (by rw [hevent]; rintro ⟨⟩)
              dsimp only
              rw [ih (k := k) (by omega) (by omega)]
          | text =>
              have hlt := potential_scanHere_lt (s := s) (by rw [hevent]; rintro ⟨⟩)
              exact ih (by omega) (by omega)

/-- At the end of the document nothing more is placed. -/
theorem placed_of_finished (h : s.scanHere.1 = .finished) : s.placed = [] := by
  rw [placed, placedWithin_eq (k := s.potential + 1) (potential_lt_work s) (Nat.lt_succ_self _),
    placedWithin, h]

/-- Text is not placed. -/
theorem placed_of_text (h : s.scanHere.1 = .text) : s.placed = s.scanHere.2.placed := by
  have hlt := potential_scanHere_lt (s := s) (by rw [h]; rintro ⟨⟩)
  rw [placed, placedWithin_eq (k := s.potential + 1) (potential_lt_work s) (Nat.lt_succ_self _),
    placedWithin, h, placed]
  exact placedWithin_eq hlt (potential_lt_work _)

/-- A token is placed where the blocks around it are. -/
theorem placed_of_token (h : s.scanHere.1 = .token kind) :
    s.placed = s.placedHere kind :: s.scanHere.2.placed := by
  have hlt := potential_scanHere_lt (s := s) (by rw [h]; rintro ⟨⟩)
  rw [placed, placedWithin_eq (k := s.potential + 1) (potential_lt_work s) (Nat.lt_succ_self _),
    placedWithin, h, placed]
  dsimp only
  rw [placedWithin_eq hlt (potential_lt_work _)]

/-- The tokens from here on that belong to the template. -/
def template (s : Scanner Lookup) : List Placed :=
  templatePart s.machine.phase.inTag s.placed

/-- Inside a tag every token belongs to the template, -/
theorem template_inTag (hp : s.machine.phase.inTag = true) :
    ∃ kind, s.scanHere.1 = .token kind ∧
      s.template = s.placedHere kind :: s.scanHere.2.template := by
  have hnext : s.scanHere.2.machine.phase.inTag = !s.scanHere.1.endsTag := by
    rw [machine_scanHere, event_scanHere]
    rcases Machine.step_stays_or_leaves hp s.reader with hstay | hleave
    · rw [hstay.inTag, hstay.not_endsTag]
      rfl
    · rw [hleave.phase_eq, hleave.endsTag]
      rfl
  obtain ⟨kind, hkind, -⟩ := Machine.exists_token_of_inTag hp s.reader
  rw [← event_scanHere] at hkind
  rw [hkind] at hnext
  refine ⟨kind, hkind, ?_⟩
  rw [template, placed_of_token hkind, hp, templatePart, kind_placedHere, template, hnext]

/-- and so does an open delimiter outside. -/
theorem template_openTag (hp : s.machine.phase.inTag = false) {form : TagForm}
    (h : s.OpensTag form) :
    s.template = s.placedHere .openDelimiter :: s.scanHere.2.template := by
  have hevent : s.scanHere.1 = .token .openDelimiter := by
    rw [event_scanHere, h.step]
    rfl
  have hnext : s.scanHere.2.machine.phase.inTag = true := by
    rw [machine_scanHere, h.step]
    rfl
  rw [template, placed_of_token hevent, hp, templatePart, kind_placedHere, if_pos rfl, template,
    hnext]

/-- A body belongs to the template. -/
theorem template_body (hp : s.machine.phase.inTag = false)
    (hp' : s.scanHere.2.machine.phase.inTag = false) (hevent : s.scanHere.1 = .token kind)
    (hk : kind.isBody = true) :
    s.template = s.placedHere kind :: s.scanHere.2.template := by
  have hne : kind ≠ .openDelimiter := by
    rintro rfl
    cases hk
  rw [template, placed_of_token hevent, hp, templatePart, kind_placedHere, if_neg hne, if_pos hk,
    template, hp']

/-- Nothing else outside tags does. -/
theorem template_aside (hp : s.machine.phase.inTag = false)
    (hp' : s.scanHere.2.machine.phase.inTag = false) (h : s.scanHere.1.isAside = true) :
    s.template = s.scanHere.2.template := by
  rw [template, template, hp, hp']
  cases hevent : s.scanHere.1 with
  | finished =>
      rw [hevent] at h
      cases h
  | text => rw [placed_of_text hevent]
  | token kind =>
      rw [hevent, Event.isAside, Bool.and_eq_true, Bool.not_eq_true', bne_iff_ne] at h
      obtain ⟨hbody, hne⟩ := h
      rw [placed_of_token hevent, templatePart, kind_placedHere, if_neg hne, hbody,
        if_neg Bool.false_ne_true]

/-- What is passed over on the way to the open delimiter belongs to elements. -/
theorem ComesToOpener.template {k : Nat} (h : s.ComesToOpener k n) :
    s.template = (s.after k).template := by
  have hbefore (i : Nat) (hi : i ≤ k) : s.template = (s.after i).template := by
    induction i with
    | zero => rfl
    | succ i ih =>
        obtain ⟨hout, haside⟩ := h.aside i hi
        rw [ih (Nat.le_of_succ_le hi)]
        refine template_aside hout ?_ haside
        rcases Nat.lt_or_eq_of_le hi with hlt | rfl
        · exact (h.aside (i + 1) hlt).1
        · exact h.outside
  exact hbefore k (Nat.le_refl k)

/-- At the end of the document nothing is left. -/
theorem template_of_finished (h : s.scanHere.1 = .finished) : s.template = [] := by
  rw [template, placed_of_finished h, templatePart]

-- ── the end of the document ──────────────────────────────────────────────────────

/-- The end of the document is found, and then these are the reports. -/
def EndsWith (s : Scanner Lookup) (notices : List Notice) : Prop :=
  ∃ n, s.eventAt n = .finished ∧ (s.after (n + 1)).machine.notices = notices

/-- What the scanner ends with later it ends with now. -/
theorem EndsWith.of_after {notices : List Notice} (h : (s.after n).EndsWith notices) :
    s.EndsWith notices := by
  obtain ⟨k, hend, hnotices⟩ := h
  refine ⟨n + k, ?_, ?_⟩
  · rw [eventAt_add]
    exact hend
  · rw [Nat.add_assoc, after_add]
    exact hnotices

/-- What the scanner ends with are the notices of the text. -/
theorem EndsWith.tokenize {source : String} {d : Dialect} {notices : List Notice}
    (h : (ofString source d.lookup).EndsWith notices) :
    (tokenize source d.lookup).notices = notices := by
  obtain ⟨k, hk, hnotices⟩ := h
  obtain ⟨n, hend, hbefore, heq⟩ := tokenize_eq source d.lookup
  have hnk : n ≤ k := Nat.le_of_not_lt fun hkn => hbefore k hkn hk
  obtain ⟨j, rfl⟩ := Nat.exists_eq_add_of_le hnk
  have hstay := (scanHere_of_finished
    (s := (ofString source d.lookup).after n) (Prod.ext hend rfl)).1
  have hsame : ((ofString source d.lookup).after (n + 1)).after j =
      (ofString source d.lookup).after (n + 1) := (after_of_scanHere hstay j).2
  rw [heq, ← hnotices, Nat.add_right_comm, after_add _ (n + 1), hsame]

end Scanner

/-- The text after the cursor begins with one open delimiter at most. -/
theorem TagForm.eq_of_opener {form form' : TagForm} {text : List Char} (h : form.opener <+: text)
    (h' : form'.opener <+: text) : form' = form := by
  have hlength : form'.opener.length = form.opener.length := by
    cases form <;> cases form' <;> rfl
  have hopener := (List.prefix_of_prefix_length_le h' h (Nat.le_of_eq hlength)).eq_of_length hlength
  revert hopener
  cases form <;> cases form' <;> decide

/-- Without concerns nothing is called otherwise. -/
theorem Event.Kindred.eq {d : Dialect} {text : List Char} {event event' : Event}
    (h : event.Kindred [] d text event') : event' = event := by
  cases h with
  | same => rfl
  | token hk =>
      rcases hk with rfl | ⟨concern, hmem, -⟩
      · rfl
      · cases hmem

-- ── the comparison ───────────────────────────────────────────────────────────────

/-- The two records agree on the blocks of the template. -/
structure Ledger.SameTemplate (l l' : Ledger) : Prop where
  blocks : l'.blocks.template = l.blocks.template
  notices : templateNotices l'.notices = templateNotices l.notices
  flushed : l'.flushed = l.flushed

/-- A block of a tag is added to both records. -/
theorem Ledger.SameTemplate.push {l l' : Ledger} (h : l.SameTemplate l') {name : String}
    (hname : '<' ∉ name.toList) (span : Span) :
    (l.push name span).SameTemplate (l'.push name span) where
  blocks := by
    have hpush (b : Blocks) (node : Nat) :
        (b.push ⟨name, node, span⟩).template = b.template ++ [(name, span)] :=
      Blocks.template_push b ⟨name, node, span⟩ (isElementName_of_not_mem hname)
    show (l'.blocks.push ⟨name, l'.node, span⟩).template =
      (l.blocks.push ⟨name, l.node, span⟩).template
    rw [hpush, hpush, h.blocks]
  notices := h.notices
  flushed := h.flushed

/-- A block of a tag is closed in both records. -/
theorem Ledger.SameTemplate.close {l l' : Ledger} (h : l.SameTemplate l') {name : String}
    (hname : '<' ∉ name.toList) : (l.close name).SameTemplate (l'.close name) where
  blocks := by
    have helement := isElementName_of_not_mem hname
    show (l'.blocks.close name).template = (l.blocks.close name).template
    rw [Blocks.template_close _ helement, Blocks.template_close _ helement, h.blocks]
  notices := h.notices
  flushed := h.flushed

/-- Where no element was opened last, both records have the same block around a tag. -/
theorem Ledger.SameTemplate.parent? {l l' : Ledger} (h : l.SameTemplate l')
    (hl : l.blocks.parent?.any isElementName = false)
    (hl' : l'.blocks.parent?.any isElementName = false) : l'.blocks.parent? = l.blocks.parent? := by
  rw [Blocks.parent?_eq_template hl, Blocks.parent?_eq_template hl', h.blocks]

/-- The comparison of two scans that track different elements.  Only in the presence of an element
    tags may be misplaced in one of them and not in the other. -/
def Comparison.aside (disturbed : Bool) : Comparison where
  concerns := [.associates]
  causes := if disturbed then [.placements] else []
  concerns_subset _ h hne := absurd (List.mem_singleton.mp h) hne
  ledgers := Ledger.SameTemplate
  openTag h := ⟨h.blocks, h.notices, h.flushed⟩
  push span hname h := h.push hname span
  close hname h := h.close hname

-- ── two scans side by side ───────────────────────────────────────────────────────

/-- What holds of the machine throughout a run. -/
structure Machine.Sound {γ : Type} (m : Machine γ) : Prop where
  body : m.BodySound
  markup : m.MarkupSound
  element : m.ElementSound

/-- A new machine is sound. -/
theorem Machine.sound_start (grammar : Lookup) : ({ grammar } : Machine Lookup).Sound where
  body := by rintro _ ⟨⟩
  markup := by rintro _ ⟨⟩
  element := by rintro ⟨⟩

/-- Each step keeps the machine sound. -/
theorem Machine.Sound.step {m : Machine Lookup} (h : m.Sound) (r : Reader) :
    (m.step r).machine.Sound :=
  ⟨bodySound_step h.body r, markupSound_step h.markup r, elementSound_step h.element r⟩

/-- Outside tags, markup has no body to be passed over. -/
theorem Machine.Sound.literal_of_body {m : Machine Lookup} (h : m.Sound)
    (hp : m.phase.inTag = false) {body : Body} (hb : m.body = some body) : m.phase = .literal := by
  rcases Phase.literal_or_markup hp with hlit | ⟨phase, hphase⟩
  · exact hlit
  · have hnone := h.markup phase hphase
    rw [hb] at hnone
    cases hnone

namespace Comparison

variable {m m' : Machine Lookup} {disturbed disturbed' : Bool}

/-- Where places are no cause, nothing has disturbed them. -/
theorem undisturbed (h : .placements ∉ (aside disturbed).causes) : disturbed = false := by
  cases disturbed with
  | false => rfl
  | true => exact absurd List.mem_cons_self h

/-- How a difference may show in the tokens has no part in the machines. -/
theorem Akin.aside (h : (aside disturbed).Akin m m') : (aside disturbed').Akin m m' :=
  { h with lookups := h.lookups, ledgers := h.ledgers }

/-- What a machine does aside leaves the comparison as it is. -/
theorem akin_of_strays (h : (aside disturbed).Akin m m') {n n' : Machine Lookup} (hs : m.Strays n)
    (ht : m'.Strays n') : (aside disturbed).Akin n n' where
  body := by rw [hs.body, ht.body, h.body]
  brackets := by rw [hs.brackets, ht.brackets, h.brackets]
  form := by rw [hs.tag, ht.tag, h.form]
  start := by rw [hs.tag, ht.tag, h.start]
  lookups := by
    rw [hs.grammar, ht.grammar]
    exact h.lookups
  ledgers := by
    obtain ⟨hblocks, hnotices, hflushed⟩ := h.ledgers
    refine ⟨ht.blocks.trans (hblocks.trans hs.blocks.symm), ?_, ?_⟩
    · show templateNotices n'.notices = templateNotices n.notices
      rw [hs.notices, ht.notices]
      exact hnotices
    · exact ht.flushed.trans (hflushed.trans hs.flushed.symm)

/-- Whether places have been disturbed does not change what is alike. -/
theorem Alike.aside (h : (aside disturbed).Alike m m') : (aside disturbed').Alike m m' :=
  { h with toAkin := h.toAkin.aside, object := h.object }

end Comparison

namespace Scanner

open Comparison

variable {s t : Scanner Lookup} {d : Dialect} {disturbed : Bool}

/-- The two scans are at the same place, and their machines agree on the blocks of the template;
    inside a tag they are alike. -/
structure Abreast (s t : Scanner Lookup) : Prop where
  place : t.reader.mark = s.reader.mark
  sound : s.machine.Sound ∧ t.machine.Sound
  machine : (aside false).Akin s.machine t.machine
  alike : s.machine.phase.inTag = true → (aside false).Alike s.machine t.machine
  outside : s.machine.phase.inTag = false →
    t.machine.phase.inTag = false ∧ s.machine.brackets = ∅

/-- Scanners abreast have the same text in front of them. -/
theorem Abreast.rest (h : s.Abreast t) : t.reader.rest = s.reader.rest := by
  rw [← Reader.rest_mark, h.place, Reader.rest_mark]

/-- Scanners abreast scan the same document. -/
theorem Abreast.document (h : s.Abreast t) : t.reader.document = s.reader.document := by
  rw [← Reader.document_mark, h.place, Reader.document_mark]

/-- The same step, taken by both before the end, takes the same token. -/
theorem Abreast.reader (h : s.Abreast t) (hend : s.scanHere.1 ≠ .finished)
    (hextent : (t.machine.step s.reader).extent = (s.machine.step s.reader).extent) :
    t.scanHere.2.reader = s.scanHere.2.reader := by
  have hhold : (s.machine.step s.reader).extent ≠ .hold := by
    rcases (Machine.step_reaches h.sound.1.body hend).1 with ⟨-, hx⟩ | ⟨-, -, hx⟩
    · rw [hx]
      rintro ⟨⟩
    · rw [hx]
      rintro ⟨⟩
  rw [reader_scanHere, reader_scanHere, Machine.step_of_mark h.place, hextent]
  exact Extent.apply_of_mark h.place hhold

/-- Where the machines left by the same step are alike, the scans stay abreast. -/
theorem Abreast.next (h : s.Abreast t) (hend : s.scanHere.1 ≠ .finished)
    (hextent : (t.machine.step s.reader).extent = (s.machine.step s.reader).extent)
    (halike : (aside disturbed).Alike (s.machine.step s.reader).machine
      (t.machine.step s.reader).machine) :
    s.scanHere.2.Abreast t.scanHere.2 := by
  have hmachine : t.scanHere.2.machine = (t.machine.step s.reader).machine := by
    rw [machine_scanHere, Machine.step_of_mark h.place]
  have hnext : (aside false).Alike s.scanHere.2.machine t.scanHere.2.machine := by
    rw [hmachine, machine_scanHere]
    exact halike.aside
  refine ⟨congrArg Reader.mark (h.reader hend hextent), ⟨h.sound.1.step _, h.sound.2.step _⟩,
    hnext.toAkin, fun _ => hnext, fun hp => ⟨?_, ?_⟩⟩
  · rw [hnext.phase]
    exact hp
  · exact hnext.closed (Phase.mayHoldBrackets_of_outside hp)

/-- The same text, taken as tokens of the same kind, or as a misplaced tag and as that tag where an
    element is open. -/
theorem kindred_placedHere {kind kind' : TokenKind}
    (hreader : t.scanHere.2.reader = s.scanHere.2.reader)
    (hk : kind.Kindred (if s.machine.blocks.parent?.any isElementName ||
        t.machine.blocks.parent?.any isElementName then [.placements] else [])
      d s.scanHere.2.reader.token kind') :
    (s.placedHere kind).Kindred d s.reader.document (t.placedHere kind') where
  span := congrArg Reader.span hreader
  kind := by
    refine ⟨s.scanHere.2.reader.token, ?_, hk⟩
    rw [show s.reader.document = s.scanHere.2.reader.document from (document_after s 1).symm]
    exact Token.text?_span kind _

/-- The scans before `j` and before `k` find kindred tokens of the template. -/
def Stretch (d : Dialect) (s t : Scanner Lookup) (j k : Nat) : Prop :=
  ∃ found found', s.template = found ++ (s.after j).template ∧
    t.template = found' ++ (t.after k).template ∧
      List.Forall₂ (Placed.Kindred d s.reader.document) found found'

/-- A stretch in which neither scan finds anything of the template. -/
theorem Stretch.none {j k : Nat} (hs : s.template = (s.after j).template)
    (ht : t.template = (t.after k).template) : Stretch d s t j k :=
  ⟨[], [], hs, ht, .nil⟩

/-- A stretch in which each scan finds one token of the template. -/
theorem Stretch.one {a b : Placed} (hs : s.template = a :: s.scanHere.2.template)
    (ht : t.template = b :: t.scanHere.2.template) (h : a.Kindred d s.reader.document b) :
    Stretch d s t 1 1 :=
  ⟨[a], [b], hs, ht, .cons h .nil⟩

/-- Both find the same of the template in one scan, and stay abreast. -/
structure ScansAlike (d : Dialect) (s t : Scanner Lookup) : Prop where
  next : s.scanHere.2.Abreast t.scanHere.2
  before_end : s.scanHere.1 ≠ .finished
  stretch : Stretch d s t 1 1

/-- **Inside a tag** both find the same token, unless an element disturbs the tag. -/
theorem Abreast.scan_inTag (h : s.Abreast t) (hp : s.machine.phase.inTag = true) :
    ScansAlike s.machine.grammar.dialect s t := by
  have hp' : t.machine.phase.inTag = true := by rw [(h.alike hp).phase, hp]
  obtain ⟨kind, hkind, hs⟩ := template_inTag hp
  obtain ⟨kind', hkind', ht⟩ := template_inTag hp'
  have hend : s.scanHere.1 ≠ .finished := by
    rw [hkind]
    rintro ⟨⟩
  have hparent (hcauses : .placements ∉ (aside (s.machine.blocks.parent?.any isElementName ||
      t.machine.blocks.parent?.any isElementName)).causes) :
      t.machine.blocks.parent? = s.machine.blocks.parent? := by
    obtain ⟨hs, ht⟩ := Bool.or_eq_false_iff.mp (undisturbed hcauses)
    exact h.machine.ledgers.parent? hs ht
  rcases (h.alike hp).aside.step_inTag hparent hp s.reader with hm | hd
  · refine ⟨h.next hend hm.extent hm.machine, hend, .one hs ht ?_⟩
    refine kindred_placedHere (h.reader hend hm.extent) ?_
    have hevent := hm.event
    rw [event_scanHere, Machine.step_of_mark h.place] at hkind'
    rw [← event_scanHere, hkind, hkind'] at hevent
    cases hevent with
    | same => exact Or.inl rfl
    | token hk => exact hk
  · have hconcern : Concern.arguments ∉ [Concern.associates] := by decide
    exact absurd hd.concern hconcern

/-- **A body** is passed over by both. -/
theorem Abreast.scan_body (h : s.Abreast t) (hp : s.machine.phase.inTag = false) {body : Body}
    (hb : s.machine.body = some body) (hr : s.reader.atEnd = false) : ScansAlike d s t := by
  obtain ⟨hp', hbrackets⟩ := h.outside hp
  have hb' : t.machine.body = some body := h.machine.body.trans hb
  have hs := Machine.step_body (h.sound.1.literal_of_body hp hb) hb hr
  have ht := Machine.step_body (h.sound.2.literal_of_body hp' hb') hb' hr
  have hm : (aside false).Matched d s.reader (s.machine.step s.reader)
      (t.machine.step s.reader) := by
    rw [hs, ht]
    exact Settled.passBody ⟨h.machine, hbrackets⟩ body
  obtain ⟨n, event, kept, heq, -, hcase⟩ :=
    Machine.stepBody_eq s.machine body (List.isEmpty_eq_false_iff.mp hr)
  rw [heq] at hs
  have hevent : s.scanHere.1 = event := by rw [event_scanHere, hs]
  have hevent' : t.scanHere.1 = event := by
    rw [event_scanHere, Machine.step_of_mark h.place, hm.event.eq, hs]
  have hend : s.scanHere.1 ≠ .finished := by
    rw [hevent]
    rcases hcase with ⟨-, rfl, -⟩ | ⟨-, rfl⟩ <;> rintro ⟨⟩
  have hout : s.scanHere.2.machine.phase.inTag = false := by
    rw [machine_scanHere, hs]
    rfl
  have hnext := h.next hend hm.extent hm.machine
  have hout' := (hnext.outside hout).1
  refine ⟨hnext, hend, ?_⟩
  rcases hcase with ⟨-, rfl, -⟩ | ⟨-, rfl⟩
  · exact .none (template_aside hp hout (by rw [hevent]; rfl))
      (template_aside hp' hout' (by rw [hevent']; rfl))
  · have hkind := h.sound.1.body body hb
    exact .one (template_body hp hout hevent hkind) (template_body hp' hout' hevent' hkind)
      (kindred_placedHere (h.reader hend hm.extent) (Or.inl rfl))

/-- **An open delimiter** opens a tag in both. -/
theorem Abreast.scan_openTag (h : s.Abreast t) (hp : s.machine.phase.inTag = false)
    {form form' : TagForm} (hs : s.OpensTag form) (ht : t.OpensTag form') : ScansAlike d s t := by
  have hoffset : t.reader.offset = s.reader.offset := by
    rw [← Reader.offset_mark, h.place, Reader.offset_mark]
  obtain rfl : form' = form := TagForm.eq_of_opener hs.opener (h.rest ▸ ht.opener)
  have hstep : t.machine.step s.reader = t.machine.openTag form' s.reader.offset := by
    rw [← Machine.step_of_mark h.place, ht.step, hoffset]
  have hend : s.scanHere.1 ≠ .finished := by
    rw [event_scanHere, hs.step]
    rintro ⟨⟩
  have hm : (aside false).Matched d s.reader (s.machine.step s.reader)
      (t.machine.step s.reader) := by
    rw [hs.step, hstep]
    exact h.machine.openTag form' _
  refine ⟨h.next hend hm.extent hm.machine, hend, ?_⟩
  exact .one (template_openTag hp hs) (template_openTag (h.outside hp).1 ht)
    (kindred_placedHere (h.reader hend hm.extent) (Or.inl rfl))

/-- After any number of scans the machine is sound. -/
theorem Sound.after (h : s.machine.Sound) (n : Nat) : (s.after n).machine.Sound := by
  induction n with
  | zero => exact h
  | succ n ih => exact ih.step _

/-- **Between the tags** each of them goes its own way, and both come to the same place. -/
theorem Abreast.exists_opener (h : s.Abreast t) (hp : s.machine.phase.inTag = false)
    (hb : s.machine.body = none) :
    ∃ j k n n', s.ComesToOpener j n ∧ t.ComesToOpener k n' ∧ (s.after j).Abreast (t.after k) := by
  obtain ⟨hp', hbrackets⟩ := h.outside hp
  have hb' : t.machine.body = none := h.machine.body.trans hb
  obtain ⟨j, n, hs⟩ := exists_comesToOpener hp hb h.sound.1.markup h.sound.1.element
  obtain ⟨k, n', ht⟩ := exists_comesToOpener hp' hb' h.sound.2.markup h.sound.2.element
  have hplace : (t.after k).reader.mark = (s.after j).reader.mark := by
    refine Reader.mark_of_rest ?_ ?_
    · rw [document_after, document_after, h.document]
    · have hstop := hs.atOpener.atStop
      have hstop' := ht.atOpener.atStop
      have havoids' := ht.avoids
      rw [hs.rest] at hstop ⊢
      rw [ht.rest, h.rest] at hstop' ⊢
      rw [h.rest] at havoids'
      exact havoids'.drop_eq hs.avoids hstop' hstop
  refine ⟨j, k, n, n', hs, ht, hplace, ⟨Sound.after h.sound.1 j, Sound.after h.sound.2 k⟩,
    akin_of_strays h.machine hs.strays ht.strays, fun hin => ?_, fun _ => ⟨ht.outside, ?_⟩⟩
  · exact absurd (hs.outside.symm.trans hin) Bool.false_ne_true
  · rw [hs.strays.brackets]
    exact hbrackets

-- ── up to the end ────────────────────────────────────────────────────────────────

/-- The two scans find kindred tokens of the template, and make the same reports about it. -/
structure FindsSame (d : Dialect) (s t : Scanner Lookup) : Prop where
  template : List.Forall₂ (Placed.Kindred d s.reader.document) s.template t.template
  notices : ∃ notices notices', s.EndsWith notices ∧ t.EndsWith notices' ∧
    templateNotices notices' = templateNotices notices

/-- What is found the same behind a stretch is found the same before it. -/
theorem FindsSame.of_stretch {j k : Nat} (h : Stretch d s t j k)
    (hlater : FindsSame d (s.after j) (t.after k)) : FindsSame d s t := by
  obtain ⟨found, found', hs, ht, hfound⟩ := h
  obtain ⟨htemplate, notices, notices', hends, hends', hnotices⟩ := hlater
  refine ⟨?_, notices, notices', hends.of_after, hends'.of_after, hnotices⟩
  rw [hs, ht]
  rw [document_after] at htemplate
  exact List.rel_append hfound htemplate

/-- At the end of the document the same blocks of the template are open. -/
theorem Abreast.scan_end (h : s.Abreast t) (hp : s.machine.phase.inTag = false)
    (hr : s.reader.atEnd = true) : FindsSame d s t := by
  have hr' : t.reader.atEnd = true := by
    rw [Reader.atEnd, h.rest]
    exact hr
  have hs := Machine.step_atEnd hp hr
  have ht := Machine.step_atEnd (h.outside hp).1 hr'
  have hend : s.scanHere.1 = .finished := by rw [event_scanHere, hs]
  have hend' : t.scanHere.1 = .finished := by rw [event_scanHere, ht]
  refine ⟨?_, _, _, ⟨0, hend, rfl⟩, ⟨0, hend', rfl⟩, ?_⟩
  · rw [template_of_finished hend, template_of_finished hend']
    exact .nil
  · obtain ⟨hblocks, hnotices, hflushed⟩ := h.machine.ledgers
    rw [after_succ, after_succ, machine_scanHere, machine_scanHere, after_zero, after_zero, hs, ht,
      h.document]
    exact Machine.templateNotices_flush hblocks hnotices hflushed _

/-- **Two scans that are abreast** find the same of the template, up to the end of the document. -/
theorem Abreast.findsSame (h : s.Abreast t) (hd : s.machine.grammar.dialect = d) :
    FindsSame d s t := by
  generalize hpotential : s.potential = bound
  induction bound using Nat.strongRecOn generalizing s t with
  | ind bound ih =>
      have hscan {s' t' : Scanner Lookup} (hle : s'.potential ≤ bound)
          (hd' : s'.machine.grammar.dialect = d) (hscans : ScansAlike d s' t') :
          FindsSame d s' t' := by
        have hlt := Nat.lt_of_lt_of_le (potential_scanHere_lt hscans.before_end) hle
        exact .of_stretch hscans.stretch
          (ih _ hlt hscans.next ((dialect_scanHere s').trans hd') rfl)
      cases hp : s.machine.phase.inTag with
      | true => exact hscan (Nat.le_of_eq hpotential) hd (hd ▸ h.scan_inTag hp)
      | false =>
          cases hr : s.reader.atEnd with
          | true => exact h.scan_end hp hr
          | false =>
              cases hb : s.machine.body with
              | some body => exact hscan (Nat.le_of_eq hpotential) hd (h.scan_body hp hb hr)
              | none =>
                  obtain ⟨j, k, n, n', hs, ht, hlater⟩ := h.exists_opener hp hb
                  refine .of_stretch (.none hs.template ht.template) ?_
                  rcases hs.atOpener with hnil | ⟨form, hopens⟩
                  · exact hlater.scan_end hs.outside (List.isEmpty_iff.mpr hnil)
                  · rcases ht.atOpener with hnil | ⟨form', hopens'⟩
                    · have hpre := hopens.opener
                      rw [← hlater.rest, hnil] at hpre
                      cases form <;> cases List.prefix_nil.mp hpre
                    · exact hscan (hpotential ▸ hs.potential_le) ((dialect_stays s j).trans hd)
                        (hlater.scan_openTag hs.outside hopens hopens')

-- ── two documents ────────────────────────────────────────────────────────────────

/-- **Elements only disturb the places of tags.**  Whichever HTML elements are tracked, the tags of
    a document and the bodies that are passed over have the same tokens in the same places; but a
    tag at the place of which an element was opened last may be misplaced where the other scan
    finds that tag.  The same blocks of the template are reported. -/
theorem template_part_associates (d : Dialect) (associates : List String) (source : String) :
    let s := ofString source d.lookup
    let t := ofString source { d with associates }.lookup
    List.Forall₂ (Placed.Kindred d (.ofString source)) (templatePart false s.placed)
        (templatePart false t.placed) ∧
      templateNotices (tokenize source { d with associates }.lookup).notices =
        templateNotices (tokenize source d.lookup).notices := by
  intro s t
  have hdiffer : d.DifferIn [.associates] { d with associates } :=
    (Dialect.DifferIn.refl _ d).withAssociates List.mem_cons_self associates
  have hstart : s.Abreast t := by
    refine ⟨rfl, ⟨Machine.sound_start _, Machine.sound_start _⟩,
      ⟨rfl, rfl, rfl, rfl, Lookup.akin_lookup hdiffer, rfl, rfl, rfl⟩,
      ?_, fun _ => ⟨rfl, rfl⟩⟩
    rintro ⟨⟩
  obtain ⟨htemplate, notices, notices', hends, hends', hnotices⟩ := hstart.findsSame rfl
  refine ⟨htemplate, ?_⟩
  rw [hends.tokenize, hends'.tokenize, hnotices]

/-- Between an element that is opened in a block and the end of that element, a tag that stands in
    that block only is misplaced. -/
theorem template_part_misplaced :
    let source := "\x7b%if x%\x7d<script>\x7b%else%\x7d</script>\x7b%endif%\x7d"
    let s := ofString source Dialect.standard.lookup
    let t := ofString source { Dialect.standard with associates := ["script"] }.lookup
    (templatePart false t.placed).map (·.token) ≠ (templatePart false s.placed).map (·.token) ∧
      ((templatePart false s.placed).map (·.token.kind))[6]? = some .control ∧
      ((templatePart false t.placed).map (·.token.kind))[6]? = some (.invalid .misplacedTag) := by
  decide +kernel

end Scanner

end TemplateScan
