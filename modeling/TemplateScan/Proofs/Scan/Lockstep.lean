import Mathlib.Tactic.IntervalCases
import TemplateScan.Proofs.Scan.Comparison
import TemplateScan.Proofs.Scan.Pairing
import TemplateScan.Proofs.Scan.Tokens

/-! # Lockstep — whole documents under two dialects that track the same elements

    Two dialects that track the same HTML elements send the scanner through a whole document in the
    same steps, as long as no name that one of them rejects as an argument goes on as a path.  Their
    tokens then have the same places, and their kinds differ as the concerns allow.

    * **`Comparison.plain`** — two scans whose records of blocks are the same.
    * **`Comparison.Alike.step`** — alike machines stay alike, or are parted by a rejected name.
    * **`Comparison.Parted.step`** — parted machines are alike again behind the argument.
    * **`tokenize_kindred`** — what that says of the tokens of a document. -/

namespace TemplateScan

open Text

/-- One of two events is a name that is rejected as an argument, and the other one is not. -/
def Event.OneRejects (event event' : Event) : Prop :=
  event ≠ event' ∧ (event = .token (.invalid (.rejected .reference)) ∨
    event' = .token (.invalid (.rejected .reference)))

instance (event event' : Event) : Decidable (event.OneRejects event') :=
  inferInstanceAs (Decidable (_ ∧ _))

/-- The machine under another grammar. -/
def Machine.under {γ : Type} (m : Machine γ) (grammar : γ) : Machine γ :=
  { m with grammar }

namespace Comparison

variable {C : Comparison} {m m' : Machine Lookup} {d : Dialect} {text : List Char} {r : Reader}
  {concerns : List Concern} {g : Lookup}

-- ── machines that are parted ─────────────────────────────────────────────────────

/-- What comes next, behind white space, neither goes on with a path nor closes a bracket. -/
def EndsPath (text : List Char) : Prop :=
  (text.dropWhile isTagBlank).head? ∉ [some '.', some '[', some ']']

instance (text : List Char) : Decidable (EndsPath text) :=
  inferInstanceAs (Decidable (¬ _ ∈ _))

/-- A path that ends is left to what follows the argument. -/
theorem stepMember_arguments {c : Char} {tail : List Char} (hb : m.brackets = ∅)
    (hr : r.rest = c :: tail) (hc : c ≠ '.' ∧ c ≠ '[' ∧ c ≠ ']') :
    m.stepMember .arguments r = m.releaseObject.stepSeparator r.rest := by
  obtain ⟨hdot, hopen, hclose⟩ := hc
  have hempty : (!m.brackets.isEmpty) = false := by rw [hb]; rfl
  have hhead : r.rest.head? ≠ some ']' := by
    rw [hr]
    exact fun h => hclose (Option.some.inj h)
  rw [Machine.stepMember_other hr hdot hopen, hempty, if_neg Bool.false_ne_true, if_neg hhead]
  rfl

/-- Blanks may be dropped in two goes. -/
theorem dropWhile_drop_takeWhile {p q : Char → Bool} (hpq : ∀ c, p c = true → q c = true)
    (text : List Char) :
    (text.drop (text.takeWhile p).length).dropWhile q = text.dropWhile q := by
  induction text with
  | nil => rfl
  | cons c text ih =>
      cases hc : p c with
      | true =>
          rw [List.takeWhile_cons_of_pos hc, List.dropWhile_cons_of_pos (hpq c hc)]
          exact ih
      | false =>
          rw [List.takeWhile_cons_of_neg (by rw [hc]; exact Bool.false_ne_true)]
          rfl

/-- Where the argument ends, both go on behind it. -/
theorem Parted.stepPhase (h : C.Parted m m') {c : Char} {tail : List Char}
    (hr : r.rest = c :: tail) (hc : c ≠ '.' ∧ c ≠ '[' ∧ c ≠ ']') :
    C.Matched d r (m.stepPhase r) (m'.stepPhase r) := by
  have hclosed' : m'.brackets = ∅ := h.brackets.trans h.closed
  rw [Machine.stepPhase, Machine.stepPhase]
  rcases h.phases with ⟨hp, hp'⟩ | ⟨hp, hp'⟩
  · have hnext : C.Settled m m'.releaseObject := { h with lookups := { h.lookups with } }
    rw [hp, hp']
    show C.Matched d r (m.stepSeparator r.rest) (m'.stepMember .arguments r)
    rw [stepMember_arguments hclosed' hr hc]
    exact hnext.separator
  · have hnext : C.Settled m.releaseObject m' := { h with lookups := { h.lookups with } }
    rw [hp, hp']
    show C.Matched d r (m.stepMember .arguments r) (m'.stepSeparator r.rest)
    rw [stepMember_arguments h.closed hr hc]
    exact hnext.separator

/-- Scans part inside a tag only. -/
theorem Parted.inTag (h : C.Parted m m') : m.phase.inTag = true ∧ m'.phase.inTag = true := by
  rcases h.phases with ⟨hp, hp'⟩ | ⟨hp, hp'⟩ <;> rw [hp, hp'] <;> exact ⟨rfl, rfl⟩

/-- White space in front of it does not matter. -/
theorem EndsPath.drop (h : EndsPath text) {p : Char → Bool}
    (hp : ∀ c, p c = true → isTagBlank c = true) :
    EndsPath (text.drop (text.takeWhile p).length) := by
  rw [EndsPath, dropWhile_drop_takeWhile hp]
  exact h

/-- **Parted machines** take white space alike, and where the argument has ended are alike again. -/
theorem Parted.step (h : C.Parted m m') (hr : EndsPath r.rest) :
    C.Matched d r (m.step r) (m'.step r) ∨
      ∃ kind n, m.step r = ⟨.token kind, .take n, m⟩ ∧ m'.step r = ⟨.token kind, .take n, m'⟩ ∧
        EndsPath (r.rest.drop n) := by
  obtain ⟨hin, hin'⟩ := h.inTag
  have hliteral {p : Phase} (hp : p.inTag = true) : p ≠ .literal := by
    rintro rfl
    cases hp
  rw [Machine.step, Machine.step, if_neg (hliteral hin), if_neg (hliteral hin')]
  split
  · exact Or.inl (h.stepEnd hin hin' _)
  · next hend =>
      dsimp only
      split
      · refine Or.inr ⟨.spacing, _, rfl, rfl, hr.drop fun c hc => ?_⟩
        rw [isTagBlank, hc, Bool.true_or]
      · next hspacing =>
          split
          · refine Or.inr ⟨.lineBreak, _, rfl, rfl, hr.drop fun c hc => ?_⟩
            rw [isTagBlank, hc, Bool.or_true]
          · next hbreak =>
              left
              cases hrest : r.rest with
              | nil =>
                  rw [Reader.atEnd, hrest] at hend
                  exact absurd rfl hend
              | cons c tail =>
                  have hblank : ¬ isTagBlank c = true := by
                    rw [isTagBlank, Bool.or_eq_true]
                    rintro (hs | hl)
                    · exact hspacing (by rw [hrest, List.takeWhile_cons_of_pos hs]; rfl)
                    · exact hbreak (by rw [hrest, List.takeWhile_cons_of_pos hl]; rfl)
                  rw [EndsPath, hrest, List.dropWhile_cons_of_neg hblank] at hr
                  refine h.stepPhase hrest ?_
                  simpa using hr

-- ── the same records ─────────────────────────────────────────────────────────────

/-- The comparison of two scans that record the same blocks. -/
def plain (concerns : List Concern) : Comparison where
  concerns
  causes := concerns
  concerns_subset _ h _ := h
  ledgers := Eq
  openTag := congrArg Ledger.openTag
  push _ _ := congrArg (Ledger.push · _ _)
  close _ := congrArg (Ledger.close · _)

/-- Machines that have recorded the same differ in their grammars only. -/
theorem Alike.eq_under (h : (plain concerns).Alike m m') : m' = m.under m'.grammar := by
  obtain ⟨⟨hbody, hbrackets, hform, hstart, -, hledgers⟩, hphase, -, -⟩ := h
  have hnode : m.tag.node = m'.tag.node := congrArg Ledger.node hledgers
  have hblocks : m.blocks = m'.blocks := congrArg Ledger.blocks hledgers
  have hnodes : m.nodes = m'.nodes := congrArg Ledger.nodes hledgers
  have hpair : m.pair = m'.pair := congrArg Ledger.pair hledgers
  have hnotices : m.notices = m'.notices := congrArg Ledger.notices hledgers
  have hflushed : m.flushed = m'.flushed := congrArg Ledger.flushed hledgers
  have htag : m'.tag = m.tag := by
    rw [show m'.tag = ⟨m'.tag.form, m'.tag.start, m'.tag.node⟩ from rfl, hform, hstart, ← hnode]
  rw [Machine.under, ← hphase, ← htag, ← hbody, ← hbrackets, hblocks, hnodes, hpair, hnotices,
    hflushed]

/-- A machine and the same machine under a related grammar. -/
theorem settled_under (hg : m.grammar.Akin concerns g) (hb : m.brackets = ∅) :
    (plain concerns).Settled m (m.under g) :=
  ⟨⟨rfl, rfl, rfl, rfl, hg, rfl⟩, hb⟩

/-- Outside tags they are alike. -/
theorem alike_under (hg : m.grammar.Akin concerns g) (hb : m.brackets = ∅)
    (hp : m.phase.inPath = false) : (plain concerns).Alike m (m.under g) :=
  { settled_under hg hb with
    phase := rfl
    object := fun hin => absurd (hp.symm.trans hin) Bool.false_ne_true
    closed := fun _ => hb }

-- ── outside tags ─────────────────────────────────────────────────────────────────

section

variable (hg : m.grammar.Akin concerns g) (ha : .associates ∉ concerns) (hb : m.brackets = ∅)

include hg ha hb

/-- Literal text ends at the same place. -/
theorem plain_passText : (plain concerns).Matched d r (m.passText r.rest)
    ((m.under g).passText r.rest) := by
  have hassociates : Grammar.hasAssociates (m.under g).grammar = Grammar.hasAssociates m.grammar :=
    hg.hasAssociates ha
  rw [Machine.passText, Machine.passText, hassociates]
  exact ⟨rfl, .same _, alike_under (m := { m with phase := .literal }) hg hb rfl⟩

/-- Elements are tracked alike, where associates are no concern. -/
theorem plain_element (name : List Char) : (plain concerns).Matched d r (m.stepElement name r)
    ((m.under g).stepElement name r) := by
  have hassociate : Grammar.isAssociate (m.under g).grammar (String.ofList name) =
      Grammar.isAssociate m.grammar (String.ofList name) := hg.isAssociate ha _
  rw [Machine.stepElement, Machine.stepElement, hassociate]
  refine .ite ?_ ((settled_under hg hb).emit rfl)
  have hopened := settled_under (m := { m with
    blocks := m.blocks.push ⟨Machine.elementKey name, m.nodes,
      r.document.spanOf r.offset (r.offsetAt (1 + name.length))⟩
    nodes := m.nodes + 1 }) hg hb
  exact hopened.emit rfl

/-- Elements end alike. -/
theorem plain_endElement (name : List Char) :
    (plain concerns).Matched d r (m.stepEndElement name) ((m.under g).stepEndElement name) := by
  have hassociate : Grammar.isAssociate (m.under g).grammar (String.ofList name) =
      Grammar.isAssociate m.grammar (String.ofList name) := hg.isAssociate ha _
  rw [Machine.stepEndElement, Machine.stepEndElement, hassociate]
  refine .ite ?_ ((settled_under hg hb).emit rfl)
  have hclosed := settled_under (m := { m with
    pair := (m.blocks.nearest? (Machine.elementKey name)).map Block.node
    blocks := m.blocks.close (Machine.elementKey name) }) hg hb
  exact hclosed.emit rfl

/-- The same elements begin and end. -/
theorem plain_markupText : (plain concerns).Matched d r (m.stepMarkupText r)
    ((m.under g).stepMarkupText r) := by
  have hpass := plain_passText (d := d) (r := r) hg ha hb
  rw [Machine.stepMarkupText, Machine.stepMarkupText]
  split
  · split
    · exact plain_endElement hg ha hb _
    · exact hpass
  · split
    · exact plain_element hg ha hb _
    · exact hpass
  · exact hpass

/-- Outside tags the scans match. -/
theorem plain_literal : (plain concerns).Matched d r (m.stepLiteral r)
    ((m.under g).stepLiteral r) := by
  have hsettled := settled_under hg hb
  have hbody : (m.under g).body = m.body := rfl
  have hassociates : Grammar.hasAssociates (m.under g).grammar = Grammar.hasAssociates m.grammar :=
    hg.hasAssociates ha
  have htext : (plain concerns).Matched d r
      (if Grammar.hasAssociates m.grammar then m.stepMarkupText r else m.passText r.rest)
      (if Grammar.hasAssociates m.grammar then (m.under g).stepMarkupText r
        else (m.under g).passText r.rest) :=
    .ite (plain_markupText hg ha hb) (plain_passText hg ha hb)
  rw [Machine.stepLiteral, Machine.stepLiteral, hbody, hassociates]
  split
  · exact hsettled.passBody _
  · exact .ite (hsettled.toAkin.openTag _ _) (.ite (hsettled.toAkin.openTag _ _) htext)

/-- Attributes are found in the text alone. -/
theorem plain_attributeName : (plain concerns).Matched d r (m.stepAttributeName r)
    ((m.under g).stepAttributeName r) := by
  have hsettled := settled_under hg hb
  have hclosed := settled_under (m := { m with blocks := Machine.closeInnermost m.blocks }) hg hb
  have hliteral := plain_literal (d := d) (r := r) (m := { m with phase := .literal }) hg ha hb
  refine .ite (hsettled.emit rfl) (.ite (hclosed.emit rfl) (.ite hliteral ?_))
  exact .ite (hsettled.emit rfl) (hsettled.emit rfl)

theorem plain_markup (phase : MarkupPhase) : (plain concerns).Matched d r (m.stepMarkup phase r)
    ((m.under g).stepMarkup phase r) := by
  have hsettled := settled_under hg hb
  have hname := plain_attributeName (d := d) (r := r) hg ha hb
  cases phase with
  | attributeName => exact hname
  | attributeOperator => exact .ite (hsettled.emit rfl) hname
  | attributeValue =>
      rw [Machine.stepMarkup, Machine.stepMarkup, Machine.stepAttributeValue,
        Machine.stepAttributeValue]
      split
      · exact hsettled.emit rfl
      · exact hsettled.emit rfl
      · exact .ite hname (hsettled.emit rfl)
  | closeName => exact .ite (hsettled.emit rfl) (hsettled.emit rfl)

omit ha in
/-- At the end of the document the same blocks are reported. -/
theorem plain_stepEnd (hp : m.phase.inTag = false) (size : Nat) :
    (plain concerns).Matched d r (m.stepEnd size) ((m.under g).stepEnd size) := by
  have hout : ¬ m.phase.inTag = true := by rw [hp]; exact Bool.false_ne_true
  rw [Machine.stepEnd, Machine.stepEnd, if_neg hout, show (m.under g).phase = m.phase from rfl,
    if_neg hout]
  refine ⟨rfl, .same _, ?_⟩
  rw [Machine.flush, Machine.flush]
  split
  · next hflushed =>
      rw [show ({ m.under g with phase := .literal } : Machine Lookup).flushed = m.flushed from rfl,
        if_pos hflushed]
      exact alike_under (m := { m with phase := .literal }) hg hb rfl
  · next hflushed =>
      rw [show ({ m.under g with phase := .literal } : Machine Lookup).flushed = m.flushed from rfl,
        if_neg hflushed]
      exact alike_under (m := { m with
        phase := .literal
        flushed := true
        notices := m.notices ++ m.blocks.notices size
        blocks := ∅ }) hg hb rfl

/-- **Outside tags** the machine does the same under a related grammar. -/
theorem plain_outside (hp : m.phase.inTag = false) :
    (plain concerns).Matched d r (m.step r) ((m.under g).step r) := by
  have hphase : (m.under g).phase = m.phase := rfl
  have hsettled := settled_under hg hb
  rw [Machine.step, Machine.step, hphase, Machine.stepPhase, Machine.stepPhase, hphase]
  refine .ite (plain_stepEnd hg hb hp _) ?_
  cases hm : m.phase with
  | literal => exact plain_literal hg ha hb
  | markup phase =>
      have hmarkup := plain_markup (d := d) (r := r) hg ha hb phase
      exact .ite hmarkup (.ite (hsettled.emit rfl) (.ite (hsettled.emit rfl) hmarkup))
  | _ =>
      rw [hm] at hp
      cases hp

end

/-- **Any step.**  Two machines that are alike and track the same elements take the same text, and
    stay alike, unless a name is rejected by one of them. -/
theorem Alike.step (h : (plain concerns).Alike m m') (ha : .associates ∉ concerns) (r : Reader) :
    (plain concerns).Matched m.grammar.dialect r (m.step r) (m'.step r) ∨
      (plain concerns).Departs (m.step r) (m'.step r) := by
  cases hp : m.phase.inTag with
  | true =>
      have hblocks : m.blocks = m'.blocks := congrArg Ledger.blocks h.ledgers
      exact h.step_inTag (fun _ => by rw [hblocks]) hp r
  | false =>
      have hb : m.brackets = ∅ := h.closed (Phase.mayHoldBrackets_of_outside hp)
      have hunder := h.eq_under
      left
      rw [hunder]
      exact plain_outside h.lookups ha hb hp

/-- A name that one scan rejects has kindred tokens in both. -/
theorem Departs.kindred {reply reply' : Reply Lookup} (h : C.Departs reply reply') :
    reply.event.Kindred C.causes d text reply'.event := by
  obtain ⟨kind, hkind, ⟨he, he'⟩ | ⟨he, he'⟩⟩ := h.event
  · rw [he, he']
    exact .token (Or.inr ⟨_, C.concerns_subset _ h.concern (by decide), Or.inl (.rejected hkind)⟩)
  · rw [he, he']
    exact .token (Or.inr ⟨_, C.concerns_subset _ h.concern (by decide), Or.inr (.rejected hkind)⟩)

/-- Where the scans part, one of them has rejected the name. -/
theorem Departs.oneRejects {reply reply' : Reply Lookup} (h : C.Departs reply reply') :
    reply.event.OneRejects reply'.event := by
  obtain ⟨kind, hkind, ⟨he, he'⟩ | ⟨he, he'⟩⟩ := h.event
  · rw [he, he']
    refine ⟨?_, Or.inl rfl⟩
    cases hkind <;> rintro ⟨⟩
  · rw [he, he']
    refine ⟨?_, Or.inr rfl⟩
    cases hkind <;> rintro ⟨⟩

end Comparison

-- ── two scans ────────────────────────────────────────────────────────────────────

namespace Scanner

open Comparison

variable {concerns : List Concern} {d e : Dialect} {s t : Scanner Lookup}

/-- The two scans are at the same place, and their machines are alike, or parted by a name behind
    which its argument ends. -/
structure InStep (concerns : List Concern) (s t : Scanner Lookup) : Prop where
  reader : t.reader = s.reader
  machine : (plain concerns).Alike s.machine t.machine ∨
    (plain concerns).Parted s.machine t.machine ∧ EndsPath s.reader.rest

/-- The tokens of the next scans are called the same, but for the concerns, and both scans go on
    from the same place. -/
theorem InStep.scanHere (h : InStep concerns s t) (ha : .associates ∉ concerns)
    (hends : .arguments ∈ concerns → s.scanHere.1.OneRejects t.scanHere.1 →
      EndsPath s.scanHere.2.reader.rest) :
    s.scanHere.1.Kindred concerns s.machine.grammar.dialect s.scanHere.2.reader.token
        t.scanHere.1 ∧
      InStep concerns s.scanHere.2 t.scanHere.2 := by
  obtain ⟨hreader, hmachine⟩ := h
  have hplace (hextent : (t.machine.step s.reader).extent = (s.machine.step s.reader).extent) :
      t.scanHere.2.reader = s.scanHere.2.reader := by
    rw [reader_scanHere, reader_scanHere, hreader, hextent]
  rw [event_scanHere, event_scanHere, hreader] at hends ⊢
  rcases hmachine with halike | ⟨hparted, hpath⟩
  · rcases halike.step ha s.reader with hm | hd
    · refine ⟨hm.event, hplace hm.extent, Or.inl ?_⟩
      rw [machine_scanHere, machine_scanHere, hreader]
      exact hm.machine
    · refine ⟨hd.kindred, hplace hd.extent, Or.inr ⟨?_, hends hd.concern hd.oneRejects⟩⟩
      rw [machine_scanHere, machine_scanHere, hreader]
      exact hd.machine
  · rcases hparted.step hpath with hm | ⟨kind, n, hs, ht, hnext⟩
    · refine ⟨hm.event, hplace hm.extent, Or.inl ?_⟩
      rw [machine_scanHere, machine_scanHere, hreader]
      exact hm.machine
    · have hrest : s.scanHere.2.reader.rest = s.reader.rest.drop n := by
        rw [reader_scanHere, hs]
        rfl
      refine ⟨?_, hplace (by rw [hs, ht]), Or.inr ⟨?_, ?_⟩⟩
      · rw [hs, ht]
        exact .same _
      · rw [machine_scanHere, machine_scanHere, hreader, hs, ht]
        exact hparted
      · rw [hrest]
        exact hnext

/-- Wherever one of the two scans of a document rejects a name that the other one takes, no path
    goes on behind that name. -/
def NamesEnd (s t : Scanner Lookup) : Prop :=
  ∀ n, (s.eventAt n).OneRejects (t.eventAt n) → EndsPath (s.after (n + 1)).reader.rest

/-- Scans in step stay so, where names end behind which they would part. -/
theorem InStep.after (h : InStep concerns s t) (ha : .associates ∉ concerns)
    (hends : .arguments ∈ concerns → NamesEnd s t) (n : Nat) :
    InStep concerns (s.after n) (t.after n) := by
  induction n with
  | zero => exact h
  | succ n ih => exact (ih.scanHere ha fun hargs => hends hargs n).2

/-- Scans in step find kindred tokens. -/
theorem InStep.eventAt (h : InStep concerns s t) (ha : .associates ∉ concerns)
    (hends : .arguments ∈ concerns → NamesEnd s t) (n : Nat) :
    (s.eventAt n).Kindred concerns (s.after n).machine.grammar.dialect
      (s.after (n + 1)).reader.token (t.eventAt n) :=
  ((h.after ha hends n).scanHere ha fun hargs => hends hargs n).1

/-- The records of the two scans are the same. -/
theorem InStep.ledger (h : InStep concerns s t) : s.machine.ledger = t.machine.ledger := by
  rcases h.machine with halike | ⟨hparted, -⟩
  · exact halike.ledgers
  · exact hparted.ledgers

/-- Scans in step find as many tokens, kindred one by one. -/
theorem InStep.tokensUpTo (h : InStep concerns s t) (ha : .associates ∉ concerns)
    (hends : .arguments ∈ concerns → NamesEnd s t)
    (hd : ∀ n, (s.after n).machine.grammar.dialect = d) (n : Nat) :
    List.Forall₂ (Token.Kindred concerns d s.reader.document) (s.tokensUpTo n)
      (t.tokensUpTo n) := by
  induction n with
  | zero => exact .nil
  | succ n ih =>
      rw [tokensUpTo_succ, tokensUpTo_succ]
      refine List.rel_append ih ?_
      have hreader := (h.after ha hends (n + 1)).reader
      have hevent := h.eventAt ha hends n
      have htext (kind : TokenKind) : Token.text? ⟨kind, (s.after (n + 1)).reader.span⟩
          s.reader.document = some (s.after (n + 1)).reader.token := by
        rw [← document_after s (n + 1)]
        exact Token.text?_span kind _
      rw [hd n] at hevent
      rw [tokenAt, tokenAt]
      generalize s.eventAt n = event at hevent ⊢
      generalize t.eventAt n = event' at hevent ⊢
      cases hevent with
      | same =>
          cases event with
          | token kind =>
              have hspan := congrArg Reader.span hreader
              exact .cons ⟨hspan, _, htext kind, Or.inl rfl⟩ .nil
          | text => exact .nil
          | finished => exact .nil
      | @token kind kind' hk =>
          have hspan := congrArg Reader.span hreader
          exact .cons ⟨hspan, _, htext kind, hk⟩ .nil

-- ── two documents ────────────────────────────────────────────────────────────────

/-- **Lockstep.**  Under two dialects that track the same elements the tokens of a document have the
    same places, and kinds that differ because of the concerns only; the same blocks are found, and
    reported at the end. -/
theorem tokenize_kindred (h : d.DifferIn concerns e) (ha : .associates ∉ concerns) (source : String)
    (hends : .arguments ∈ concerns →
      NamesEnd (ofString source d.lookup) (ofString source e.lookup)) :
    List.Forall₂ (Token.Kindred concerns d (.ofString source))
        (tokenize source d.lookup).tokens (tokenize source e.lookup).tokens ∧
      (tokenize source e.lookup).notices = (tokenize source d.lookup).notices ∧
      ∀ n, ((ofString source e.lookup).after n).machine.pair =
        ((ofString source d.lookup).after n).machine.pair := by
  have hstart : InStep concerns (ofString source d.lookup) (ofString source e.lookup) :=
    ⟨rfl, Or.inl ⟨⟨rfl, rfl, rfl, rfl, Lookup.akin_lookup h, rfl⟩, rfl, by rintro ⟨⟩,
      fun _ => rfl⟩⟩
  have hfinished (n : Nat) : (ofString source e.lookup).eventAt n = .finished ↔
      (ofString source d.lookup).eventAt n = .finished := by
    have hevent := hstart.eventAt ha hends n
    generalize (ofString source d.lookup).eventAt n = event at hevent ⊢
    generalize (ofString source e.lookup).eventAt n = event' at hevent ⊢
    cases hevent with
    | same => exact Iff.rfl
    | token hk => exact ⟨by rintro ⟨⟩, by rintro ⟨⟩⟩
  have hledger (n : Nat) := (hstart.after ha hends n).ledger
  obtain ⟨n, hend, hbefore, heq⟩ := tokenize_eq source d.lookup
  have heq' := tokenize_of_finished ((hfinished n).mpr hend) fun i hi =>
    mt (hfinished i).mp (hbefore i hi)
  rw [heq, heq']
  refine ⟨hstart.tokensUpTo ha hends (dialect_after source d) n, ?_, fun k => ?_⟩
  · exact (congrArg Ledger.notices (hledger (n + 1))).symm
  · exact (congrArg Ledger.pair (hledger k)).symm

/-- **Objects and places only classify.**  Whatever two dialects say of objects and of the places of
    tags, the tokens of a document have the same places, and where their kinds differ the one is an
    object and the other a variable, the one an unknown property and the other a property, or the
    one a misplaced tag and the other that tag.  The same blocks are paired and reported. -/
theorem tokenize_reclassified (h : d.DifferIn [.objects, .placements] e) (source : String) :
    List.Forall₂ (Token.Kindred [.objects, .placements] d (.ofString source))
        (tokenize source d.lookup).tokens (tokenize source e.lookup).tokens ∧
      (tokenize source e.lookup).notices = (tokenize source d.lookup).notices ∧
      ∀ n, ((ofString source e.lookup).after n).machine.pair =
        ((ofString source d.lookup).after n).machine.pair :=
  tokenize_kindred h (by decide) source fun hargs => absurd hargs (by decide)

theorem tokenize_reclassified_else :
    let d := Dialect.empty.withTag "else" ((TagRule.ofKind .other).within ["if"])
    let e := (Dialect.empty.withTag "else" (TagRule.ofKind .other)).withObject "x" .any
    let source := "\x7b%else%\x7d\x7b\x7by|f:x\x7d\x7d"
    d.DifferIn [.objects, .placements] e ∧
      List.Forall₂ (Token.Kindred [.objects, .placements] d (.ofString source))
        (tokenize source d.lookup).tokens (tokenize source e.lookup).tokens ∧
      (tokenize source d.lookup).kinds[1]? = some (.invalid .misplacedTag) ∧
      (tokenize source e.lookup).kinds[1]? = some .startTag := by
  intro d e source
  have htag : d.DifferIn [.objects, .placements]
      (Dialect.empty.withTag "else" (TagRule.ofKind .other)) :=
    (Dialect.DifferIn.refl _ Dialect.empty).withTag "else" rfl
  have hdiffer : d.DifferIn [.objects, .placements] e := htag.withObject (by decide) "x" .any
  refine ⟨hdiffer, (tokenize_reclassified hdiffer source).1, ?_⟩
  decide +kernel

/-- **Rejected arguments.**  Whatever types two dialects let the arguments of filters accept, the
    tokens of a document have the same places, and where their kinds differ the one is a value and
    the other an error that rejects it; as long as no path goes on behind a name that is rejected
    under one of them only. -/
theorem tokenize_rejected (h : d.DifferIn [.arguments] e) (source : String)
    (hends : NamesEnd (ofString source d.lookup) (ofString source e.lookup)) :
    List.Forall₂ (Token.Kindred [.arguments] d (.ofString source))
        (tokenize source d.lookup).tokens (tokenize source e.lookup).tokens ∧
      (tokenize source e.lookup).notices = (tokenize source d.lookup).notices := by
  obtain ⟨htokens, hnotices, -⟩ := tokenize_kindred h (by decide) source fun _ => hends
  exact ⟨htokens, hnotices⟩

/-- Behind a name and a blank the next argument of the filter is scanned as if the name had been
    accepted. -/
theorem tokenize_rejected_name :
    let d := Dialect.empty.withFilter "f" (.ofArguments [.ofTypes [], .ofTypes []])
    let e := Dialect.empty.withFilter "f" (.ofArguments [.ofTypes [.string], .ofTypes [.string]])
    let source := "\x7b\x7bx|f:a ,1\x7d\x7d"
    d.DifferIn [.arguments] e ∧ NamesEnd (ofString source d.lookup) (ofString source e.lookup) ∧
      List.Forall₂ (Token.Kindred [.arguments] d (.ofString source))
        (tokenize source d.lookup).tokens (tokenize source e.lookup).tokens ∧
      (tokenize source d.lookup).faults = [] ∧
      (tokenize source e.lookup).faults = [.rejected .reference, .rejected .integer] := by
  intro d e source
  have hdiffer : d.DifferIn [.arguments] e :=
    (Dialect.DifferIn.refl _ Dialect.empty).withFilter "f" rfl
  have hends : NamesEnd (ofString source d.lookup) (ofString source e.lookup) := by
    have hscans : ∀ n < 11, ((ofString source d.lookup).eventAt n).OneRejects
        ((ofString source e.lookup).eventAt n) →
          EndsPath ((ofString source d.lookup).after (n + 1)).reader.rest := by
      intro n hn
      interval_cases n <;> decide +kernel
    have hend : (ofString source d.lookup).eventAt 11 = .finished ∧
        (ofString source e.lookup).eventAt 11 = .finished := by
      decide +kernel
    intro n hone
    refine hscans n (Nat.lt_of_not_le fun hn => hone.1 ?_) hone
    rw [eventAt_of_finished hend.1 hn, eventAt_of_finished hend.2 hn]
  refine ⟨hdiffer, hends, (tokenize_rejected hdiffer source hends).1, ?_⟩
  decide +kernel

/-- Where a path goes on behind a rejected name, the rest of it is not scanned as such. -/
theorem tokenize_rejected_path :
    let d := Dialect.empty.withFilter "f" (.ofArguments [.ofTypes []])
    let e := Dialect.empty.withFilter "f" (.ofArguments [.ofTypes [.string]])
    let source := "\x7b\x7bx|f:a.b\x7d\x7d"
    d.DifferIn [.arguments] e ∧
      (tokenize source e.lookup).tokens.length ≠ (tokenize source d.lookup).tokens.length ∧
      (tokenize source e.lookup).faults = [.rejected .reference, .missingSeparator] := by
  intro d e source
  refine ⟨(Dialect.DifferIn.refl _ Dialect.empty).withFilter "f" rfl, ?_⟩
  decide +kernel

end Scanner

end TemplateScan
