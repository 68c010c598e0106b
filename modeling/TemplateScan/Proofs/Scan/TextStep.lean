import TemplateScan.Proofs.Scan.Clear
import TemplateScan.Scan.Step

/-! # Steps outside tags — everything that one of them can answer

    Outside tags, in literal text or in the markup of an HTML element, a step opens a tag, passes
    over a body or a run of text, or takes a piece of markup.  `TextStep` lists these answers; no
    open delimiter begins in any text taken that is not a body (`Avoids openers`).

    * **`step_outside`** — every step outside tags, before the end of the document, is one of
      them. -/

namespace TemplateScan

open Text

/-- The token is a piece of markup. -/
def TokenKind.isMarkup : TokenKind → Bool
  | .attributeName | .attributeOperator | .attributeValue => true
  | .markupClose | .endMarkupClose | .cancelled => true
  | _ => false

/-- The phase is among the attributes of an element. -/
def Phase.inAttributes : Phase → Bool
  | .markup .closeName => false
  | .markup _ => true
  | _ => false

/-- The attributes of an element are part of its markup. -/
theorem Phase.exists_of_inAttributes {p : Phase} (h : p.inAttributes = true) :
    ∃ phase, p = .markup phase := by
  cases p with
  | markup phase => exact ⟨phase, rfl⟩
  | _ => exact nomatch h

namespace Machine

variable {γ : Type} [Grammar γ]

/-- What one step outside tags can answer. -/
inductive TextStep (m : Machine γ) (r : Reader) : Reply γ → Prop where
  /-- A body that is passed over. -/
  | body {body} (hb : m.body = some body) : TextStep m r (m.stepBody body r.rest)
  /-- An open delimiter. -/
  | opens {form} (hb : m.body = none) (hf : form.opener <+: r.rest) :
      TextStep m r (m.openTag form r.offset)
  /-- The name of an element that begins. -/
  | element {name tail} (hb : m.body = none) (hr : r.rest = '<' :: tail)
      (hn : identifier? tail = some name) : TextStep m r (m.stepElement name r)
  /-- The name of an element that ends. -/
  | endElement {name tail} (hb : m.body = none) (hr : r.rest = '<' :: '/' :: tail)
      (hn : identifier? tail = some name) : TextStep m r (m.stepEndElement name)
  /-- A run of text. -/
  | text {n} (hb : m.body = none) (hn : 0 < n) (hc : Avoids openers n r.rest) :
      TextStep m r ⟨.text, .take n, { m with phase := .literal }⟩
  /-- A piece of markup; the attributes of an element end with its bracket. -/
  | markup {kind n p} (hk : kind.isMarkup = true) (hn : 0 < n) (hc : Avoids openers n r.rest)
      (hp : p.inTag = false) (hm : ∃ phase, m.phase = .markup phase)
      (ha : p.inAttributes = true ∨ kind = .markupClose → m.phase.inAttributes = true)
      (he : kind = .markupClose → r.rest.head? = some '>') :
      TextStep m r ⟨.token kind, .take n, { m with phase := p }⟩
  /-- The end of an element without content, which closes its block. -/
  | selfClose (hs : ['/', '>'] <+: r.rest) (hm : m.phase.inAttributes = true) :
      TextStep m r ({ m with blocks := closeInnermost m.blocks }.emit .markupClose 2 .literal)
  /-- White space in markup. -/
  | space {kind n phase} (hk : kind = .spacing ∨ kind = .lineBreak) (hn : 0 < n)
      (hc : Avoids openers n r.rest) (hp : m.phase = .markup phase) :
      TextStep m r ⟨.token kind, .take n, m⟩
  /-- The end of markup that is not closed. -/
  | leave (hp : m.phase = .markup .closeName) :
      TextStep m r ⟨.token .cancelled, .take 0, { m with phase := .literal }⟩

variable {m : Machine γ} {r : Reader} {reply : Reply γ}

/-- In literal text a machine can answer what it can answer where it comes from. -/
theorem TextStep.of_literal (h : TextStep { m with phase := .literal } r reply) :
    TextStep m r reply := by
  cases h with
  | body hb => exact .body hb
  | opens hb hf => exact .opens hb hf
  | element hb hr hn => exact .element hb hr hn
  | endElement hb hr hn => exact .endElement hb hr hn
  | text hb hn hc => exact .text hb hn hc
  | markup hk hn hc hp hm ha he =>
      obtain ⟨phase, hphase⟩ := hm
      exact nomatch hphase
  | selfClose hs hm => exact nomatch hm
  | space hk hn hc hp => exact nomatch hp
  | leave hp => exact nomatch hp

-- ── stretches without an open delimiter ──────────────────────────────────────────

/-- No open delimiter begins in a word without a brace. -/
theorem avoids_word {word text : List Char} (h : word <+: text) (hw : '{' ∉ word) :
    Avoids openers word.length text :=
  Avoids.of_prefix h fun _ hc => startsNone_openers fun he => hw (he ▸ hc)

/-- No open delimiter begins in a run of characters other than a brace. -/
theorem avoids_takeWhile {p : Char → Bool} {text : List Char} (hp : p '{' = false) :
    Avoids openers (text.takeWhile p).length text := by
  refine avoids_word (List.takeWhile_prefix p) fun hmem => ?_
  have hbrace := List.all_eq_true.mp List.all_takeWhile _ hmem
  exact absurd (hp.symm.trans hbrace) Bool.false_ne_true

-- ── literal text ─────────────────────────────────────────────────────────────────

/-- No open delimiter begins in a run of text, if none begins where the run begins. -/
theorem avoids_literal {associates : Bool} {text : List Char} (hne : text ≠ [])
    (hno : ∀ o ∈ openers, ¬ o <+: text) :
    Avoids openers (literalLength associates text) text := by
  cases text with
  | nil => exact absurd rfl hne
  | cons c cs =>
      have hone : Avoids openers 1 (c :: cs) := by
        refine ⟨Nat.succ_le_succ (Nat.zero_le _), fun j hj => ?_⟩
        obtain rfl : j = 0 := by omega
        exact hno
      refine hone.append ?_
      show Avoids openers (cs.takeWhile fun c => !interrupts associates c).length cs
      exact avoids_takeWhile rfl

-- ── text with elements ───────────────────────────────────────────────────────────

/-- Text that does not begin with a bracket is plain text. -/
theorem stepMarkupText_of_ne (hr : r.rest.head? ≠ some '<') :
    m.stepMarkupText r = m.passText r.rest := by
  rw [stepMarkupText]
  split
  · next heq => exact absurd (congrArg List.head? heq) hr
  · next heq => exact absurd (congrArg List.head? heq) hr
  · rfl

/-- Behind a bracket without a slash the name of an element may begin. -/
theorem stepMarkupText_element {tail : List Char} (hr : r.rest = '<' :: tail)
    (hne : tail.head? ≠ some '/') : m.stepMarkupText r =
      match identifier? tail with
      | some name => m.stepElement name r
      | none => m.passText r.rest := by
  rw [stepMarkupText, hr]
  split
  · next heq => exact absurd (congrArg List.head? (List.cons.inj heq).2) hne
  · next heq =>
      obtain rfl := (List.cons.inj heq).2
      rfl
  · next hno => exact absurd rfl (hno tail)

/-- Behind a bracket and a slash the name of an element may end. -/
theorem stepMarkupText_endElement {tail : List Char} (hr : r.rest = '<' :: '/' :: tail) :
    m.stepMarkupText r =
      match identifier? tail with
      | some name => m.stepEndElement name
      | none => m.passText r.rest := by
  cases hname : identifier? tail <;> simp only [stepMarkupText, hr, hname]

/-- Where no tag opens, text is passed over up to what may begin something. -/
theorem textStep_passText (hb : m.body = none) (hr : r.rest ≠ [])
    (hno : ∀ o ∈ openers, ¬ o <+: r.rest) : TextStep m r (m.passText r.rest) :=
  .text hb (by rw [literalLength]; omega) (avoids_literal hr hno)

/-- Outside tags a body is passed over, a tag opens, or text follows. -/
theorem textStep_literal (hr : r.rest ≠ []) : TextStep m r (m.stepLiteral r) := by
  rw [stepLiteral]
  cases hb : m.body with
  | some body => exact .body hb
  | none =>
      dsimp only
      by_cases ho : r.isNext (TagForm.opener .output) = true
      · rw [if_pos ho]
        exact .opens hb (List.isPrefixOf_iff_prefix.mp ho)
      · rw [if_neg ho]
        by_cases hs : r.isNext (TagForm.opener .statement) = true
        · rw [if_pos hs]
          exact .opens hb (List.isPrefixOf_iff_prefix.mp hs)
        · rw [if_neg hs]
          have hno : ∀ o ∈ openers, ¬ o <+: r.rest := by
            intro o hom hp
            simp only [openers, List.mem_cons, List.not_mem_nil, or_false] at hom
            rcases hom with rfl | rfl
            · exact ho (List.isPrefixOf_iff_prefix.mpr hp)
            · exact hs (List.isPrefixOf_iff_prefix.mpr hp)
          have htext := textStep_passText hb hr hno
          split
          · rw [stepMarkupText]
            split
            · next tail hrest =>
                split
                · next name hn => exact .endElement hb hrest hn
                · exact htext
            · next tail _ hrest =>
                split
                · next name hn => exact .element hb hrest hn
                · exact htext
            · exact htext
          · exact htext

-- ── markup ───────────────────────────────────────────────────────────────────────

/-- The name of an attribute stops before an open delimiter. -/
theorem textStep_attributeName (hm : m.phase.inAttributes = true) (hr : r.rest ≠ []) :
    TextStep m r (m.stepAttributeName r) := by
  have hmark := Phase.exists_of_inAttributes hm
  rw [stepAttributeName]
  split
  · next h =>
      have hpre : ['>'] <+: r.rest := List.isPrefixOf_iff_prefix.mp h
      refine .markup rfl Nat.one_pos (avoids_word hpre (by decide)) rfl hmark (fun _ => hm) ?_
      obtain ⟨tail, htail⟩ := hpre
      exact fun _ => by rw [← htail]; rfl
  · split
    · next h => exact .selfClose (List.isPrefixOf_iff_prefix.mp h) hm
    · split
      · -- an open delimiter: the step is that of literal text
        have hlit := textStep_literal (m := { m with phase := .literal }) hr
        exact hlit.of_literal
      · next ho =>
          dsimp only
          split
          · refine .markup rfl Nat.one_pos ⟨List.length_pos_iff.mpr hr, fun j hj => ?_⟩ rfl hmark
              (fun _ => hm) nofun
            obtain rfl : j = 0 := by omega
            intro o hom hp
            exact ho (List.any_eq_true.mpr ⟨o, hom, List.isPrefixOf_iff_prefix.mpr hp⟩)
          · next hne =>
              exact .markup rfl (List.length_pos_iff.mpr fun h => hne (List.isEmpty_iff.mpr h))
                (avoids_takeWhile rfl) rfl hmark (fun _ => hm) nofun

/-- Without an equals sign another attribute may follow. -/
theorem textStep_attributeOperator (hm : m.phase.inAttributes = true) (hr : r.rest ≠ []) :
    TextStep m r (m.stepAttributeOperator r) := by
  rw [stepAttributeOperator]
  split
  · next h =>
      have hpre : ['='] <+: r.rest := List.isPrefixOf_iff_prefix.mp h
      exact .markup rfl Nat.one_pos (avoids_word hpre (by decide)) rfl
        (Phase.exists_of_inAttributes hm) (fun _ => hm) nofun
  · exact textStep_attributeName hm hr

/-- No open delimiter begins in a value without quotes, nor at its end. -/
theorem avoids_bareValue (text : List Char) : Avoids openers (bareValue text).length text := by
  refine Avoids.of_takeWhile (avoids_beforeStops openers _) fun o ho c hc => ?_
  simp only [openers, TagForm.opener, List.mem_cons, List.not_mem_nil, or_false] at ho
  rcases ho with rfl | rfl <;>
    simp only [List.mem_cons, List.not_mem_nil, or_false] at hc <;>
    rcases hc with rfl | rfl <;> decide

/-- A value, quoted or not, stops before an open delimiter. -/
theorem textStep_attributeValue (hm : m.phase.inAttributes = true) (hr : r.rest ≠ []) :
    TextStep m r (m.stepAttributeValue r) := by
  have hmark := Phase.exists_of_inAttributes hm
  have hquote : StartsNone openers '"' ∧ StartsNone openers '\'' :=
    ⟨startsNone_openers (by decide), startsNone_openers (by decide)⟩
  rw [stepAttributeValue]
  split
  · next hq =>
      obtain ⟨_, _, -, -, -, hpos, -⟩ := quoted?_eq_some hq
      exact .markup rfl hpos (avoids_quoted hq hquote) rfl hmark (fun _ => hm) nofun
  · next hq =>
      obtain ⟨_, _, -, -, -, hpos, -⟩ := quoted?_eq_some hq
      refine .markup ?_ hpos (avoids_quoted hq hquote) rfl hmark (fun _ => hm) ?_
      · split <;> rfl
      · split <;> exact nofun
  · dsimp only
    split
    · exact textStep_attributeName hm hr
    · next hne =>
        have hpos : 0 < (bareValue r.rest).length :=
          List.length_pos_iff.mpr fun h => hne (List.isEmpty_iff.mpr h)
        exact .markup rfl hpos (avoids_bareValue r.rest) rfl hmark (fun _ => hm) nofun

/-- The end of an element is a bracket, or is cancelled. -/
theorem textStep_closeName (hp : m.phase = .markup .closeName) :
    TextStep m r (m.stepCloseName r) := by
  rw [stepCloseName]
  split
  · next h =>
      have hpre : ['>'] <+: r.rest := List.isPrefixOf_iff_prefix.mp h
      refine .markup rfl Nat.one_pos (avoids_word hpre (by decide)) rfl ⟨_, hp⟩ ?_ nofun
      rintro (h | h) <;> exact nomatch h
  · exact .leave hp

-- ── any step ─────────────────────────────────────────────────────────────────────

/-- **Steps outside tags.**  Before the end of the document, a step in literal text or in markup
    answers in one of the ways of `TextStep`. -/
theorem step_outside (m : Machine γ) (r : Reader) (h : m.phase.inTag = false)
    (hend : r.atEnd = false) : TextStep m r (m.step r) := by
  have hr : r.rest ≠ [] := List.isEmpty_eq_false_iff.mp hend
  rw [step, hend]
  cases hp : m.phase with
  | literal =>
      rw [stepPhase, hp]
      exact textStep_literal hr
  | markup phase =>
      dsimp only
      rw [if_neg (by decide), if_neg (by simp)]
      by_cases hs : (r.rest.takeWhile isSpacing).isEmpty = true
      · by_cases hl : (r.rest.takeWhile isLineBreak).isEmpty = true
        · rw [hs, hl, stepPhase, hp]
          cases phase with
          | attributeName => exact textStep_attributeName (by rw [hp]; rfl) hr
          | attributeOperator => exact textStep_attributeOperator (by rw [hp]; rfl) hr
          | attributeValue => exact textStep_attributeValue (by rw [hp]; rfl) hr
          | closeName => exact textStep_closeName hp
        · rw [Bool.not_eq_true] at hl
          rw [hs, hl, ← hp]
          have hpos := List.length_pos_iff.mpr (List.isEmpty_eq_false_iff.mp hl)
          exact .space (Or.inr rfl) hpos (avoids_takeWhile rfl) hp
      · rw [Bool.not_eq_true] at hs
        rw [hs, ← hp]
        have hpos := List.length_pos_iff.mpr (List.isEmpty_eq_false_iff.mp hs)
        exact .space (Or.inl rfl) hpos (avoids_takeWhile rfl) hp
  | _ => rw [hp] at h; exact nomatch h

end Machine

end TemplateScan
