import TemplateScan.Proofs.Text.Readings
import TemplateScan.Scan.Delimiter

/-! # Clear stretches — text in which no delimiter begins

    Inside a tag two things stop every search: the close delimiter of the tag and an open delimiter
    of either form.  A stretch of text is clear when none of them begins in it.  Whatever a step
    inside a tag takes is clear:

    * **`Clear.of_prefix`** — text made of other characters than braces and percent signs.
    * **`clear_quoted`** — a string, because it ends before the first stop.
    * **`clear_recoveryEnd`** — what recovery passes over.
    * **`tagEnd?_eq_none_iff`** — a tag has no end when another one opens before it.

    The end of a tag includes the dash before the close delimiter, so whatever is taken up to there
    does not end in that dash (`not_dashed_recoveryEnd`). -/

namespace TemplateScan

open Text

/-- Neither the close delimiter of the form nor an open delimiter begins in the first `n`
    characters of the text. -/
abbrev Clear (form : TagForm) : Nat → List Char → Prop :=
  Avoids form.stringStops

/-- A character with which a delimiter can begin. -/
def isDelimiterChar (c : Char) : Bool :=
  c == '{' || c == '%' || c == '}'

/-- A word that is not empty, without a brace or a percent sign. -/
def isPlainWord (word : List Char) : Bool :=
  !word.isEmpty && word.all fun c => !isDelimiterChar c

variable {form : TagForm} {text : List Char} {n : Nat}

-- ── delimiters ───────────────────────────────────────────────────────────────────

/-- The stops of a form are its close delimiter and the open delimiters. -/
theorem stringStops_eq (form : TagForm) : form.stringStops = form.closer :: openers := rfl

theorem startsNone_stringStops {c : Char} (h : isDelimiterChar c = false) :
    StartsNone form.stringStops c := by
  simp only [isDelimiterChar, Bool.or_eq_false_iff, beq_eq_false_iff_ne, ne_eq] at h
  obtain ⟨⟨hb, hp⟩, hc⟩ := h
  intro d hd
  cases form <;> simp only [TagForm.stringStops, TagForm.closer, TagForm.opener,
    List.mem_cons, List.not_mem_nil, or_false] at hd <;>
    rcases hd with rfl | rfl | rfl <;> simp [Ne.symm hb, Ne.symm hp, Ne.symm hc]

theorem startsNone_openers {c : Char} (h : c ≠ '{') : StartsNone openers c := by
  intro o ho
  simp only [openers, TagForm.opener, List.mem_cons, List.not_mem_nil, or_false] at ho
  rcases ho with rfl | rfl <;> simp [Ne.symm h]

/-- A prefix without a brace or a percent sign is clear. -/
theorem Clear.of_prefix {w : List Char} (h : w <+: text)
    (hw : ∀ c ∈ w, isDelimiterChar c = false) : Clear form w.length text :=
  Avoids.of_prefix h fun c hc => startsNone_stringStops (hw c hc)

/-- A single character other than a brace or a percent sign is clear. -/
theorem Clear.of_head {c : Char} (h : text.head? = some c) (hc : isDelimiterChar c = false) :
    Clear form 1 text := by
  obtain ⟨cs, rfl⟩ := List.head?_eq_some_iff.mp h
  refine Clear.of_prefix (w := [c]) ⟨cs, rfl⟩ fun d hd => ?_
  rw [List.mem_singleton.mp hd]
  exact hc

/-- A plain word is clear, and something. -/
theorem clear_word {word : List Char} (h : word <+: text) (hw : isPlainWord word = true) :
    0 < word.length ∧ Clear form word.length text := by
  rw [isPlainWord, Bool.and_eq_true] at hw
  obtain ⟨hne, hall⟩ := hw
  refine ⟨List.length_pos_iff.mpr fun hnil => ?_, Clear.of_prefix h fun c hc => ?_⟩
  · rw [hnil] at hne
    exact nomatch hne
  · simpa using List.all_eq_true.mp hall c hc

-- ── what the readers take ────────────────────────────────────────────────────────

/-- The characters of a class without braces and percent signs begin no delimiter. -/
theorem isDelimiterChar_eq_false {p : Char → Bool} (hb : p '{' = false) (hp : p '%' = false)
    (hc : p '}' = false) {c : Char} (h : p c = true) : isDelimiterChar c = false := by
  cases hd : isDelimiterChar c with
  | false => rfl
  | true =>
      simp only [isDelimiterChar, Bool.or_eq_true, beq_iff_eq] at hd
      rcases hd with (rfl | rfl) | rfl
      · exact absurd (hb.symm.trans h) Bool.false_ne_true
      · exact absurd (hp.symm.trans h) Bool.false_ne_true
      · exact absurd (hc.symm.trans h) Bool.false_ne_true

/-- A tag ends where none of them comes next, if there is no dash among them either. -/
theorem atClose_eq_false {p : Char → Bool} (hp : p '%' = false) (hc : p '}' = false)
    (hd : p '-' = false) {c : Char} {tail : List Char} (h : p c = true) :
    atClose form (c :: tail) = false := by
  have hne : ∀ {b}, p b = false → b ≠ c := by
    rintro b hb rfl
    exact Bool.false_ne_true (hb.symm.trans h)
  have hcloser : form.closer.isPrefixOf (c :: tail) = false := by
    rw [Bool.eq_false_iff, ne_eq, List.isPrefixOf_iff_prefix]
    intro hpre
    cases form with
    | output => exact hne hc (List.cons_prefix_cons.mp hpre).1
    | statement => exact hne hp (List.cons_prefix_cons.mp hpre).1
  unfold atClose
  rw [hcloser, Bool.false_or]
  split
  · next heq => exact absurd (List.cons.inj heq).1.symm (hne hd)
  · rfl

/-- A run of characters of such a class is clear. -/
theorem clear_takeWhile {p : Char → Bool} (hb : p '{' = false) (hp : p '%' = false)
    (hc : p '}' = false) : Clear form (text.takeWhile p).length text :=
  Clear.of_prefix (List.takeWhile_prefix p) fun c hmem =>
    isDelimiterChar_eq_false hb hp hc (List.all_eq_true.mp List.all_takeWhile c hmem)

/-- An identifier is clear. -/
theorem clear_identifier {name : List Char} (h : identifier? text = some name) :
    Clear form name.length text := by
  obtain ⟨hpre, -, hall⟩ := identifier?_eq_some h
  exact Clear.of_prefix hpre fun c hc => isDelimiterChar_eq_false rfl rfl rfl (hall c hc)

/-- A number is clear. -/
theorem clear_number {f : NumberForm} {digits : List Char} (h : number? text = some (f, digits)) :
    Clear form digits.length text := by
  obtain ⟨hpre, -, hall⟩ := number?_eq_some h
  exact Clear.of_prefix hpre fun c hc => isDelimiterChar_eq_false rfl rfl rfl (hall c hc)

/-- A string is clear. -/
theorem clear_quoted {string : Quoted} (h : quoted? form.stringStops text = some string) :
    Clear form string.text.length text :=
  avoids_quoted h ⟨startsNone_stringStops rfl, startsNone_stringStops rfl⟩

-- ── where the tag ends ───────────────────────────────────────────────────────────

/-- The end of a tag is its first close delimiter, no open delimiter being before it, or the dash
    just before that. -/
theorem tagEnd?_eq_some (h : tagEnd? form text = some n) :
    ∃ k, (k = n ∨ k = n + 1 ∧ text[n]? = some '-') ∧ form.closer <+: text.drop k ∧
      ∀ j < k, ∀ d ∈ form.stringStops, ¬ d <+: text.drop j := by
  obtain ⟨k, hk, hn⟩ := Option.map_eq_some_iff.mp h
  obtain ⟨hfirst, hstops⟩ := indexBefore?_eq_some_iff.mp hk
  obtain ⟨hat, hbefore⟩ := indexOf?_eq_some_iff.mp hfirst
  refine ⟨k, ?_, hat, fun j hj d hd => ?_⟩
  · unfold beforeDash at hn
    by_cases hdash : 0 < k ∧ text[k - 1]? = some '-'
    · rw [if_pos hdash] at hn
      exact Or.inr ⟨by omega, hn ▸ hdash.2⟩
    · rw [if_neg hdash] at hn
      exact Or.inl hn
  · rcases List.mem_cons.mp (stringStops_eq form ▸ hd) with rfl | ho
    · exact hbefore j hj
    · exact hstops j hj d ho

/-- A tag has no end when an open delimiter comes before every close delimiter. -/
theorem tagEnd?_eq_none_iff :
    tagEnd? form text = none ↔
      ∀ i, form.closer <+: text.drop i → ∃ j < i, ∃ o ∈ openers, o <+: text.drop j := by
  rw [tagEnd?, Option.map_eq_none_iff, indexBefore?_eq_none_iff]

/-- The text up to the end of the tag is clear. -/
theorem clear_tagEnd (h : tagEnd? form text = some n) : Clear form n text := by
  obtain ⟨k, hkn, hat, hno⟩ := tagEnd?_eq_some h
  have hlen : k < text.length := by
    rcases Nat.lt_or_ge k text.length with hk | hk
    · exact hk
    · rw [List.drop_eq_nil_of_le hk] at hat
      cases form <;> exact absurd (List.prefix_nil.mp hat) (by decide)
  exact ⟨by omega, fun j hj => hno j (by omega)⟩

/-- The text that recovery passes over is clear. -/
theorem clear_recoveryEnd (form : TagForm) (text : List Char) :
    Clear form (recoveryEnd form text) text := by
  rw [recoveryEnd]
  cases he : tagEnd? form text with
  | some n => exact clear_tagEnd he
  | none =>
      have hnone := tagEnd?_eq_none_iff.mp he
      cases ho : earliest? openers text with
      | none =>
          have hno := earliest?_eq_none_iff.mp ho
          refine ⟨Nat.le_refl _, fun j _ d hd hdj => ?_⟩
          rcases List.mem_cons.mp (stringStops_eq form ▸ hd) with rfl | hopen
          · obtain ⟨i, -, o, hom, hoi⟩ := hnone j hdj
            exact hno i o hom hoi
          · exact hno j d hopen hdj
      | some r =>
          obtain ⟨⟨p, hp, hpr⟩, hno⟩ := earliest?_eq_some_iff.mp ho
          refine ⟨?_, fun j hj d hd hdj => ?_⟩
          · rcases Nat.lt_or_ge r text.length with hr | hr
            · exact Nat.le_of_lt hr
            · rw [List.drop_eq_nil_of_le hr] at hpr
              rw [List.prefix_nil.mp hpr] at hp
              exact absurd hp (by decide)
          · rcases List.mem_cons.mp (stringStops_eq form ▸ hd) with rfl | hopen
            · obtain ⟨i, hi, o, hom, hoi⟩ := hnone j hdj
              exact hno i (Nat.lt_trans hi hj) o hom hoi
            · exact hno j hj d hopen hdj

/-- Before the end of a tag there is text, unless the close delimiter comes next, perhaps behind
    a dash. -/
theorem tagEnd?_pos (h : tagEnd? form text = some n) (hclose : ¬ form.closer <+: text)
    (hdash : ¬ '-' :: form.closer <+: text) : 0 < n := by
  rcases Nat.eq_zero_or_pos n with rfl | hn
  · obtain ⟨k, rfl | ⟨rfl, hd⟩, hat, -⟩ := tagEnd?_eq_some h
    · exact absurd hat hclose
    · cases text with
      | nil => exact nomatch hd
      | cons c cs =>
          obtain rfl : c = '-' := by simpa using hd
          exact absurd (List.cons_prefix_cons.mpr ⟨rfl, hat⟩) hdash
  · exact hn

/-- A word that is clear, and no dash at its end, leads up to the close delimiter behind it. -/
theorem tagEnd?_of_clear {w : List Char} (h : Clear form w.length (w ++ text))
    (hc : form.closer <+: text) (hd : w.getLast? ≠ some '-') :
    tagEnd? form (w ++ text) = some w.length := by
  have hfirst : indexOf? form.closer (w ++ text) = some w.length := by
    refine indexOf?_eq_some_iff.mpr ⟨by rwa [List.drop_left], fun j hj => ?_⟩
    exact h.no_stop j hj _ (List.mem_cons_self ..)
  have hbefore : indexBefore? form.closer openers (w ++ text) = some w.length :=
    indexBefore?_eq_some_iff.mpr ⟨hfirst, fun j hj o ho =>
      h.no_stop j hj o (List.mem_cons_of_mem _ ho)⟩
  have hnodash : ¬ (0 < w.length ∧ (w ++ text)[w.length - 1]? = some '-') := by
    rintro ⟨hpos, hdash⟩
    rw [List.getElem?_append_left (by omega), ← List.getLast?_eq_getElem?] at hdash
    exact hd hdash
  rw [tagEnd?, hbefore, Option.map_some, beforeDash, if_neg hnodash]

theorem recoveryEnd_of_clear {w : List Char} (h : Clear form w.length (w ++ text))
    (hc : form.closer <+: text) (hd : w.getLast? ≠ some '-') :
    recoveryEnd form (w ++ text) = w.length := by
  rw [recoveryEnd, tagEnd?_of_clear h hc hd, Option.getD_some]

/-- Recovery passes over a character that neither begins a delimiter nor is a dash. -/
theorem recoveryEnd_pos {c : Char} (h : text.head? = some c) (hc : isDelimiterChar c = false)
    (hd : c ≠ '-') : 0 < recoveryEnd form text := by
  obtain ⟨cs, rfl⟩ := List.head?_eq_some_iff.mp h
  have hno : ∀ d ∈ form.stringStops, ¬ d <+: c :: cs := fun d hd =>
    not_prefix_of_startsNone (startsNone_stringStops hc) hd
  rw [recoveryEnd]
  cases he : tagEnd? form (c :: cs) with
  | some n =>
      refine tagEnd?_pos he (hno _ (List.mem_cons_self ..)) fun hp => hd ?_
      exact (List.cons_prefix_cons.mp hp).1.symm
  | none =>
      cases ho : earliest? openers (c :: cs) with
      | none => simp
      | some r =>
          obtain ⟨⟨p, hp, hpr⟩, -⟩ := earliest?_eq_some_iff.mp ho
          rcases Nat.eq_zero_or_pos r with rfl | hr
          · exact absurd hpr (hno p (List.mem_cons_of_mem _ hp))
          · exact hr

-- ── the dash before the close delimiter ──────────────────────────────────────────

/-- The first `n` characters of the text end in a dash, and the close delimiter comes next. -/
structure Dashed (form : TagForm) (n : Nat) (text : List Char) : Prop where
  dash : (text.take n).getLast? = some '-'
  closer : form.closer <+: text.drop n

theorem not_dashed_zero : ¬ Dashed form 0 text := by
  rintro ⟨⟨⟩, -⟩

/-- A word with another character at its end does not end in a dash. -/
theorem not_dashed_of_leading {w : List Char} {c : Char} (h : w <+: text)
    (hw : w.getLast? = some c) (hc : c ≠ '-') : ¬ Dashed form w.length text := by
  rintro ⟨hdash, -⟩
  rw [← List.prefix_iff_eq_take.mp h, hw] at hdash
  exact hc (Option.some.inj hdash)

/-- Nor does a word without a dash in it. -/
theorem not_dashed_of_not_mem {w : List Char} (h : w <+: text) (hw : '-' ∉ w) :
    ¬ Dashed form w.length text := by
  rintro ⟨hdash, -⟩
  rw [← List.prefix_iff_eq_take.mp h] at hdash
  exact hw (List.mem_of_getLast? hdash)

theorem not_dashed_of_head {c : Char} (h : text.head? = some c) (hc : c ≠ '-') :
    ¬ Dashed form 1 text := by
  obtain ⟨cs, rfl⟩ := List.head?_eq_some_iff.mp h
  exact not_dashed_of_leading (w := [c]) ⟨cs, rfl⟩ rfl hc

/-- The text up to the end of the tag does not end in the trim dash. -/
theorem not_dashed_tagEnd (h : tagEnd? form text = some n) : ¬ Dashed form n text := by
  rintro ⟨hdash, hcloser⟩
  obtain ⟨k, hk, rfl⟩ := Option.map_eq_some_iff.mp h
  obtain ⟨hat, hfirst⟩ := indexOf?_eq_some_iff.mp (indexBefore?_eq_some_iff.mp hk).1
  by_cases hbefore : 0 < k ∧ text[k - 1]? = some '-'
  · -- the close delimiter would come one place earlier
    rw [beforeDash, if_pos hbefore] at hcloser
    exact hfirst (k - 1) (by omega) hcloser
  · rw [beforeDash, if_neg hbefore] at hdash
    have hpos : 0 < k := Nat.pos_of_ne_zero (by rintro rfl; cases hdash)
    have hlt : k - 1 < text.length := by
      have hle := indexOf?_add_length_le (indexBefore?_eq_some_iff.mp hk).1
      omega
    rw [List.getLast?_take, if_neg (Nat.ne_of_gt hpos), List.getElem?_eq_getElem hlt] at hdash
    exact hbefore ⟨hpos, by rw [List.getElem?_eq_getElem hlt]; exact hdash⟩

/-- Nor does the text that recovery passes over. -/
theorem not_dashed_recoveryEnd (form : TagForm) (text : List Char) :
    ¬ Dashed form (recoveryEnd form text) text := by
  rw [recoveryEnd]
  cases he : tagEnd? form text with
  | some n => exact not_dashed_tagEnd he
  | none =>
      rintro ⟨-, hcloser⟩
      obtain ⟨j, hj, o, ho, hoj⟩ := tagEnd?_eq_none_iff.mp he _ hcloser
      cases hr : earliest? openers text with
      | none => exact earliest?_eq_none_iff.mp hr j o ho hoj
      | some r =>
          rw [hr] at hj
          exact (earliest?_eq_some_iff.mp hr).2 j hj o ho hoj

-- ── which delimiter comes first ──────────────────────────────────────────────────

/-- No close delimiter begins like an open one. -/
theorem not_opener_of_closer {o : List Char} (hc : form.closer <+: text)
    (ho : o ∈ openers) : ¬ o <+: text := by
  intro hp
  obtain ⟨tail, rfl⟩ := hc
  simp only [openers, TagForm.opener, List.mem_cons, List.not_mem_nil, or_false] at ho
  cases form <;> rcases ho with rfl | rfl <;> simp [TagForm.closer] at hp

/-- A close delimiter after clear text is the first one, and comes before any open delimiter. -/
theorem earliest_of_closed (hk : Clear form n text) (hc : form.closer <+: text.drop n) :
    earliest? [form.closer] text = some n ∧
      ∀ j, earliest? openers text = some j → n < j := by
  constructor
  · refine earliest?_eq_some_iff.mpr ⟨⟨_, List.mem_singleton_self _, hc⟩, fun j hj p hp => ?_⟩
    rw [List.mem_singleton.mp hp]
    exact hk.no_stop j hj _ (List.mem_cons_self ..)
  · intro j hj
    obtain ⟨⟨o, ho, hoj⟩, -⟩ := earliest?_eq_some_iff.mp hj
    rcases Nat.lt_trichotomy n j with hlt | rfl | hgt
    · exact hlt
    · exact absurd hoj (not_opener_of_closer hc ho)
    · exact absurd hoj (hk.no_stop j hgt o (List.mem_cons_of_mem _ ho))

/-- Where a tag has no end after clear text, an open delimiter comes before any close delimiter. -/
theorem earliest_of_abandoned (hk : Clear form n text)
    (hnone : tagEnd? form (text.drop n) = none) :
    (∀ i, earliest? [form.closer] text = some i → ∃ j < i, earliest? openers text = some j) ∧
      ∀ j, earliest? openers text = some j → n ≤ j := by
  constructor
  · intro i hi
    obtain ⟨⟨p, hp, hpi⟩, -⟩ := earliest?_eq_some_iff.mp hi
    rw [List.mem_singleton.mp hp] at hpi
    have hni : n ≤ i := Nat.le_of_not_lt fun hlt =>
      hk.no_stop i hlt _ (List.mem_cons_self ..) hpi
    obtain ⟨d, rfl⟩ := Nat.exists_eq_add_of_le hni
    rw [← List.drop_drop] at hpi
    obtain ⟨j, hj, o, ho, hoj⟩ := tagEnd?_eq_none_iff.mp hnone d hpi
    rw [List.drop_drop] at hoj
    obtain ⟨j', hj', hfound⟩ := exists_earliest?_le ho hoj
    exact ⟨j', by omega, hfound⟩
  · intro j hj
    obtain ⟨⟨o, ho, hoj⟩, -⟩ := earliest?_eq_some_iff.mp hj
    exact Nat.le_of_not_lt fun hlt => hk.no_stop j hlt o (List.mem_cons_of_mem _ ho) hoj

end TemplateScan
