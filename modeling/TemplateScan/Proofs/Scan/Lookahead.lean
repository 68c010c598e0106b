import Mathlib.Data.List.Find
import TemplateScan.Proofs.Scan.Clear
import TemplateScan.Scan.Step

/-! # Lookahead — how far a step looks into the text

    Every search and every reader of the scanner ends at a close delimiter, or at a stop, if there is
    one.  So a text that ends with a close delimiter may go on in any way: what is read at its start
    is the same.

    * **`Sealed`** — the text ends with a close delimiter, or it does not go on at all.
    * **`Bounded`** — besides, one of some stops occurs in it.
    * **`Bounded.tagEnd?_append`**, **`Bounded.quoted?_append`** — no search goes beyond the text. -/

namespace TemplateScan

open Text

/-- The text ends with a close delimiter. -/
def EndsClosed (text : List Char) : Prop :=
  ∃ form : TagForm, form.closer <:+ text

/-- A closing brace is in the text, unless nothing follows it. -/
def Braced (text next : List Char) : Prop :=
  next = [] ∨ '}' ∈ text

/-- The text ends with a close delimiter, unless nothing follows it. -/
def Sealed (text next : List Char) : Prop :=
  next = [] ∨ EndsClosed text

/-- The text is sealed, and one of the stops occurs in it, unless nothing follows it. -/
def Bounded (stops : List (List Char)) (text next : List Char) : Prop :=
  next = [] ∨ EndsClosed text ∧ ∃ s ∈ stops, ∃ i, s <+: text.drop i

variable {text next word : List Char} {c : Char} {p : Char → Bool} {stops : List (List Char)}
  {form : TagForm}

/-- A bounded text ends with a close delimiter. -/
theorem Bounded.sealed (h : Bounded stops text next) : Sealed text next :=
  h.imp_right And.left

/-- A close delimiter ends with a brace. -/
theorem EndsClosed.exists_eq (h : EndsClosed text) :
    ∃ front c, text = front ++ [c, '}'] ∧ (c = '%' ∨ c = '}') := by
  obtain ⟨form, front, rfl⟩ := h
  cases form with
  | output => exact ⟨front, '}', rfl, Or.inr rfl⟩
  | statement => exact ⟨front, '%', rfl, Or.inl rfl⟩

theorem EndsClosed.two_le_length (h : EndsClosed text) : 2 ≤ text.length := by
  obtain ⟨front, c, rfl, -⟩ := h.exists_eq
  simp

/-- What stands before the close delimiter may be left out. -/
theorem EndsClosed.of_append (front : List Char) (h : EndsClosed (front ++ text))
    (hlen : 2 ≤ text.length) : EndsClosed text := by
  obtain ⟨form, hsuffix⟩ := h
  refine ⟨form, List.suffix_of_suffix_length_le hsuffix (List.suffix_append _ _) ?_⟩
  cases form <;> exact hlen

/-- A character that ends no delimiter may be left out. -/
theorem EndsClosed.tail (h : EndsClosed (c :: text)) (hc : isDelimiterChar c = false) :
    EndsClosed text := by
  obtain ⟨front, d, heq, hd⟩ := h.exists_eq
  cases front with
  | nil =>
      obtain ⟨rfl, -⟩ := List.cons.inj heq
      rcases hd with rfl | rfl <;> exact absurd hc (by decide)
  | cons e front =>
      obtain ⟨rfl, rfl⟩ := List.cons.inj heq
      exact EndsClosed.of_append [c] h (by simp)

/-- Characters that end no delimiter may be dropped. -/
theorem EndsClosed.dropWhile (h : EndsClosed text)
    (hp : ∀ c, p c = true → isDelimiterChar c = false) : EndsClosed (text.dropWhile p) := by
  induction text with
  | nil => exact h
  | cons c cs ih =>
      rw [List.dropWhile_cons]
      split
      · next hc => exact ih (h.tail (hp c hc))
      · exact h

/-- A run of characters ends at the latest where a character comes that cannot be in it. -/
theorem takeWhile_append_of_mem (hc : c ∈ text) (hp : p c = false) :
    (text ++ next).takeWhile p = text.takeWhile p := by
  rw [List.takeWhile_append, if_neg]
  intro hlen
  have hself := (List.takeWhile_prefix (l := text) p).eq_of_length hlen
  rw [← hself] at hc
  exact absurd (hp.symm.trans (List.all_eq_true.mp List.all_takeWhile c hc)) Bool.false_ne_true

-- ── up to the brace ──────────────────────────────────────────────────────────────

namespace Braced

theorem mem (h : Braced text next) (hne : next ≠ []) : '}' ∈ text :=
  h.resolve_left hne

theorem tail (h : Braced (c :: text) next) (hc : c ≠ '}') : Braced text next := by
  refine h.imp_right fun hmem => ?_
  rcases List.mem_cons.mp hmem with rfl | hmem
  · exact absurd rfl hc
  · exact hmem

/-- A run of characters ends within the text, -/
theorem takeWhile_append (h : Braced text next) (hp : p '}' = false) :
    (text ++ next).takeWhile p = text.takeWhile p := by
  by_cases hne : next = []
  · rw [hne, List.append_nil]
  · exact takeWhile_append_of_mem (h.mem hne) hp

/-- and the rest begins in it, -/
theorem dropWhile_append (h : Braced text next) (hp : p '}' = false) :
    (text ++ next).dropWhile p = text.dropWhile p ++ next := by
  have hrun := h.takeWhile_append hp
  have hwhole := List.takeWhile_append_dropWhile (p := p) (l := text ++ next)
  rw [hrun] at hwhole
  have hboth : text.takeWhile p ++ (text ++ next).dropWhile p =
      text.takeWhile p ++ (text.dropWhile p ++ next) := by
    rw [hwhole, ← List.append_assoc, List.takeWhile_append_dropWhile]
  exact List.append_cancel_left hboth

/-- before the brace. -/
theorem dropWhile (h : Braced text next) (hp : p '}' = false) :
    Braced (text.dropWhile p) next := by
  refine h.imp_right fun hmem => ?_
  rw [← List.takeWhile_append_dropWhile (p := p) (l := text)] at hmem
  rcases List.mem_append.mp hmem with hmem | hmem
  · exact absurd (hp.symm.trans (List.all_eq_true.mp List.all_takeWhile _ hmem))
      Bool.false_ne_true
  · exact hmem

/-- A word that fits into the text is looked for in it alone, -/
theorem isPrefixOf_append_of_le (hle : word.length ≤ text.length) (next : List Char) :
    word.isPrefixOf (text ++ next) = word.isPrefixOf text := by
  rw [Bool.eq_iff_iff, List.isPrefixOf_iff_prefix, List.isPrefixOf_iff_prefix]
  constructor
  · intro hpre
    exact List.prefix_of_prefix_length_le hpre (List.prefix_append _ _) hle
  · intro hpre
    exact hpre.trans (List.prefix_append _ _)

/-- and so is a word without the brace, -/
theorem isPrefixOf_append (h : Braced text next) (hw : '}' ∉ word) :
    word.isPrefixOf (text ++ next) = word.isPrefixOf text := by
  by_cases hne : next = []
  · rw [hne, List.append_nil]
  · by_cases hle : word.length ≤ text.length
    · exact isPrefixOf_append_of_le hle next
    · have hpre : ¬ word <+: text ++ next := by
        intro hpre
        have htext : text <+: word :=
          List.prefix_of_prefix_length_le (List.prefix_append _ _) hpre (by omega)
        exact hw (htext.subset (h.mem hne))
      have hpre' : ¬ word <+: text := fun hw => hle hw.length_le
      rw [Bool.eq_iff_iff, List.isPrefixOf_iff_prefix, List.isPrefixOf_iff_prefix]
      exact iff_of_false hpre hpre'

/-- and its end. -/
theorem startsWithWord_append (h : Braced text next) (hw : '}' ∉ word) :
    startsWithWord word (text ++ next) = startsWithWord word text := by
  rw [startsWithWord, startsWithWord, h.isPrefixOf_append hw]
  by_cases hpre : word.isPrefixOf text = true
  · obtain ⟨tail, rfl⟩ := List.isPrefixOf_iff_prefix.mp hpre
    rw [List.append_assoc, List.drop_left, List.drop_left, continuesIdentifier,
      continuesIdentifier]
    by_cases hne : next = []
    · rw [hne, List.append_nil]
    · rcases List.mem_append.mp (h.mem hne) with hmem | hmem
      · exact absurd hmem hw
      · cases tail with
        | nil => exact absurd hmem List.not_mem_nil
        | cons d tail => rfl
  · rw [Bool.not_eq_true] at hpre
    rw [hpre, Bool.false_and, Bool.false_and]

/-- Words without a brace are found in the text. -/
theorem find?_startsWithWord (h : Braced text next) {words : List (List Char)}
    (hw : ∀ word ∈ words, '}' ∉ word) :
    words.find? (startsWithWord · (text ++ next)) = words.find? (startsWithWord · text) :=
  List.find?_congr fun word hmem => h.startsWithWord_append (hw word hmem)

end Braced

-- ── up to the close delimiter ────────────────────────────────────────────────────

namespace Sealed

theorem tail (h : Sealed (c :: text) next) (hc : isDelimiterChar c = false) :
    Sealed text next :=
  h.imp_right fun hend => hend.tail hc

theorem dropWhile (h : Sealed text next) (hp : ∀ c, p c = true → isDelimiterChar c = false) :
    Sealed (text.dropWhile p) next :=
  h.imp_right fun hend => hend.dropWhile hp

/-- The brace with which the text ends is in it. -/
theorem braced (h : Sealed text next) : Braced text next := by
  refine h.imp_right fun hend => ?_
  obtain ⟨front, c, rfl, -⟩ := hend.exists_eq
  simp

/-- Nothing comes behind a text that is empty. -/
theorem eq_nil (h : Sealed [] next) : next = [] := by
  rcases h with rfl | hend
  · rfl
  · exact absurd hend.two_le_length (by simp)

/-- The next character is one of the text. -/
theorem head?_append (h : Sealed text next) : (text ++ next).head? = text.head? := by
  cases text with
  | nil => rw [h.eq_nil, List.append_nil]
  | cons c cs => rfl

/-- A word of at most two characters is looked for in the text alone. -/
theorem isPrefixOf_short (h : Sealed text next) (hw : word.length ≤ 2) :
    word.isPrefixOf (text ++ next) = word.isPrefixOf text := by
  rcases h with rfl | hend
  · rw [List.append_nil]
  · exact Braced.isPrefixOf_append_of_le (Nat.le_trans hw hend.two_le_length) next

/-- Words of two characters are found in the text. -/
theorem find?_isPrefixOf (h : Sealed text next) {words : List (List Char)}
    (hw : ∀ word ∈ words, word.length ≤ 2) :
    words.find? (·.isPrefixOf (text ++ next)) = words.find? (·.isPrefixOf text) :=
  List.find?_congr fun word hmem => h.isPrefixOf_short (hw word hmem)

-- ── the literals ─────────────────────────────────────────────────────────────────

theorem startsIdentifier_append (h : Sealed text next) :
    startsIdentifier (text ++ next) = startsIdentifier text := by
  rw [startsIdentifier, startsIdentifier, h.head?_append]

/-- A name ends in the text. -/
theorem identifier?_append (h : Sealed text next) :
    identifier? (text ++ next) = identifier? text := by
  rw [identifier?, identifier?, h.startsIdentifier_append, h.braced.takeWhile_append rfl]

/-- A fraction ends in the text. -/
theorem fractionOf_append (h : Sealed text next) : fractionOf (text ++ next) = fractionOf text := by
  cases text with
  | nil => rw [h.eq_nil, List.append_nil]
  | cons c cs =>
      by_cases hc : c = '.'
      · subst hc
        rw [List.cons_append, fractionOf, fractionOf, (h.tail rfl).braced.takeWhile_append rfl]
      · simp [fractionOf, hc]

/-- Digits belong to no delimiter. -/
theorem isDelimiterChar_of_isDigit {c : Char} (h : c.isDigit = true) : isDelimiterChar c = false :=
  isDelimiterChar_eq_false rfl rfl rfl h

/-- The text behind the sign of a number is sealed, too. -/
theorem unsigned (h : Sealed text next) :
    signOf (text ++ next) = signOf text ∧
      (text ++ next).drop (signOf text).length = text.drop (signOf text).length ++ next ∧
      Sealed (text.drop (signOf text).length) next := by
  cases text with
  | nil =>
      obtain rfl := h.eq_nil
      exact ⟨rfl, rfl, h⟩
  | cons c cs =>
      by_cases hc : c = '-'
      · subst hc
        exact ⟨rfl, rfl, h.tail rfl⟩
      · have hsign : ∀ rest, signOf (c :: rest) = [] := fun rest => by simp [signOf, hc]
        rw [List.cons_append, hsign, hsign]
        exact ⟨rfl, rfl, h⟩

/-- A number ends in the text. -/
theorem number?_append (h : Sealed text next) : number? (text ++ next) = number? text := by
  obtain ⟨hsign, hdrop, hunsigned⟩ := h.unsigned
  have hfraction := (hunsigned.dropWhile fun c => isDelimiterChar_of_isDigit).fractionOf_append
  rw [number?, number?, hsign, hdrop, hunsigned.braced.takeWhile_append rfl,
    hunsigned.braced.dropWhile_append rfl, hfraction]

theorem boolean?_append (h : Sealed text next) :
    Machine.boolean? (text ++ next) = Machine.boolean? text :=
  h.braced.find?_startsWithWord (by decide)

/-- An operator ends in the text. -/
theorem operator?_append (h : Sealed text next) :
    Machine.operator? (text ++ next) = Machine.operator? text := by
  rw [Machine.operator?, Machine.operator?, h.braced.find?_startsWithWord (by decide),
    h.find?_isPrefixOf (by decide)]

-- ── the close delimiter ──────────────────────────────────────────────────────────

theorem length_closer (form : TagForm) : form.closer.length = 2 := by
  cases form <;> rfl

theorem length_opener (form : TagForm) : form.opener.length = 2 := by
  cases form <;> rfl

/-- A close delimiter at the start lies in the text. -/
theorem closer_append (h : Sealed text next) :
    form.closer.isPrefixOf (text ++ next) = form.closer.isPrefixOf text :=
  h.isPrefixOf_short (Nat.le_of_eq (length_closer form))

/-- Spaces at the start end in the text. -/
theorem afterSpacing_append (h : Sealed text next) :
    afterSpacing (text ++ next) = afterSpacing text ++ next :=
  h.braced.dropWhile_append rfl

/-- A close delimiter behind spaces lies in the text. -/
theorem afterSpacing_closer (h : Sealed text next) :
    form.closer.isPrefixOf (afterSpacing (text ++ next)) =
      form.closer.isPrefixOf (afterSpacing text) := by
  rw [h.afterSpacing_append]
  exact (h.dropWhile fun c => isDelimiterChar_eq_false rfl rfl rfl).closer_append

/-- Whether the tag ends is seen in the text. -/
theorem atClose_append (h : Sealed text next) :
    atClose form (text ++ next) = atClose form text := by
  unfold atClose
  rw [h.closer_append]
  cases text with
  | nil => rw [h.eq_nil, List.append_nil]
  | cons c cs =>
      by_cases hc : c = '-'
      · subst hc
        simp only [List.cons_append, (h.tail rfl).afterSpacing_closer]
      · simp [hc]

/-- A dash and the spaces behind it lie in the text, with the close delimiter. -/
theorem spacedDash?_append (h : Sealed text next) :
    Machine.spacedDash? form (text ++ next) = Machine.spacedDash? form text := by
  cases text with
  | nil => rw [h.eq_nil, List.append_nil]
  | cons c cs =>
      by_cases hc : c = '-'
      · subst hc
        rw [List.cons_append, Machine.spacedDash?, Machine.spacedDash?,
          (h.tail rfl).afterSpacing_closer, (h.tail rfl).braced.takeWhile_append rfl]
      · simp [Machine.spacedDash?, hc]

/-- A dash right before the close delimiter lies in the text with it. -/
theorem dashCloser_append (h : Sealed text next) :
    ('-' :: form.closer).isPrefixOf (text ++ next) = ('-' :: form.closer).isPrefixOf text := by
  cases text with
  | nil => rw [h.eq_nil, List.append_nil]
  | cons c cs =>
      by_cases hc : c = '-'
      · subst hc
        rw [List.cons_append, List.isPrefixOf_cons_cons, List.isPrefixOf_cons_cons,
          (h.tail rfl).closer_append]
      · have hne : ('-' == c) = false := by simpa using Ne.symm hc
        rw [List.cons_append, List.isPrefixOf_cons_cons, List.isPrefixOf_cons_cons, hne,
          Bool.false_and, Bool.false_and]

end Sealed

-- ── searches ─────────────────────────────────────────────────────────────────────

/-- What begins in the text at a place where it fits, begins there in the text alone. -/
theorem prefix_drop_append {i : Nat} (hi : i + word.length ≤ text.length) :
    word <+: (text ++ next).drop i ↔ word <+: text.drop i := by
  rw [List.drop_append_of_le_length (by omega)]
  constructor
  · intro hpre
    refine List.prefix_of_prefix_length_le hpre (List.prefix_append _ _) ?_
    rw [List.length_drop]
    omega
  · intro hpre
    exact hpre.trans (List.prefix_append _ _)

theorem add_length_le_of_prefix {i : Nat} (h : word <+: text.drop i) (hw : word ≠ []) :
    i + word.length ≤ text.length := by
  have hle := h.length_le
  have hpos := List.length_pos_iff.mpr hw
  rw [List.length_drop] at hle
  omega

/-- The first stop is the same, if one occurs in the text. -/
theorem earliest?_append {n : Nat} (hlen : ∀ s ∈ stops, s.length = n + 1)
    (h : ∃ s ∈ stops, ∃ i, s <+: text.drop i) :
    earliest? stops (text ++ next) = earliest? stops text := by
  obtain ⟨s, hs, i, hi⟩ := h
  obtain ⟨j, -, hj⟩ := exists_earliest?_le hs hi
  rw [hj]
  obtain ⟨⟨p, hp, hat⟩, hbefore⟩ := earliest?_eq_some_iff.mp hj
  have hfit := add_length_le_of_prefix hat fun hnil => by
    have := hlen p hp
    rw [hnil] at this
    cases this
  rw [hlen p hp] at hfit
  refine earliest?_eq_some_iff.mpr ⟨⟨p, hp, ?_⟩, fun k hk q hq hqk => ?_⟩
  · rwa [prefix_drop_append (by rw [hlen p hp]; exact hfit)]
  · rw [prefix_drop_append (by rw [hlen q hq]; omega)] at hqk
    exact hbefore k hk q hq hqk

/-- The first place of a pattern before any stop is the same, if the pattern or a stop occurs in the
    text. -/
theorem indexBefore?_append {pattern : List Char} (hp : pattern ≠ [])
    (hlen : ∀ s ∈ stops, pattern.length ≤ s.length ∧ s.length ≤ pattern.length + 1)
    (h : ∃ s ∈ pattern :: stops, ∃ i, s <+: text.drop i) :
    indexBefore? pattern stops (text ++ next) = indexBefore? pattern stops text := by
  have hne : ∀ s ∈ pattern :: stops, s ≠ [] := by
    intro s hs
    rcases List.mem_cons.mp hs with rfl | hs
    · exact hp
    · have := (hlen s hs).1
      have hpos := List.length_pos_iff.mpr hp
      exact List.length_pos_iff.mp (Nat.lt_of_lt_of_le hpos this)
  cases hfound : indexBefore? pattern stops text with
  | some i =>
      obtain ⟨hat, hstops⟩ := indexBefore?_eq_some_iff.mp hfound
      obtain ⟨hi, hbefore⟩ := indexOf?_eq_some_iff.mp hat
      have hfit := add_length_le_of_prefix hi hp
      refine indexBefore?_eq_some_iff.mpr ⟨indexOf?_eq_some_iff.mpr ⟨?_, ?_⟩, ?_⟩
      · rwa [prefix_drop_append hfit]
      · intro j hj hpat
        rw [prefix_drop_append (by omega)] at hpat
        exact hbefore j hj hpat
      · intro j hj s hs hsj
        have := (hlen s hs).2
        rw [prefix_drop_append (by omega)] at hsj
        exact hstops j hj s hs hsj
  | none =>
      rw [indexBefore?_eq_none_iff] at hfound ⊢
      intro i hi
      by_cases hfit : i + pattern.length ≤ text.length
      · obtain ⟨j, hj, s, hs, hsj⟩ := hfound i ((prefix_drop_append hfit).mp hi)
        have := add_length_le_of_prefix hsj (hne s (List.mem_cons_of_mem _ hs))
        exact ⟨j, hj, s, hs, (prefix_drop_append this).mpr hsj⟩
      · -- the pattern ends behind the text, so what occurs in the text comes before it
        obtain ⟨s, hs, k, hk⟩ := h
        have hkfit := add_length_le_of_prefix hk (hne s hs)
        obtain ⟨j, hj, q, hq, hqj⟩ : ∃ j < i, ∃ q ∈ stops, q <+: text.drop j := by
          rcases List.mem_cons.mp hs with rfl | hs
          · obtain ⟨j, hj, q, hq, hqj⟩ := hfound k hk
            exact ⟨j, by omega, q, hq, hqj⟩
          · have := (hlen s hs).1
            exact ⟨k, by omega, s, hs, hk⟩
        have := add_length_le_of_prefix hqj (hne q (List.mem_cons_of_mem _ hq))
        exact ⟨j, hj, q, hq, (prefix_drop_append this).mpr hqj⟩

/-- Open delimiters have two characters. -/
theorem length_of_mem_openers {s : List Char} (h : s ∈ openers) : s.length = 1 + 1 := by
  simp only [openers, TagForm.opener, List.mem_cons, List.not_mem_nil, or_false] at h
  rcases h with rfl | rfl <;> rfl

theorem length_of_mem_stringStops {s : List Char} (h : s ∈ form.stringStops) :
    s.length = 1 + 1 := by
  rcases List.mem_cons.mp (stringStops_eq form ▸ h) with rfl | h
  · exact Sealed.length_closer form
  · exact length_of_mem_openers h

namespace Bounded

/-- Inside a tag the stops bound every search for the end of the tag, -/
theorem tagEnd?_append (h : Bounded form.stringStops text next) :
    tagEnd? form (text ++ next) = tagEnd? form text := by
  rcases h with rfl | ⟨-, hstop⟩
  · rw [List.append_nil]
  · have hindex : indexBefore? form.closer openers (text ++ next) =
        indexBefore? form.closer openers text := by
      refine indexBefore?_append ?_ (fun s hs => ?_) hstop
      · cases form <;> exact List.cons_ne_nil _ _
      · rw [length_of_mem_openers hs, Sealed.length_closer]
        omega
    rw [tagEnd?, tagEnd?, hindex]
    cases hfound : indexBefore? form.closer openers text with
    | none => rfl
    | some i =>
        have hfit := indexOf?_add_length_le (indexBefore?_eq_some_iff.mp hfound).1
        rw [Sealed.length_closer] at hfit
        have hget : (text ++ next)[i - 1]? = text[i - 1]? := List.getElem?_append_left (by omega)
        rw [Option.map_some, Option.map_some, beforeDash, beforeDash, hget]

/-- what recovery passes over, -/
theorem recoveryEnd_append (h : Bounded form.stringStops text next) :
    recoveryEnd form (text ++ next) = recoveryEnd form text := by
  rw [recoveryEnd, recoveryEnd, h.tagEnd?_append]
  cases hend : tagEnd? form text with
  | some n => rfl
  | none =>
      rcases h with rfl | ⟨-, s, hs, i, hi⟩
      · rw [List.append_nil]
      · -- where the tag has no end, an open delimiter occurs
        have hopen : ∃ o ∈ openers, ∃ j, o <+: text.drop j := by
          rcases List.mem_cons.mp (stringStops_eq form ▸ hs) with rfl | ho
          · obtain ⟨j, -, o, ho, hoj⟩ := tagEnd?_eq_none_iff.mp hend i hi
            exact ⟨o, ho, j, hoj⟩
          · exact ⟨s, ho, i, hi⟩
        have hsame : earliest? openers (text ++ next) = earliest? openers text :=
          earliest?_append (fun _ => length_of_mem_openers) hopen
        obtain ⟨o, ho, j, hoj⟩ := hopen
        obtain ⟨k, -, hk⟩ := exists_earliest?_le ho hoj
        rw [hsame, hk]
        rfl

/-- the text of a string, -/
theorem beforeStops_append {n : Nat} (hlen : ∀ s ∈ stops, s.length = n + 1)
    (h : ∃ s ∈ stops, ∃ i, s <+: text.drop i) :
    beforeStops stops (text ++ next) = beforeStops stops text := by
  rw [beforeStops, beforeStops, earliest?_append hlen h]
  obtain ⟨s, hs, i, hi⟩ := h
  obtain ⟨j, -, hj⟩ := exists_earliest?_le hs hi
  obtain ⟨⟨p, -, hat⟩, -⟩ := earliest?_eq_some_iff.mp hj
  obtain ⟨q, hq, hqj⟩ := (earliest?_eq_some_iff.mp hj).1
  have hfit := add_length_le_of_prefix hqj fun hnil => by
    have := hlen q hq
    rw [hnil] at this
    cases this
  rw [hj, Option.getD_some, Option.getD_some, List.take_append_of_le_length (by omega)]

/-- No stop begins with a quote, so that one occurs behind it, -/
theorem behind_quote {quote : Char} {tail : List Char} (hquote : StartsNone stops quote)
    (h : ∃ s ∈ stops, ∃ i, s <+: (quote :: tail).drop i) : ∃ s ∈ stops, ∃ i, s <+: tail.drop i := by
  obtain ⟨s, hs, i, hi⟩ := h
  cases i with
  | zero => exact absurd hi (not_prefix_of_startsNone hquote hs)
  | succ i => exact ⟨s, hs, i, hi⟩

/-- a string, -/
theorem quoted?_append {n : Nat} (hlen : ∀ s ∈ stops, s.length = n + 1)
    (hquote : ∀ quote, isQuote quote = true → StartsNone stops quote)
    (h : Bounded stops text next) : quoted? stops (text ++ next) = quoted? stops text := by
  rcases h with rfl | ⟨hend, hstop⟩
  · rw [List.append_nil]
  · cases text with
    | nil => exact absurd hend.two_le_length (by simp)
    | cons quote tail =>
        rw [List.cons_append, quoted?, quoted?]
        by_cases hq : isQuote quote = true
        · rw [if_pos hq, if_pos hq, beforeStops_append hlen (behind_quote (hquote quote hq) hstop)]
        · rw [if_neg hq, if_neg hq]

/-- Quotes belong to no delimiter. -/
theorem isDelimiterChar_of_isQuote {quote : Char} (h : isQuote quote = true) :
    isDelimiterChar quote = false := by
  rw [isQuote, Bool.or_eq_true, beq_iff_eq, beq_iff_eq] at h
  rcases h with rfl | rfl <;> rfl

/-- No open delimiter begins with a quote. -/
theorem startsNone_openers_of_isQuote {quote : Char} (h : isQuote quote = true) :
    StartsNone openers quote := by
  refine startsNone_openers ?_
  rintro rfl
  cases isDelimiterChar_of_isQuote h

/-- A string without its end goes up to a stop. -/
theorem drop_unclosed {quote : Char} {body : List Char} (h : Bounded openers text next)
    (hstring : quoted? openers text = some (.unclosed quote body)) :
    Bounded openers (text.drop (Quoted.unclosed quote body).text.length) next := by
  refine h.imp_right ?_
  rintro ⟨hend, hstop⟩
  cases text with
  | nil => cases hstring
  | cons c tail =>
      rw [quoted?] at hstring
      by_cases hq : isQuote c = true
      · obtain ⟨s, hs, i, hi⟩ := behind_quote (startsNone_openers_of_isQuote hq) hstop
        obtain ⟨j, -, hj⟩ := exists_earliest?_le hs hi
        obtain ⟨⟨p, hp, hat⟩, -⟩ := earliest?_eq_some_iff.mp hj
        have hfit := add_length_le_of_prefix hat (List.ne_nil_of_length_eq_add_one
          (length_of_mem_openers hp))
        have hbody : beforeStops openers tail = tail.take j := by
          rw [beforeStops, hj, Option.getD_some]
        rw [if_pos hq, hbody] at hstring
        dsimp only at hstring
        split at hstring
        · cases hstring
        · obtain ⟨rfl, rfl⟩ := Quoted.unclosed.inj (Option.some.inj hstring)
          have hdrop : (c :: tail).drop (Quoted.unclosed c (tail.take j)).text.length =
              tail.drop j := by
            rw [Quoted.text, List.length_cons, List.length_take, Nat.min_eq_left (by omega),
              List.drop_succ_cons]
          rw [hdrop]
          rw [length_of_mem_openers hp] at hfit
          refine ⟨?_, p, hp, 0, hat⟩
          refine EndsClosed.of_append ((c :: tail).take (j + 1)) ?_ ?_
          · rw [← List.drop_succ_cons (a := c), List.take_append_drop]
            exact hend
          · rw [List.length_drop]
            omega
      · rw [if_neg hq] at hstring
        cases hstring

/-- A string ends in the text, with its quote or with a stop. -/
theorem string?_append (h : Bounded form.stringStops text next) :
    quoted? form.stringStops (text ++ next) = quoted? form.stringStops text :=
  quoted?_append (fun _ => length_of_mem_stringStops)
    (fun _ hq => startsNone_stringStops (isDelimiterChar_of_isQuote hq)) h

/-- and the range of a loop. -/
theorem range?_append (h : Bounded form.stringStops text next) :
    indexBefore? [')'] form.stringStops (text ++ next) =
      indexBefore? [')'] form.stringStops text := by
  rcases h with rfl | ⟨-, s, hs, hi⟩
  · rw [List.append_nil]
  · refine indexBefore?_append (List.cons_ne_nil _ _) (fun s hs => ?_)
      ⟨s, List.mem_cons_of_mem _ hs, hi⟩
    rw [length_of_mem_stringStops hs]
    exact ⟨Nat.le_succ _, Nat.le_refl _⟩

/-- The text up to the end of the tag is the same. -/
theorem take_tagEnd_append {n : Nat} (h : tagEnd? form text = some n) (next : List Char) :
    (text ++ next).take n = text.take n :=
  List.take_append_of_le_length (clear_tagEnd h).le_length

end Bounded

end TemplateScan
