import Mathlib.Data.Nat.Find
import TemplateScan.Text.Search

/-! # Occurrences — what the searches find

    A pattern occurs at the place `i` of a text when it is a prefix of the text from there on.
    The three searches are characterised by the occurrences alone:

    * **`indexOf?_eq_some_iff`** — the first occurrence of the pattern.
    * **`earliest?_eq_some_iff`** — the first occurrence of any of the patterns.
    * **`indexBefore?_eq_some_iff`** — the first occurrence, with no stop strictly before it.

    A stretch of text **`Avoids`** some stops when none of them begins in it. -/

namespace TemplateScan.Text

variable {pattern text : List Char} {patterns stops : List (List Char)} {i : Nat}

-- ── one pattern ──────────────────────────────────────────────────────────────────

/-- The search for one pattern finds its first occurrence. -/
theorem indexOf?_eq_some_iff :
    indexOf? pattern text = some i ↔
      pattern <+: text.drop i ∧ ∀ j < i, ¬ pattern <+: text.drop j := by
  induction text generalizing i with
  | nil =>
      cases pattern with
      | nil =>
          simp only [indexOf?_nil, Option.some.injEq, List.drop_nil, List.prefix_rfl, true_and,
            not_true_eq_false]
          constructor
          · rintro rfl j hj
            omega
          · intro h
            rcases Nat.eq_zero_or_pos i with h0 | h0
            · exact h0.symm
            · exact (h 0 h0).elim
      | cons p ps => simp [indexOf?]
  | cons c cs ih =>
      rw [indexOf?]
      by_cases hp : pattern.isPrefixOf (c :: cs) = true
      · rw [if_pos hp]
        have hp' : pattern <+: c :: cs := List.isPrefixOf_iff_prefix.mp hp
        constructor
        · intro h
          obtain rfl : 0 = i := Option.some.inj h
          exact ⟨hp', fun j hj => absurd hj (Nat.not_lt_zero j)⟩
        · rintro ⟨-, h⟩
          cases i with
          | zero => rfl
          | succ i => exact absurd hp' (h 0 (Nat.succ_pos i))
      · rw [if_neg hp]
        have hp' : ¬ pattern <+: c :: cs := fun h => hp (List.isPrefixOf_iff_prefix.mpr h)
        cases i with
        | zero => simpa using hp'
        | succ i =>
            rw [Option.map_eq_some_iff]
            simp only [Nat.add_right_cancel_iff, exists_eq_right, ih, List.drop_succ_cons]
            refine and_congr_right fun _ => ⟨fun h j hj => ?_, fun h j hj => ?_⟩
            · cases j with
              | zero => exact hp'
              | succ j => exact h j (Nat.lt_of_succ_lt_succ hj)
            · exact h (j + 1) (Nat.succ_lt_succ hj)

/-- A pattern that occurs somewhere is found, there or before. -/
theorem exists_indexOf?_le (h : pattern <+: text.drop i) :
    ∃ j ≤ i, indexOf? pattern text = some j := by
  have hsome : ∃ j, pattern <+: text.drop j := ⟨i, h⟩
  exact ⟨Nat.find hsome, Nat.find_min' hsome h,
    indexOf?_eq_some_iff.mpr ⟨Nat.find_spec hsome, fun _ => Nat.find_min hsome⟩⟩

-- ── several patterns ─────────────────────────────────────────────────────────────

/-- The search for several patterns finds the first occurrence of any of them. -/
theorem earliest?_eq_some_iff :
    earliest? patterns text = some i ↔
      (∃ p ∈ patterns, p <+: text.drop i) ∧ ∀ j < i, ∀ p ∈ patterns, ¬ p <+: text.drop j := by
  rw [earliest?, List.min?_eq_some_iff]
  simp only [List.mem_filterMap, indexOf?_eq_some_iff, forall_exists_index, and_imp]
  constructor
  · rintro ⟨⟨p, hp, ho, -⟩, hmin⟩
    refine ⟨⟨p, hp, ho⟩, fun j hj q hq hqo => ?_⟩
    obtain ⟨k, hk, hf⟩ := exists_indexOf?_le hqo
    have hle := hmin k q hq (indexOf?_eq_some_iff.mp hf).1 (indexOf?_eq_some_iff.mp hf).2
    omega
  · rintro ⟨⟨p, hp, ho⟩, hfirst⟩
    refine ⟨⟨p, hp, ho, fun j hj => hfirst j hj p hp⟩, fun k q hq hqo _ => ?_⟩
    rcases Nat.lt_or_ge k i with hk | hk
    · exact absurd hqo (hfirst k hk q hq)
    · exact hk

/-- Patterns one of which occurs are found, there or before. -/
theorem exists_earliest?_le {p : List Char} (hp : p ∈ patterns) (h : p <+: text.drop i) :
    ∃ j ≤ i, earliest? patterns text = some j := by
  have hat : ∃ q ∈ patterns, q <+: text.drop i := ⟨p, hp, h⟩
  have hsome : ∃ j, ∃ q ∈ patterns, q <+: text.drop j := ⟨i, hat⟩
  exact ⟨Nat.find hsome, Nat.find_min' hsome hat, earliest?_eq_some_iff.mpr
    ⟨Nat.find_spec hsome, fun _ hk q hq hqo => Nat.find_min hsome hk ⟨q, hq, hqo⟩⟩⟩

/-- The search fails when none of the patterns occurs. -/
theorem earliest?_eq_none_iff :
    earliest? patterns text = none ↔ ∀ j, ∀ p ∈ patterns, ¬ p <+: text.drop j := by
  constructor
  · intro h j p hp hj
    obtain ⟨k, -, hk⟩ := exists_earliest?_le hp hj
    rw [h] at hk
    exact nomatch hk
  · intro h
    cases hf : earliest? patterns text with
    | none => rfl
    | some j =>
        obtain ⟨⟨p, hp, ho⟩, -⟩ := earliest?_eq_some_iff.mp hf
        exact absurd ho (h j p hp)

-- ── a pattern before the stops ───────────────────────────────────────────────────

/-- The bounded search finds the first occurrence when no stop occurs strictly before it. -/
theorem indexBefore?_eq_some_iff :
    indexBefore? pattern stops text = some i ↔
      indexOf? pattern text = some i ∧ ∀ j < i, ∀ s ∈ stops, ¬ s <+: text.drop j := by
  rw [indexBefore?]
  cases hf : indexOf? pattern text with
  | none => simp
  | some found =>
      cases hs : earliest? stops text with
      | none =>
          have hno := earliest?_eq_none_iff.mp hs
          simp only [Option.some.injEq, iff_self_and]
          exact fun _ j _ => hno j
      | some stop =>
          obtain ⟨⟨s, hsm, hso⟩, hfirst⟩ := earliest?_eq_some_iff.mp hs
          by_cases hlt : stop < found
          · simp only [if_pos hlt, reduceCtorEq, Option.some.injEq, false_iff, not_and]
            rintro rfl h
            exact h stop hlt s hsm hso
          · simp only [if_neg hlt, Option.some.injEq, iff_self_and]
            rintro rfl j hj
            exact hfirst j (by omega)

/-- The bounded search fails when a stop comes before every occurrence of the pattern. -/
theorem indexBefore?_eq_none_iff :
    indexBefore? pattern stops text = none ↔
      ∀ i, pattern <+: text.drop i → ∃ j < i, ∃ s ∈ stops, s <+: text.drop j := by
  constructor
  · intro h i hi
    obtain ⟨k, hki, hk⟩ := exists_indexOf?_le hi
    refine Classical.byContradiction fun hno => ?_
    have hsome : indexBefore? pattern stops text = some k :=
      indexBefore?_eq_some_iff.mpr ⟨hk, fun j hj s hs ho => hno ⟨j, by omega, s, hs, ho⟩⟩
    rw [h] at hsome
    exact nomatch hsome
  · intro h
    cases hf : indexBefore? pattern stops text with
    | none => rfl
    | some i =>
        obtain ⟨hi, hno⟩ := indexBefore?_eq_some_iff.mp hf
        obtain ⟨j, hj, s, hs, ho⟩ := h i (indexOf?_eq_some_iff.mp hi).1
        exact absurd ho (hno j hj s hs)

-- ── stretches without a stop ─────────────────────────────────────────────────────

/-- None of the stops begins in the first `n` characters of the text. -/
structure Avoids (stops : List (List Char)) (n : Nat) (text : List Char) : Prop where
  le_length : n ≤ text.length
  no_stop : ∀ j < n, ∀ s ∈ stops, ¬ s <+: text.drop j

/-- One of the stops begins where the text does, or the text has come to its end. -/
def AtStop (stops : List (List Char)) (text : List Char) : Prop :=
  text = [] ∨ ∃ s ∈ stops, s <+: text

/-- None of the stops begins with the character. -/
def StartsNone (stops : List (List Char)) (c : Char) : Prop :=
  ∀ s ∈ stops, s ≠ [] ∧ s.head? ≠ some c

theorem not_prefix_of_startsNone {s : List Char} {c : Char} {cs : List Char}
    (h : StartsNone stops c) (hs : s ∈ stops) : ¬ s <+: c :: cs := by
  intro hp
  obtain ⟨hne, hhead⟩ := h s hs
  cases s with
  | nil => exact hne rfl
  | cons x xs =>
      rw [(List.cons_prefix_cons.mp hp).1] at hhead
      exact hhead rfl

namespace Avoids

variable {n m : Nat}

theorem zero (stops : List (List Char)) (text : List Char) : Avoids stops 0 text :=
  ⟨Nat.zero_le _, fun j hj => absurd hj (Nat.not_lt_zero j)⟩

/-- Fewer stops are avoided, too. -/
theorem mono {fewer : List (List Char)} (h : Avoids stops n text) (hs : ∀ s ∈ fewer, s ∈ stops) :
    Avoids fewer n text :=
  ⟨h.le_length, fun j hj s hm => h.no_stop j hj s (hs s hm)⟩

/-- A prefix of characters with which no stop begins. -/
theorem of_prefix {w : List Char} (h : w <+: text) (hw : ∀ c ∈ w, StartsNone stops c) :
    Avoids stops w.length text := by
  refine ⟨h.length_le, fun j hj s hs hsj => ?_⟩
  obtain ⟨t, rfl⟩ := h
  rw [List.drop_append_of_le_length (Nat.le_of_lt hj), List.drop_eq_getElem_cons hj] at hsj
  exact not_prefix_of_startsNone (hw _ (List.getElem_mem hj)) hs hsj

/-- Two stretches without a stop, one after the other, are one. -/
theorem append (h₁ : Avoids stops n text) (h₂ : Avoids stops m (text.drop n)) :
    Avoids stops (n + m) text := by
  have hlen₁ := h₁.le_length
  have hlen₂ := h₂.le_length
  rw [List.length_drop] at hlen₂
  refine ⟨by omega, fun j hj s hs hsj => ?_⟩
  rcases Nat.lt_or_ge j n with hjn | hjn
  · exact h₁.no_stop j hjn s hs hsj
  · refine h₂.no_stop (j - n) (by omega) s hs ?_
    rwa [List.drop_drop, Nat.add_sub_cancel' hjn]

/-- A run of characters of which the stops are made may be judged by itself. -/
theorem of_takeWhile {p : Char → Bool} (h : Avoids stops n (text.takeWhile p))
    (hp : ∀ s ∈ stops, ∀ c ∈ s, p c = true) : Avoids stops n text := by
  have hpre : ∀ (s t : List Char), (∀ c ∈ s, p c = true) → s <+: t → s <+: t.takeWhile p := by
    intro s
    induction s with
    | nil => intro t _ _; exact List.nil_prefix
    | cons c cs ih =>
        intro t hs ht
        obtain ⟨u, rfl⟩ := ht
        rw [List.cons_append, List.takeWhile_cons_of_pos (hs c (List.mem_cons_self ..))]
        exact List.cons_prefix_cons.mpr
          ⟨rfl, ih (cs ++ u) (fun d hd => hs d (List.mem_cons_of_mem _ hd)) (List.prefix_append ..)⟩
  have hdrop : ∀ (j : Nat) (t : List Char), j ≤ (t.takeWhile p).length →
      (t.takeWhile p).drop j = (t.drop j).takeWhile p := by
    intro j
    induction j with
    | zero => intro t _; rfl
    | succ j ih =>
        intro t hj
        cases t with
        | nil => rfl
        | cons c cs =>
            by_cases hc : p c = true
            · rw [List.takeWhile_cons_of_pos hc] at hj ⊢
              exact ih cs (Nat.le_of_succ_le_succ hj)
            · rw [List.takeWhile_cons_of_neg hc] at hj
              exact absurd hj (Nat.not_succ_le_zero j)
  refine ⟨Nat.le_trans h.le_length (List.takeWhile_prefix p).length_le, fun j hj s hs hsj => ?_⟩
  refine h.no_stop j hj s hs ?_
  rw [hdrop j text (Nat.le_trans (Nat.le_of_lt hj) h.le_length)]
  exact hpre s (text.drop j) (hp s hs) hsj

/-- There is one place where the first stop, or the end, is reached. -/
theorem drop_eq (hn : Avoids stops n text) (hm : Avoids stops m text)
    (hsn : AtStop stops (text.drop n)) (hsm : AtStop stops (text.drop m)) :
    text.drop n = text.drop m := by
  -- a stretch that is shorter is not yet at a stop
  have hle : ∀ {a b : Nat}, a < b → Avoids stops b text → AtStop stops (text.drop a) →
      text.drop a = text.drop b := by
    intro a b hab hb ha
    rcases ha with hnil | ⟨s, hs, hpre⟩
    · rw [hnil, ← Nat.add_sub_cancel' (Nat.le_of_lt hab), ← List.drop_drop, hnil, List.drop_nil]
    · exact absurd hpre (hb.no_stop a hab s hs)
  rcases Nat.lt_trichotomy n m with hlt | rfl | hgt
  · exact hle hlt hm hsn
  · rfl
  · exact (hle hgt hn hsm).symm

end Avoids

end TemplateScan.Text
