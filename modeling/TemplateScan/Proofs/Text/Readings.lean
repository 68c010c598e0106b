import TemplateScan.Proofs.Text.Occurrence
import TemplateScan.Text.Literal

/-! # Readings — what the literal readers take from a text

    Each reader takes a prefix of the text, and the characters of that prefix are known:

    * **`identifier?_eq_some`** — characters of identifiers, at least one.
    * **`identifier?_self`** — an identifier again, when it is read by itself.
    * **`startsWithWord_iff`** — as a word, an identifier is what stands at the start of a text.
    * **`number?_eq_some`** — digits, signs and points, at least one; a digit stands last.
    * **`quoted?_eq_closed`**, **`quoted?_eq_unclosed`** — whether a string is closed.
    * **`quoted?_eq_some`**, **`avoids_quoted`** — a quote and a body in which no stop begins. -/

namespace TemplateScan.Text

variable {text : List Char}

/-- The run of characters of a class at the start of a text holds no others. -/
theorem of_mem_take_takeWhile {p : Char → Bool} {c : Char}
    (h : c ∈ text.take (text.takeWhile p).length) : p c = true := by
  rw [← List.prefix_iff_eq_take.mp (List.takeWhile_prefix p)] at h
  exact List.all_eq_true.mp List.all_takeWhile c h

-- ── identifiers and words ────────────────────────────────────────────────────────

/-- An identifier is a nonempty prefix made of the characters of identifiers. -/
theorem identifier?_eq_some {name : List Char} (h : identifier? text = some name) :
    name <+: text ∧ 0 < name.length ∧ ∀ c ∈ name, isIdentifierChar c = true := by
  rw [identifier?] at h
  by_cases hs : startsIdentifier text = true
  · rw [if_pos hs] at h
    obtain rfl := Option.some.inj h
    refine ⟨List.takeWhile_prefix _, ?_, fun c hc => ?_⟩
    · cases text with
      | nil => exact nomatch hs
      | cons c cs =>
          have hc : isIdentifierChar c = true :=
            isIdentifierChar_of_isIdentifierStart (by simpa [startsIdentifier] using hs)
          simp [hc]
    · exact List.all_eq_true.mp List.all_takeWhile c hc
  · rw [if_neg hs] at h
    exact nomatch h

/-- Where a text begins with an identifier, it begins with a character that may start one. -/
theorem exists_head_of_identifier? {name : List Char} (h : identifier? text = some name) :
    ∃ c, text.head? = some c ∧ isIdentifierStart c = true := by
  rw [identifier?] at h
  split at h
  · next hs =>
      cases text with
      | nil => exact nomatch hs
      | cons c cs => exact ⟨c, rfl, hs⟩
  · exact nomatch h

/-- An identifier taken from a text is one by itself. -/
theorem identifier?_self {name : List Char} (h : identifier? text = some name) :
    identifier? name = some name := by
  have hall := (identifier?_eq_some h).2.2
  have hname : name.takeWhile isIdentifierChar = name := by
    have happend := @List.takeWhile_append_of_pos _ isIdentifierChar name [] hall
    rwa [List.append_nil, List.takeWhile_nil, List.append_nil] at happend
  have hs : startsIdentifier name = true := by
    rw [identifier?] at h
    split at h
    · next hs =>
        obtain rfl := Option.some.inj h
        cases text with
        | nil => exact hs
        | cons c cs =>
            have hc : isIdentifierChar c = true := isIdentifierChar_of_isIdentifierStart hs
            rw [List.takeWhile_cons_of_pos hc]
            exact hs
    · exact nomatch h
  rw [identifier?, if_pos hs, hname]

/-- Where a text does not begin with an identifier, no part from its start on is one. -/
theorem identifier?_take_eq_none (h : identifier? text = none) (n : Nat) :
    identifier? (text.take n) = none := by
  have hs : startsIdentifier text = false := by
    rw [identifier?] at h
    split at h
    · exact nomatch h
    · next hs => exact Bool.eq_false_iff.mpr hs
  have hnil : identifier? [] = none := rfl
  cases n with
  | zero => exact hnil
  | succ n =>
      cases text with
      | nil => exact hnil
      | cons c cs =>
          have hs' : startsIdentifier ((c :: cs).take (n + 1)) = false := hs
          rw [identifier?, hs', if_neg Bool.false_ne_true]

/-- An identifier is the identifier that a text begins with exactly when it stands there as a
    word. -/
theorem startsWithWord_iff {name : List Char} (h : identifier? name = some name) :
    startsWithWord name text = true ↔ identifier? text = some name := by
  obtain ⟨-, hpos, hall⟩ := identifier?_eq_some h
  have hstarts : ∀ tail, startsIdentifier (name ++ tail) = true := by
    intro tail
    rw [identifier?] at h
    split at h
    · next hs =>
        cases name with
        | nil => exact nomatch hs
        | cons c cs => exact hs
    · exact nomatch h
  have hread : ∀ tail, identifier? (name ++ tail) = some name ↔
      tail.takeWhile isIdentifierChar = [] := by
    intro tail
    rw [identifier?, if_pos (hstarts tail), List.takeWhile_append_of_pos hall]
    simp
  have hstops : ∀ tail, continuesIdentifier tail = false ↔
      tail.takeWhile isIdentifierChar = [] := by
    intro tail
    cases tail with
    | nil => exact ⟨fun _ => rfl, fun _ => rfl⟩
    | cons c cs =>
        cases hc : isIdentifierChar c <;> simp [continuesIdentifier, hc]
  rw [startsWithWord, Bool.and_eq_true, List.isPrefixOf_iff_prefix, Bool.not_eq_true']
  constructor
  · rintro ⟨⟨tail, rfl⟩, hnext⟩
    rw [List.drop_left] at hnext
    exact (hread tail).mpr ((hstops tail).mp hnext)
  · intro htext
    obtain ⟨tail, rfl⟩ := (identifier?_eq_some htext).1
    refine ⟨List.prefix_append .., ?_⟩
    rw [List.drop_left]
    exact (hstops tail).mpr ((hread tail).mp htext)

/-- A word that the text starts with is a prefix of it. -/
theorem prefix_of_startsWithWord {word : List Char} (h : startsWithWord word text = true) :
    word <+: text := by
  rw [startsWithWord, Bool.and_eq_true] at h
  exact List.isPrefixOf_iff_prefix.mp h.1

-- ── numbers ──────────────────────────────────────────────────────────────────────

/-- A character of a number. -/
def isNumberChar (c : Char) : Bool :=
  c.isDigit || c == '-' || c == '.'

/-- The sign is cut off the front of the text. -/
theorem signOf_append_drop (text : List Char) :
    signOf text ++ text.drop (signOf text).length = text := by
  unfold signOf
  split <;> rfl

/-- The sign is at most a dash. -/
theorem isNumberChar_of_mem_signOf {c : Char} (h : c ∈ signOf text) : isNumberChar c = true := by
  unfold signOf at h
  split at h
  · obtain rfl := List.mem_singleton.mp h
    rfl
  · exact nomatch h

/-- A fraction is cut off the front of the text. -/
theorem fractionOf_prefix (text : List Char) : fractionOf text <+: text := by
  unfold fractionOf
  split
  · next tail =>
      by_cases hd : (tail.takeWhile Char.isDigit).isEmpty = true
      · simp only [hd, if_true, List.nil_prefix]
      · simp only [hd]
        exact List.cons_prefix_cons.mpr ⟨rfl, List.takeWhile_prefix _⟩
  · exact List.nil_prefix

/-- A fraction is made of a point and digits. -/
theorem isNumberChar_of_mem_fractionOf {c : Char} (h : c ∈ fractionOf text) :
    isNumberChar c = true := by
  unfold fractionOf at h
  split at h
  · next tail =>
      by_cases hd : (tail.takeWhile Char.isDigit).isEmpty = true
      · simp [hd] at h
      · simp only [hd] at h
        rcases List.mem_cons.mp h with rfl | hc
        · rfl
        · have hdigit : c.isDigit = true := List.all_eq_true.mp List.all_takeWhile c hc
          rw [isNumberChar, hdigit]
          rfl
  · exact nomatch h

/-- A number is a nonempty prefix made of the characters of numbers. -/
theorem number?_eq_some {form : NumberForm} {digits : List Char}
    (h : number? text = some (form, digits)) :
    digits <+: text ∧ 0 < digits.length ∧ ∀ c ∈ digits, isNumberChar c = true := by
  have hsplit := signOf_append_drop text
  generalize hu : text.drop (signOf text).length = unsigned at hsplit
  simp only [number?, hu] at h
  by_cases hd : (unsigned.takeWhile Char.isDigit).isEmpty = true
  · simp [hd] at h
  · simp only [hd, Bool.false_eq_true, if_false, Option.some.injEq, Prod.mk.injEq] at h
    obtain ⟨-, rfl⟩ := h
    refine ⟨?_, ?_, fun c hc => ?_⟩
    · obtain ⟨t, ht⟩ := fractionOf_prefix (unsigned.dropWhile Char.isDigit)
      refine ⟨t, ?_⟩
      rw [List.append_assoc, List.append_assoc, ht, List.takeWhile_append_dropWhile, hsplit]
    · refine List.length_pos_iff.mpr fun hnil => ?_
      simp only [List.append_eq_nil_iff] at hnil
      exact hd (by simp [hnil.1.2])
    · rcases List.mem_append.mp hc with hc | hc
      · rcases List.mem_append.mp hc with hc | hc
        · exact isNumberChar_of_mem_signOf hc
        · have hdigit : c.isDigit = true := List.all_eq_true.mp List.all_takeWhile c hc
          rw [isNumberChar, hdigit]
          rfl
      · exact isNumberChar_of_mem_fractionOf hc

/-- A number ends in a digit. -/
theorem number?_getLast? {form : NumberForm} {digits : List Char}
    (h : number? text = some (form, digits)) :
    ∃ c, digits.getLast? = some c ∧ c.isDigit = true := by
  have hlast : ∀ (front : List Char) {cs : List Char}, cs.takeWhile Char.isDigit ≠ [] →
      ∃ c, (front ++ cs.takeWhile Char.isDigit).getLast? = some c ∧ c.isDigit = true := by
    intro front cs hne
    refine ⟨_, ?_, List.all_eq_true.mp List.all_takeWhile _ (List.getLast_mem hne)⟩
    rw [List.getLast?_append, List.getLast?_eq_some_getLast hne, Option.some_or]
  simp only [number?, Option.ite_none_left_eq_some, Option.some.injEq, Prod.mk.injEq,
    List.isEmpty_iff] at h
  obtain ⟨hne, -, rfl⟩ := h
  unfold fractionOf
  split
  · next tail _ =>
      by_cases hd : tail.takeWhile Char.isDigit = []
      · simp only [hd, List.isEmpty_nil, if_true, List.append_nil]
        exact hlast _ hne
      · rw [if_neg (by rwa [List.isEmpty_iff]), List.append_cons]
        exact hlast _ hd
  · rw [List.append_nil]
    exact hlast _ hne

-- ── strings ──────────────────────────────────────────────────────────────────────

/-- The part before the stops is what its name says. -/
theorem avoids_beforeStops (stops : List (List Char)) (text : List Char) :
    Avoids stops (beforeStops stops text).length text := by
  rw [beforeStops, List.length_take]
  refine ⟨Nat.min_le_right _ _, fun j hj => ?_⟩
  cases he : earliest? stops text with
  | none => exact earliest?_eq_none_iff.mp he j
  | some k =>
      rw [he, Option.getD_some] at hj
      exact (earliest?_eq_some_iff.mp he).2 j (by omega)

/-- A string is closed where its quote stands before the stops. -/
theorem quoted?_eq_closed {stops : List (List Char)} {quote : Char} {tail body others : List Char}
    (hq : isQuote quote = true) (h : beforeStops stops tail = body ++ quote :: others)
    (hbody : quote ∉ body) : quoted? stops (quote :: tail) = some (.closed quote body) := by
  have hdiffer : ∀ c ∈ body, (c != quote) = true := by
    intro c hc
    rw [bne_iff_ne]
    rintro rfl
    exact hbody hc
  have hcontains : (beforeStops stops tail).contains quote = true := by
    rw [h]
    simp
  simp only [quoted?, hq, if_true, hcontains]
  rw [h, List.takeWhile_append_of_pos hdiffer, List.takeWhile_cons_of_neg (by simp),
    List.append_nil]

/-- A string is not closed where its quote does not stand before the stops. -/
theorem quoted?_eq_unclosed {stops : List (List Char)} {quote : Char} {tail : List Char}
    (hq : isQuote quote = true) (h : quote ∉ beforeStops stops tail) :
    quoted? stops (quote :: tail) = some (.unclosed quote (beforeStops stops tail)) := by
  simp only [quoted?, hq, if_true, List.contains_iff_mem, h, if_false]

/-- A string is a quote and a part of the text after it that ends before the first stop. -/
theorem quoted?_eq_some {stops : List (List Char)} {string : Quoted}
    (h : quoted? stops text = some string) :
    ∃ quote tail, text = quote :: tail ∧ isQuote quote = true ∧ string.text <+: text ∧
      0 < string.text.length ∧ string.text.length ≤ 1 + (beforeStops stops tail).length := by
  cases text with
  | nil => exact nomatch h
  | cons quote tail =>
      have hq : isQuote quote = true := by
        rw [quoted?, Option.ite_none_right_eq_some] at h
        exact h.1
      have hbefore : beforeStops stops tail <+: tail := List.take_prefix _ _
      refine ⟨quote, tail, rfl, hq, ?_⟩
      by_cases hmem : quote ∈ beforeStops stops tail
      · -- the closing quote is still before the stops
        obtain ⟨body, others, hsplit, hnot⟩ := List.eq_append_cons_of_mem hmem
        obtain rfl := Option.some.inj ((quoted?_eq_closed hq hsplit hnot).symm.trans h)
        have hclosed : body ++ [quote] <+: beforeStops stops tail := by
          rw [hsplit, List.append_cons body quote others]
          exact List.prefix_append _ _
        have hlen := hclosed.length_le
        refine ⟨?_, Nat.succ_pos _, ?_⟩
        · rw [Quoted.text, List.cons_append]
          exact List.cons_prefix_cons.mpr ⟨rfl, hclosed.trans hbefore⟩
        · rw [Quoted.text, List.cons_append, List.length_cons]
          omega
      · obtain rfl := Option.some.inj ((quoted?_eq_unclosed hq hmem).symm.trans h)
        refine ⟨List.cons_prefix_cons.mpr ⟨rfl, hbefore⟩, Nat.succ_pos _, ?_⟩
        rw [Quoted.text, List.length_cons]
        omega

/-- No stop begins in a string, provided that none begins with a quote. -/
theorem avoids_quoted {stops : List (List Char)} {string : Quoted}
    (h : quoted? stops text = some string) (hq : StartsNone stops '"' ∧ StartsNone stops '\'') :
    Avoids stops string.text.length text := by
  obtain ⟨quote, tail, rfl, hquote, hpre, -, hlen⟩ := quoted?_eq_some h
  refine ⟨hpre.length_le, fun j hj s hs hsj => ?_⟩
  cases j with
  | zero =>
      simp only [isQuote, Bool.or_eq_true, beq_iff_eq] at hquote
      rcases hquote with rfl | rfl
      · exact not_prefix_of_startsNone hq.1 hs hsj
      · exact not_prefix_of_startsNone hq.2 hs hsj
  | succ j =>
      have hj' : j < (beforeStops stops tail).length := by omega
      exact (avoids_beforeStops stops tail).no_stop j hj' s hs hsj

end TemplateScan.Text
