/-! # Searching — the first place where a pattern occurs

    Places are counted in characters from the start of the text searched.

    * `indexOf?` — the first occurrence of one pattern; an empty pattern occurs at once.
    * `earliest?` — the first occurrence of any of several patterns.
    * `indexBefore?` — the first occurrence of a pattern, unless one of the stops occurs
      strictly before it. -/

namespace TemplateScan.Text

/-- The first place where `pattern` occurs. -/
def indexOf? (pattern : List Char) : List Char → Option Nat
  | [] => if pattern.isEmpty then some 0 else none
  | c :: cs =>
      if pattern.isPrefixOf (c :: cs) then some 0
      else (indexOf? pattern cs).map (· + 1)

/-- The first place where one of the patterns occurs. -/
def earliest? (patterns : List (List Char)) (text : List Char) : Option Nat :=
  (patterns.filterMap (indexOf? · text)).min?

/-- The first place where `pattern` occurs, unless one of `stops` occurs strictly before it. -/
def indexBefore? (pattern : List Char) (stops : List (List Char)) (text : List Char) :
    Option Nat :=
  match indexOf? pattern text, earliest? stops text with
  | some found, some stop => if stop < found then none else some found
  | found, _ => found

/-- An empty pattern occurs at once. -/
@[simp] theorem indexOf?_nil (text : List Char) : indexOf? [] text = some 0 := by
  cases text <;> rfl

/-- An occurrence ends within the text. -/
theorem indexOf?_add_length_le {pattern text : List Char} {i : Nat}
    (h : indexOf? pattern text = some i) : i + pattern.length ≤ text.length := by
  induction text generalizing i with
  | nil =>
      simp only [indexOf?] at h
      split at h
      · next he =>
          obtain rfl : 0 = i := by simpa using h
          cases pattern with
          | nil => simp
          | cons p ps => simp at he
      · exact nomatch h
  | cons c cs ih =>
      simp only [indexOf?] at h
      split at h
      · next hp =>
          obtain rfl : 0 = i := by simpa using h
          have := (List.isPrefixOf_iff_prefix.mp hp).length_le
          omega
      · obtain ⟨j, hj, rfl⟩ := Option.map_eq_some_iff.mp h
        have := ih hj
        simp only [List.length_cons]
        omega

end TemplateScan.Text
