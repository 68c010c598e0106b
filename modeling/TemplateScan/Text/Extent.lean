/-! # Extents — text measured in UTF-8 bytes

    A text is a list of characters; every offset into it is a number of UTF-8 bytes.
    This file measures a text (`byteSize`) and cuts it at an offset (`splitAtByte`).

    * **`splitAtByte_append`** — the two halves are the text again.
    * **`splitAtByte_byteSize`** — at the end of a first part the cut falls exactly there.
    * **`IsBoundary`** — the offsets between two characters; elsewhere the cut rounds up to the
      end of the character it falls into, and beyond the end it takes the whole text. -/

namespace TemplateScan.Text

-- ── measuring ────────────────────────────────────────────────────────────────────

/-- The number of UTF-8 bytes of a text, counted on from `n`. -/
def byteSizeFrom : (n : Nat) → List Char → Nat
  | n, [] => n
  | n, c :: cs => byteSizeFrom (n + c.utf8Size) cs

/-- The number of UTF-8 bytes of a text. -/
def byteSize (cs : List Char) : Nat :=
  byteSizeFrom 0 cs

/-- Counting on adds the size of the text. -/
theorem byteSizeFrom_eq (n : Nat) (cs : List Char) : byteSizeFrom n cs = n + byteSize cs := by
  induction cs generalizing n with
  | nil => rfl
  | cons c cs ih =>
      rw [byteSize, byteSizeFrom, byteSizeFrom, ih, ih, Nat.zero_add, Nat.add_assoc]

@[simp] theorem byteSize_nil : byteSize [] = 0 := rfl

@[simp] theorem byteSize_cons (c : Char) (cs : List Char) :
    byteSize (c :: cs) = c.utf8Size + byteSize cs := by
  rw [byteSize, byteSizeFrom, byteSizeFrom_eq, Nat.zero_add]

@[simp] theorem byteSize_append (a b : List Char) :
    byteSize (a ++ b) = byteSize a + byteSize b := by
  induction a with
  | nil => simp
  | cons c a ih => simp [ih, Nat.add_assoc]

@[simp] theorem byteSize_reverse (a : List Char) : byteSize a.reverse = byteSize a := by
  induction a with
  | nil => rfl
  | cons c a ih => simp [ih, Nat.add_comm]

/-- Every character has at least one byte. -/
theorem length_le_byteSize (a : List Char) : a.length ≤ byteSize a := by
  induction a with
  | nil => exact Nat.le_refl 0
  | cons c a ih =>
      have := c.utf8Size_pos
      simp only [List.length_cons, byteSize_cons]
      omega

/-- Only the empty text has no bytes. -/
theorem byteSize_eq_zero {a : List Char} : byteSize a = 0 ↔ a = [] := by
  constructor
  · intro h
    have := length_le_byteSize a
    exact List.length_eq_zero_iff.mp (by omega)
  · rintro rfl
    rfl

-- ── cutting ──────────────────────────────────────────────────────────────────────

/-- The text before and after a byte offset; inside a character the cut rounds up to its end. -/
def splitAtByte : Nat → List Char → List Char × List Char
  | 0, cs => ([], cs)
  | _ + 1, [] => ([], [])
  | n + 1, c :: cs =>
      let halves := splitAtByte (n + 1 - c.utf8Size) cs
      (c :: halves.1, halves.2)

@[simp] theorem splitAtByte_zero (cs : List Char) : splitAtByte 0 cs = ([], cs) := by
  cases cs <;> rfl

@[simp] theorem splitAtByte_nil (n : Nat) : splitAtByte n [] = ([], []) := by
  cases n <;> rfl

/-- Cutting loses nothing. -/
theorem splitAtByte_append (n : Nat) (cs : List Char) :
    (splitAtByte n cs).1 ++ (splitAtByte n cs).2 = cs := by
  induction cs generalizing n with
  | nil => simp
  | cons c cs ih =>
      cases n with
      | zero => rfl
      | succ n => simp [splitAtByte, ih]

/-- Cuts after the first part are cuts of the second. -/
theorem splitAtByte_add (a b : List Char) (n : Nat) :
    splitAtByte (byteSize a + n) (a ++ b) = (a ++ (splitAtByte n b).1, (splitAtByte n b).2) := by
  induction a with
  | nil => simp
  | cons c a ih =>
      have hc := c.utf8Size_pos
      obtain ⟨k, hk⟩ : ∃ k, c.utf8Size + byteSize a + n = k + 1 :=
        ⟨c.utf8Size + byteSize a + n - 1, by omega⟩
      have hsub : k + 1 - c.utf8Size = byteSize a + n := by omega
      rw [byteSize_cons, hk, List.cons_append, splitAtByte, hsub, ih]
      rfl

/-- At the end of a first part the cut falls exactly there. -/
theorem splitAtByte_byteSize (a b : List Char) : splitAtByte (byteSize a) (a ++ b) = (a, b) := by
  have h := splitAtByte_add a b 0
  rwa [Nat.add_zero, splitAtByte_zero, List.append_nil] at h

/-- The text from a byte offset on: the second half of the cut. -/
def dropBytes : Nat → List Char → List Char
  | 0, cs => cs
  | _ + 1, [] => []
  | n + 1, c :: cs => dropBytes (n + 1 - c.utf8Size) cs

/-- Dropping the text before an offset is cutting there and keeping the second half. -/
theorem dropBytes_eq (n : Nat) (cs : List Char) : dropBytes n cs = (splitAtByte n cs).2 := by
  induction cs generalizing n with
  | nil => cases n <;> rfl
  | cons c cs ih =>
      cases n with
      | zero => rfl
      | succ n => simp only [dropBytes, splitAtByte, ih]

-- ── boundaries ───────────────────────────────────────────────────────────────────

/-- The offset lies between two characters of the text, or at one of its ends. -/
def IsBoundary (n : Nat) (cs : List Char) : Prop :=
  byteSize (splitAtByte n cs).1 = n

/-- Walking over whole characters reaches the offset exactly. -/
def reaches : (n : Nat) → List Char → Bool
  | 0, _ => true
  | _ + 1, [] => false
  | n + 1, c :: cs => c.utf8Size ≤ n + 1 && reaches (n + 1 - c.utf8Size) cs

/-- The walk reaches the boundaries and no other offset. -/
theorem reaches_iff {n : Nat} {cs : List Char} : reaches n cs = true ↔ IsBoundary n cs := by
  induction cs generalizing n with
  | nil => cases n <;> simp [reaches, IsBoundary]
  | cons c cs ih =>
      cases n with
      | zero => simp [reaches, IsBoundary]
      | succ n =>
          simp only [reaches, Bool.and_eq_true, decide_eq_true_eq, ih, IsBoundary, splitAtByte,
            byteSize_cons]
          omega

instance (n : Nat) (cs : List Char) : Decidable (IsBoundary n cs) :=
  decidable_of_iff _ reaches_iff

/-- The boundaries are the ends of the first parts. -/
theorem isBoundary_iff {n : Nat} {cs : List Char} :
    IsBoundary n cs ↔ ∃ a b, cs = a ++ b ∧ byteSize a = n := by
  constructor
  · intro h
    exact ⟨_, _, (splitAtByte_append n cs).symm, h⟩
  · rintro ⟨a, b, rfl, rfl⟩
    simp [IsBoundary, splitAtByte_byteSize]

/-- The text before and after a byte offset, when no character is cut in two. -/
def splitAtByte? (n : Nat) (cs : List Char) : Option (List Char × List Char) :=
  if IsBoundary n cs then some (splitAtByte n cs) else none

end TemplateScan.Text
