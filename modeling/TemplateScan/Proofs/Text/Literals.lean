import TemplateScan.Proofs.Text.Readings

/-! # Literals — what is written down is read back

    A name, a number or a string is read back from any text that begins with it, provided that what
    comes next does not carry it on: no character of names behind a name, neither a digit nor a point
    behind a number.  A string ends by itself, when neither its quote nor a stop stands in its body.

    * **`identifier?_append`**, **`number?_append`**, **`quoted?_append`** — the three of them.
    * **`head_of_number`** — a number starts with a digit, perhaps behind a dash. -/

namespace TemplateScan.Text

variable {text : List Char}

-- ── names ────────────────────────────────────────────────────────────────────────

/-- A name is read back where no character of names comes next. -/
theorem identifier?_append {name k : List Char} (h : identifier? name = some name)
    (hk : continuesIdentifier k = false) : identifier? (name ++ k) = some name := by
  refine (startsWithWord_iff h).mp ?_
  rw [startsWithWord, Bool.and_eq_true, Bool.not_eq_true', List.drop_left]
  exact ⟨List.isPrefixOf_iff_prefix.mpr (List.prefix_append ..), hk⟩

/-- No name begins with a digit. -/
theorem isDigit_of_isIdentifierStart {c : Char} (h : isIdentifierStart c = true) :
    c.isDigit = false := by
  have hval : c.toNat = c.val.toNat := rfl
  have hlow : 58 ≤ c.toNat := by
    simp only [isIdentifierStart, Bool.or_eq_true] at h
    delta Char.isAlpha Char.isUpper Char.isLower at h
    simp only [Bool.or_eq_true, Bool.and_eq_true, decide_eq_true_eq, beq_iff_eq,
      UInt32.le_iff_toNat_le, ge_iff_le] at h
    rcases h with (h | h) | rfl
    · simp at h
      omega
    · simp at h
      omega
    · decide
  simp only [Char.isDigit, Bool.and_eq_false_iff, decide_eq_false_iff_not, UInt32.le_iff_toNat_le,
    ge_iff_le]
  simp
  omega

-- ── numbers ──────────────────────────────────────────────────────────────────────

/-- The text begins with a character that may carry a number on. -/
def continuesNumber (text : List Char) : Bool :=
  text.head?.any fun c => c.isDigit || c == '.'

/-- A run of digits ends where no digit comes next. -/
theorem takeWhile_isDigit_append {digits k : List Char} (h : ∀ c ∈ digits, c.isDigit = true)
    (hk : ∀ c, k.head? = some c → c.isDigit = false) :
    (digits ++ k).takeWhile Char.isDigit = digits ∧ (digits ++ k).dropWhile Char.isDigit = k := by
  rw [List.takeWhile_append_of_pos h, List.dropWhile_append_of_pos h]
  cases k with
  | nil => exact ⟨List.append_nil _, rfl⟩
  | cons c cs =>
      have hc : ¬ c.isDigit = true := by simp [hk c rfl]
      rw [List.takeWhile_cons_of_neg hc, List.dropWhile_cons_of_neg hc]
      exact ⟨List.append_nil _, rfl⟩

/-- What stands behind a run of digits is not another one. -/
theorem isDigit_of_head?_dropWhile {c : Char}
    (h : (text.dropWhile Char.isDigit).head? = some c) : c.isDigit = false := by
  have hnot := List.head?_dropWhile_not Char.isDigit text
  rw [h] at hnot
  exact hnot

/-- A fraction is read back where no digit comes next, and no point behind an empty one. -/
theorem fractionOf_append {fraction k : List Char} (h : fractionOf fraction = fraction)
    (hk : continuesNumber k = false) : fractionOf (fraction ++ k) = fraction := by
  have hdigit : ∀ c, k.head? = some c → c.isDigit = false ∧ c ≠ '.' := by
    intro c hc
    rw [continuesNumber, hc] at hk
    simpa using hk
  cases fraction with
  | nil =>
      cases k with
      | nil => rfl
      | cons c cs =>
          rw [List.nil_append]
          unfold fractionOf
          split
          · next heq =>
              obtain rfl := (List.cons.inj heq).1
              exact absurd rfl (hdigit _ rfl).2
          · rfl
  | cons c digits =>
      obtain rfl : c = '.' := by
        unfold fractionOf at h
        split at h
        · next heq => exact (List.cons.inj heq).1
        · cases h
      simp only [fractionOf] at h
      split at h
      · cases h
      · next hne =>
          have hself : digits.takeWhile Char.isDigit = digits := (List.cons.inj h).2
          have hall : ∀ c ∈ digits, c.isDigit = true := by
            rw [← hself]
            exact List.all_eq_true.mp List.all_takeWhile
          rw [List.cons_append]
          simp only [fractionOf]
          rw [(takeWhile_isDigit_append hall fun c hc => (hdigit c hc).1).1, ← hself, if_neg hne]

/-- The sign of a text that is not empty is seen in its first character. -/
theorem signOf_append (h : text ≠ []) (k : List Char) : signOf (text ++ k) = signOf text := by
  cases text with
  | nil => exact absurd rfl h
  | cons c cs =>
      rw [List.cons_append]
      by_cases hc : c = '-'
      · subst hc
        rfl
      · unfold signOf
        split
        · next heq => exact absurd (List.cons.inj heq).1 hc
        · split
          · next heq => exact absurd (List.cons.inj heq).1 hc
          · rfl

/-- A number by itself is a sign, digits, and a fraction. -/
theorem number?_parts {form : NumberForm} {number : List Char}
    (h : number? number = some (form, number)) :
    ∃ digits fraction, number = signOf number ++ (digits ++ fraction) ∧ digits ≠ [] ∧
      (∀ c ∈ digits, c.isDigit = true) ∧ fractionOf fraction = fraction ∧
      (∀ c, fraction.head? = some c → c.isDigit = false) ∧
      form = if fraction.isEmpty then .integer else .float := by
  have hsplit := signOf_append_drop number
  generalize hu : number.drop (signOf number).length = unsigned at hsplit
  have hrun := List.takeWhile_append_dropWhile (p := Char.isDigit) (l := unsigned)
  simp only [number?, hu, Option.ite_none_left_eq_some, Option.some.injEq, Prod.mk.injEq,
    List.isEmpty_iff] at h
  obtain ⟨hne, hform, htext⟩ := h
  have hfraction : fractionOf (unsigned.dropWhile Char.isDigit) =
      unsigned.dropWhile Char.isDigit := by
    have hboth := htext.trans hsplit.symm
    rw [List.append_assoc] at hboth
    exact List.append_cancel_left ((List.append_cancel_left hboth).trans hrun.symm)
  refine ⟨unsigned.takeWhile Char.isDigit, unsigned.dropWhile Char.isDigit, ?_, hne,
    fun c hc => List.all_eq_true.mp List.all_takeWhile c hc, hfraction, fun c hc => ?_, ?_⟩
  · rw [hrun, hsplit]
  · exact isDigit_of_head?_dropWhile hc
  · simp only [← hform, hfraction, List.isEmpty_iff]

/-- A number is read back where neither a digit nor a point comes next. -/
theorem number?_append {form : NumberForm} {number k : List Char}
    (h : number? number = some (form, number)) (hk : continuesNumber k = false) :
    number? (number ++ k) = some (form, number) := by
  obtain ⟨digits, fraction, htext, hne, hall, hself, hhead, rfl⟩ := number?_parts h
  have hnumber : number ≠ [] := by
    rintro rfl
    cases h
  have hunsigned : (number ++ k).drop (signOf number).length = digits ++ (fraction ++ k) := by
    rw [htext, List.append_assoc, ← htext, List.drop_left, List.append_assoc]
  have hstop : ∀ c, (fraction ++ k).head? = some c → c.isDigit = false := by
    intro c hc
    cases fraction with
    | nil =>
        rw [continuesNumber, show k.head? = some c from hc] at hk
        simp only [Option.any_some, Bool.or_eq_false_iff] at hk
        exact hk.1
    | cons d ds => exact hhead c hc
  obtain ⟨htake, hdrop⟩ := takeWhile_isDigit_append hall hstop
  simp only [number?, signOf_append hnumber, hunsigned, htake, hdrop,
    fractionOf_append hself hk, List.isEmpty_iff, hne, if_false]
  rw [List.append_assoc, ← htext]

/-- A number starts with a dash or with a digit, and a digit stands behind the dash. -/
theorem head_of_number {form : NumberForm} {number : List Char}
    (h : number? number = some (form, number)) :
    ∃ c cs, number = c :: cs ∧
      (c.isDigit = true ∨ c = '-' ∧ ∃ d ds, cs = d :: ds ∧ d.isDigit = true) := by
  obtain ⟨digits, fraction, htext, hne, hall, -⟩ := number?_parts h
  obtain ⟨d, ds, rfl⟩ := List.exists_cons_of_ne_nil hne
  have hd := hall d (List.mem_cons_self ..)
  rw [htext]
  unfold signOf
  split
  · exact ⟨'-', _, rfl, Or.inr ⟨rfl, d, _, rfl, hd⟩⟩
  · exact ⟨d, _, rfl, Or.inl hd⟩

-- ── strings ──────────────────────────────────────────────────────────────────────

/-- A word without a given character does not reach over it. -/
theorem prefix_of_not_mem {word body tail : List Char} {c : Char}
    (h : word <+: body ++ c :: tail) (hc : c ∉ word) : word <+: body := by
  rcases Nat.lt_or_ge body.length word.length with hlt | hge
  · obtain ⟨rest, hrest⟩ := h
    refine absurd ?_ hc
    have hget : (word ++ rest)[body.length]? = some c := by rw [hrest]; simp
    rw [List.getElem?_append_left hlt] at hget
    exact List.mem_of_getElem? hget
  · exact List.prefix_of_prefix_length_le h (List.prefix_append ..) hge

/-- A string is read back, whatever comes next. -/
theorem quoted?_append {stops : List (List Char)} {quote : Char} {body k : List Char}
    (hq : isQuote quote = true) (hbody : quote ∉ body)
    (hstops : ∀ stop ∈ stops, quote ∉ stop ∧ ¬ stop <:+: body) :
    quoted? stops (quote :: (body ++ quote :: k)) = some (.closed quote body) := by
  -- a stop that began in the body would end in it
  have hlong : body.length + 1 ≤
      (earliest? stops (body ++ quote :: k)).getD (body ++ quote :: k).length := by
    cases he : earliest? stops (body ++ quote :: k) with
    | none => simp
    | some e =>
        obtain ⟨⟨stop, hstop, hat⟩, -⟩ := earliest?_eq_some_iff.mp he
        obtain ⟨hnot, hfree⟩ := hstops stop hstop
        rcases Nat.lt_or_ge body.length e with hlt | hle
        · exact hlt
        · rw [List.drop_append_of_le_length hle] at hat
          have hin := prefix_of_not_mem hat hnot
          exact absurd (hin.isInfix.trans (List.drop_suffix e body).isInfix) hfree
  have hbefore : body ++ [quote] <+: beforeStops stops (body ++ quote :: k) :=
    List.prefix_take_iff.mpr ⟨⟨k, by simp⟩, by simpa using hlong⟩
  obtain ⟨tail, htail⟩ := hbefore
  exact quoted?_eq_closed hq (htail.symm.trans (List.append_cons body quote tail).symm) hbody

end TemplateScan.Text
