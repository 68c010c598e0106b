import Mathlib.Data.Nat.Digits.Defs
import TemplateScan.Dialect.Standard
import TemplateScan.Proofs.Scan.Passage
import TemplateScan.Proofs.Scan.Recognizer
import TemplateScan.Proofs.Text.Literals

/-! # Ranges — collections in parentheses

    A loop may run through a range, which is written as two bounds in parentheses with two dots
    between them.  A bound is an integer or a path of names.  The scanner checks less than that: of
    a bound that begins like a name it asks only that it is made of the characters of names and of
    dots, so a **stray dot**, behind which no name begins, goes unnoticed.  That is the whole
    difference.

    * **`isInteger64_iff`** — the integers are those of 64 bits.
    * **`isDottedPath_iff`** — paths of names, and what is asked of them.
    * **`isRange_iff`** — what is taken for a range: ranges, and texts with a stray dot in a bound.
    * **`IsRange.not_isStrayRange`** — a text is not both.
    * **`collection_in_parentheses`** — what a scan makes of a text in parentheses. -/

namespace TemplateScan

open Text

-- ── integers ─────────────────────────────────────────────────────────────────────

/-- The number with the given decimal digits, the highest one first. -/
def decimal (digits : List Char) : Nat :=
  Nat.ofDigits 10 (digits.reverse.map fun c => c.toNat - '0'.toNat)

/-- The text is the number in decimal digits, perhaps behind a sign. -/
inductive Denotes : List Char → Int → Prop where
  | unsigned {digits : List Char} (hne : digits ≠ []) (hd : ∀ c ∈ digits, c.isDigit = true) :
      Denotes digits (decimal digits)
  | plus {digits : List Char} (hne : digits ≠ []) (hd : ∀ c ∈ digits, c.isDigit = true) :
      Denotes ('+' :: digits) (decimal digits)
  | minus {digits : List Char} (hne : digits ≠ []) (hd : ∀ c ∈ digits, c.isDigit = true) :
      Denotes ('-' :: digits) (-decimal digits)

/-- The text is an integer that fits in 64 bits. -/
def IsInteger64 (text : List Char) : Prop :=
  ∃ n : Int, Denotes text n ∧ -2 ^ 63 ≤ n ∧ n < 2 ^ 63

/-- The value of digits is the number that they write in decimal. -/
theorem digitsValue_eq (digits : List Char) : Machine.digitsValue digits = decimal digits := by
  rw [decimal, Nat.ofDigits_eq_foldr, List.foldr_map, List.foldr_reverse, Machine.digitsValue]
  congr 1
  funext n c
  simp [Nat.mul_comm, Nat.add_comm]

/-- What is asked of the digits of an integer. -/
theorem digits_iff {digits : List Char} {limit : Nat} :
    (!digits.isEmpty && digits.all Char.isDigit &&
        decide (Machine.digitsValue digits ≤ limit)) = true ↔
      digits ≠ [] ∧ (∀ c ∈ digits, c.isDigit = true) ∧ decimal digits ≤ limit := by
  simp [digitsValue_eq, and_assoc]

/-- Without a sign the digits are all of the text. -/
theorem isInteger64_of_unsigned {text : List Char}
    (h : ∀ digits, text ≠ '-' :: digits ∧ text ≠ '+' :: digits) :
    Machine.isInteger64 text = (!text.isEmpty && text.all Char.isDigit &&
      decide (Machine.digitsValue text ≤ 2 ^ 63 - 1)) := by
  unfold Machine.isInteger64
  split
  next magnitude limit heq =>
    split at heq
    · next digits => exact absurd rfl (h digits).1
    · next digits => exact absurd rfl (h digits).2
    · obtain ⟨rfl, rfl⟩ := Prod.mk.inj heq
      rfl

/-- The check accepts the integers that fit in 64 bits, and nothing else. -/
theorem isInteger64_iff {text : List Char} : Machine.isInteger64 text = true ↔ IsInteger64 text := by
  have hminus : ∀ digits, Machine.isInteger64 ('-' :: digits) = (!digits.isEmpty &&
      digits.all Char.isDigit && decide (Machine.digitsValue digits ≤ 2 ^ 63)) := fun _ => rfl
  have hplus : ∀ digits, Machine.isInteger64 ('+' :: digits) = (!digits.isEmpty &&
      digits.all Char.isDigit && decide (Machine.digitsValue digits ≤ 2 ^ 63 - 1)) := fun _ => rfl
  constructor
  · intro h
    by_cases hm : ∃ digits, text = '-' :: digits
    · obtain ⟨digits, rfl⟩ := hm
      obtain ⟨hne, hd, hlimit⟩ := digits_iff.mp ((hminus digits).symm.trans h)
      exact ⟨_, .minus hne hd, by omega, by omega⟩
    by_cases hp : ∃ digits, text = '+' :: digits
    · obtain ⟨digits, rfl⟩ := hp
      obtain ⟨hne, hd, hlimit⟩ := digits_iff.mp ((hplus digits).symm.trans h)
      exact ⟨_, .plus hne hd, by omega, by omega⟩
    · rw [isInteger64_of_unsigned fun digits => ⟨fun h => hm ⟨_, h⟩, fun h => hp ⟨_, h⟩⟩] at h
      obtain ⟨hne, hd, hlimit⟩ := digits_iff.mp h
      exact ⟨_, .unsigned hne hd, by omega, by omega⟩
  · rintro ⟨n, hn, hlow, hhigh⟩
    cases hn with
    | minus hne hd => exact (hminus _).trans (digits_iff.mpr ⟨hne, hd, by omega⟩)
    | plus hne hd => exact (hplus _).trans (digits_iff.mpr ⟨hne, hd, by omega⟩)
    | unsigned hne hd =>
        have hsign : ∀ digits, text ≠ '-' :: digits ∧ text ≠ '+' :: digits := by
          -- a digit is no sign
          refine fun digits => ⟨?_, ?_⟩ <;> rintro rfl <;> cases hd _ List.mem_cons_self
        rw [isInteger64_of_unsigned hsign]
        exact digits_iff.mpr ⟨hne, hd, by omega⟩

/-- An integer is made of a sign and digits. -/
theorem IsInteger64.mem {text : List Char} (h : IsInteger64 text) {c : Char} (hc : c ∈ text) :
    c = '+' ∨ c = '-' ∨ c.isDigit = true := by
  obtain ⟨n, hn, -⟩ := h
  cases hn with
  | unsigned _ hd => exact Or.inr (Or.inr (hd c hc))
  | plus _ hd =>
      rcases List.mem_cons.mp hc with rfl | hc
      · exact Or.inl rfl
      · exact Or.inr (Or.inr (hd c hc))
  | minus _ hd =>
      rcases List.mem_cons.mp hc with rfl | hc
      · exact Or.inr (Or.inl rfl)
      · exact Or.inr (Or.inr (hd c hc))

/-- An integer has digits. -/
theorem IsInteger64.ne_nil {text : List Char} (h : IsInteger64 text) : text ≠ [] := by
  obtain ⟨n, hn, -⟩ := h
  cases hn <;> simp_all

-- ── paths of names ───────────────────────────────────────────────────────────────

/-- Names with a dot between each two of them. -/
inductive IsDottedPath : List Char → Prop where
  | name {name : List Char} (hn : identifier? name = some name) : IsDottedPath name
  | dot {name path : List Char} (hn : identifier? name = some name) (hp : IsDottedPath path) :
      IsDottedPath (name ++ '.' :: path)

/-- No name begins behind some dot of the text. -/
def HasStrayDot (text : List Char) : Prop :=
  ∃ u v, text = u ++ '.' :: v ∧ startsIdentifier v = false

/-- A name holds no dots. -/
theorem dot_not_mem_identifier {name : List Char} (h : identifier? name = some name) :
    '.' ∉ name := by
  intro hdot
  exact absurd ((identifier?_eq_some h).2.2 '.' hdot) (by decide)

/-- A path is made of the characters of names and of dots, and begins like a name. -/
theorem IsDottedPath.isDottedName {path : List Char} (h : IsDottedPath path) :
    Machine.isDottedName path = true := by
  have hname : ∀ {name : List Char}, identifier? name = some name →
      startsIdentifier name = true ∧ ∀ c ∈ name, isIdentifierChar c = true := by
    intro name hn
    obtain ⟨c, hc, hstart⟩ := exists_head_of_identifier? hn
    exact ⟨by rw [startsIdentifier, hc]; exact hstart, (identifier?_eq_some hn).2.2⟩
  induction h with
  | name hn =>
      obtain ⟨hstart, hall⟩ := hname hn
      rw [Machine.isDottedName, hstart, Bool.true_and, List.all_eq_true]
      exact fun c hc => Bool.or_eq_true_iff.mpr (Or.inl (hall c hc))
  | @dot name path hn hp ih =>
      obtain ⟨hstart, hall⟩ := hname hn
      rw [Machine.isDottedName, Bool.and_eq_true, List.all_eq_true] at ih ⊢
      constructor
      · obtain ⟨c, cs, rfl⟩ := List.exists_cons_of_ne_nil (l := name) (by rintro rfl; cases hstart)
        exact hstart
      · intro c hc
        rcases List.mem_append.mp hc with hc | hc
        · exact Bool.or_eq_true_iff.mpr (Or.inl (hall c hc))
        · rcases List.mem_cons.mp hc with rfl | hc
          · rfl
          · exact ih.2 c hc

/-- In a path every dot stands between two names. -/
theorem IsDottedPath.not_hasStrayDot {path : List Char} (h : IsDottedPath path) :
    ¬ HasStrayDot path := by
  induction h with
  | name hn =>
      rintro ⟨u, v, rfl, -⟩
      exact dot_not_mem_identifier hn (by simp)
  | @dot name path hn hp ih =>
      rintro ⟨u, v, heq, hv⟩
      rcases List.append_eq_append_iff.mp heq with ⟨w, rfl, hw⟩ | ⟨w, rfl, hw⟩
      · cases w with
        | nil =>
            -- the dot is the one behind the name
            obtain rfl := (List.cons.inj hw).2
            have hstart := hp.isDottedName
            rw [Machine.isDottedName, hv] at hstart
            cases hstart
        | cons c w =>
            obtain ⟨rfl, rfl⟩ := List.cons.inj hw
            exact ih ⟨w, v, rfl, hv⟩
      · cases w with
        | nil =>
            obtain rfl := (List.cons.inj hw).2
            have hstart := hp.isDottedName
            rw [Machine.isDottedName, hv] at hstart
            cases hstart
        | cons c w =>
            obtain ⟨rfl, -⟩ := List.cons.inj hw
            exact dot_not_mem_identifier hn (by simp)

/-- Of a path no more is asked than its characters and its first one, and that no dot is stray. -/
theorem isDottedPath_iff {path : List Char} :
    IsDottedPath path ↔ Machine.isDottedName path = true ∧ ¬ HasStrayDot path := by
  refine ⟨fun h => ⟨h.isDottedName, h.not_hasStrayDot⟩, fun h => ?_⟩
  induction hlen : path.length using Nat.strongRecOn generalizing path with
  | ind n ih =>
      obtain ⟨hdotted, hstray⟩ := h
      rw [Machine.isDottedName, Bool.and_eq_true, List.all_eq_true] at hdotted
      obtain ⟨hstart, hall⟩ := hdotted
      have hname : identifier? path = some (path.takeWhile isIdentifierChar) := by
        rw [identifier?, if_pos hstart]
      have hcut := List.takeWhile_append_dropWhile (p := isIdentifierChar) (l := path)
      cases hrest : path.dropWhile isIdentifierChar with
      | nil =>
          rw [hrest, List.append_nil] at hcut
          rw [← hcut]
          exact .name (identifier?_self hname)
      | cons c rest =>
          -- what ends the first name is a dot, and another name begins behind it
          have hnot : isIdentifierChar c = false := by
            have := List.head?_dropWhile_not isIdentifierChar path
            rw [hrest] at this
            simpa using this
          rw [hrest] at hcut
          have hmem : c ∈ path := by
            rw [← hcut]
            simp
          obtain rfl : c = '.' := by simpa [hnot] using hall c hmem
          have hdots : ¬ HasStrayDot rest := by
            rintro ⟨u, v, rfl, hv⟩
            refine hstray ⟨path.takeWhile isIdentifierChar ++ '.' :: u, v, ?_, hv⟩
            rw [List.append_assoc]
            exact hcut.symm
          have hbegins : startsIdentifier rest = true := by
            cases h : startsIdentifier rest with
            | true => rfl
            | false => exact absurd ⟨_, rest, hcut.symm, h⟩ hstray
          have hdotted : Machine.isDottedName rest = true := by
            rw [Machine.isDottedName, hbegins, Bool.true_and, List.all_eq_true]
            intro d hd
            refine hall d ?_
            rw [← hcut]
            simp [hd]
          rw [← hcut]
          refine .dot (identifier?_self hname) (ih rest.length ?_ ⟨hdotted, hdots⟩ rfl)
          have hlength := congrArg List.length hcut
          rw [List.length_append, List.length_cons] at hlength
          omega

-- ── bounds ───────────────────────────────────────────────────────────────────────

/-- The text can bound a range. -/
def IsBound (text : List Char) : Prop :=
  IsInteger64 text ∨ IsDottedPath text

/-- The text begins like a name and is made of the characters of names and of dots, one of them
    stray. -/
def IsStrayName (text : List Char) : Prop :=
  startsIdentifier text = true ∧ (∀ c ∈ text, isIdentifierChar c = true ∨ c = '.') ∧
    HasStrayDot text

/-- A bound holds no stray dot. -/
theorem IsBound.not_hasStrayDot {text : List Char} (h : IsBound text) : ¬ HasStrayDot text := by
  rcases h with hint | hpath
  · rintro ⟨u, v, rfl, -⟩
    rcases hint.mem (c := '.') (by simp) with h | h | h <;> cases h
  · exact hpath.not_hasStrayDot

/-- A bound is accepted, and so is a name with a stray dot. -/
theorem isRangeBound_iff {text : List Char} :
    Machine.isRangeBound text = true ↔ IsBound text ∨ IsStrayName text := by
  have hname : Machine.isDottedName text = true ↔
      startsIdentifier text = true ∧ ∀ c ∈ text, isIdentifierChar c = true ∨ c = '.' := by
    simp [Machine.isDottedName]
  rw [Machine.isRangeBound, Bool.or_eq_true, isInteger64_iff, IsBound, isDottedPath_iff, hname,
    IsStrayName, or_assoc]
  refine or_congr_right ⟨fun h => ?_, ?_⟩
  · by_cases hdots : HasStrayDot text
    · exact Or.inr ⟨h.1, h.2, hdots⟩
    · exact Or.inl ⟨h, hdots⟩
  · rintro (⟨h, -⟩ | ⟨hstart, hall, -⟩)
    · exact h
    · exact ⟨hstart, hall⟩

/-- A bound is not empty. -/
theorem IsBound.ne_nil {text : List Char} (h : IsBound text) : text ≠ [] := by
  rcases h with hint | hname
  · exact hint.ne_nil
  · rintro rfl
    cases hname.isDottedName

/-- No bound holds a blank. -/
theorem IsBound.isBlank_eq_false {text : List Char} (h : IsBound text) {c : Char} (hc : c ∈ text) :
    isBlank c = false := by
  have hname : ∀ {c : Char}, isIdentifierChar c = true → isBlank c = false := by
    intro c hc
    obtain ⟨hlow, hhigh, -⟩ := Machine.toNat_of_isIdentifierChar hc
    simp only [isBlank, blankRanges, List.any_cons, List.any_nil, Bool.or_false,
      Bool.or_eq_false_iff, Bool.and_eq_false_iff, decide_eq_false_iff_not]
    omega
  rcases h with hint | hpath
  · rcases hint.mem hc with rfl | rfl | hdigit
    · decide
    · decide
    · exact hname (by simp [isIdentifierChar, Char.isAlphanum, hdigit])
  · have hdotted := hpath.isDottedName
    rw [Machine.isDottedName, Bool.and_eq_true, List.all_eq_true] at hdotted
    rcases Bool.or_eq_true_iff.mp (hdotted.2 c hc) with hchar | hdot
    · exact hname hchar
    · rw [beq_iff_eq.mp hdot]
      decide

-- ── blanks around a text ─────────────────────────────────────────────────────────

/-- A text of the language among blanks. -/
def Padded (language : List Char → Prop) (text : List Char) : Prop :=
  ∃ a b c, text = a ++ (b ++ c) ∧ (∀ x ∈ a, isBlank x = true) ∧ (∀ x ∈ c, isBlank x = true) ∧
    language b

/-- Trimming leaves a text among blanks. -/
theorem exists_trim (text : List Char) :
    ∃ a c, text = a ++ (trim text ++ c) ∧ (∀ x ∈ a, isBlank x = true) ∧
      ∀ x ∈ c, isBlank x = true := by
  have hstart := List.takeWhile_append_dropWhile (p := isBlank) (l := text)
  have hend := List.takeWhile_append_dropWhile (p := isBlank) (l := (trimStart text).reverse)
  refine ⟨text.takeWhile isBlank, ((trimStart text).reverse.takeWhile isBlank).reverse, ?_, ?_, ?_⟩
  · rw [trim, trimEnd, ← List.reverse_append, hend, List.reverse_reverse]
    exact hstart.symm
  · exact List.all_eq_true.mp List.all_takeWhile
  · intro x hx
    exact List.all_eq_true.mp List.all_takeWhile x (List.mem_reverse.mp hx)

/-- Trimming takes blanks away from a text without any. -/
theorem trim_padded {a b c : List Char} (ha : ∀ x ∈ a, isBlank x = true)
    (hb : ∀ x ∈ b, isBlank x = false) (hc : ∀ x ∈ c, isBlank x = true) (hne : b ≠ []) :
    trim (a ++ (b ++ c)) = b := by
  have hstop : ∀ {l k : List Char}, l ≠ [] → (∀ x ∈ l, isBlank x = false) →
      (l ++ k).dropWhile isBlank = l ++ k := by
    intro l k hl hall
    obtain ⟨x, l, rfl⟩ := List.exists_cons_of_ne_nil hl
    exact List.dropWhile_cons_of_neg (by simp [hall x List.mem_cons_self])
  have hstart : trimStart (a ++ (b ++ c)) = b ++ c := by
    rw [trimStart, List.dropWhile_append_of_pos ha, hstop hne hb]
  have hback := hstop (l := b.reverse) (k := []) (by simpa using hne) fun x hx =>
    hb x (List.mem_reverse.mp hx)
  rw [List.append_nil] at hback
  rw [trim, hstart, trimEnd, List.reverse_append,
    List.dropWhile_append_of_pos fun x hx => hc x (List.mem_reverse.mp hx), hback,
    List.reverse_reverse]

/-- A text is a bound among blanks exactly if it is one when trimmed. -/
theorem padded_isBound_iff {text : List Char} : Padded IsBound text ↔ IsBound (trim text) := by
  constructor
  · rintro ⟨a, b, c, rfl, ha, hc, hb⟩
    rwa [trim_padded ha (fun x hx => hb.isBlank_eq_false hx) hc hb.ne_nil]
  · intro h
    obtain ⟨a, c, htext, ha, hc⟩ := exists_trim text
    exact ⟨a, trim text, c, htext, ha, hc, h⟩

-- ── ranges ───────────────────────────────────────────────────────────────────────

/-- Two bounds with two dots between them, each of them perhaps among blanks. -/
def IsRange (text : List Char) : Prop :=
  ∃ u v, text = u ++ '.' :: '.' :: v ∧ Padded IsBound u ∧ Padded IsBound v

/-- The text is cut at the first two dots in it. -/
def CutAtDots (u v text : List Char) : Prop :=
  text = u ++ '.' :: '.' :: v ∧ indexOf? ['.', '.'] text = some u.length

/-- Two texts with two dots between them, one of them a name with a stray dot, and the other one
    such a name or a bound. -/
def IsStrayRange (text : List Char) : Prop :=
  ∃ u v, CutAtDots u v text ∧ (IsBound (trim u) ∨ IsStrayName (trim u)) ∧
    (IsBound (trim v) ∨ IsStrayName (trim v)) ∧ (IsStrayName (trim u) ∨ IsStrayName (trim v))

variable {text u v u' v' : List Char}

/-- The first two dots cut a text in one way only. -/
theorem CutAtDots.unique (h : CutAtDots u v text) (h' : CutAtDots u' v' text) :
    u = u' ∧ v = v' := by
  have hlength : u.length = u'.length := Option.some.inj (h.2.symm.trans h'.2)
  obtain ⟨hu, htail⟩ := List.append_inj (h.1.symm.trans h'.1) hlength
  exact ⟨hu, (List.cons.inj (List.cons.inj htail).2).2⟩

/-- Where two dots are found first, they cut the text. -/
theorem exists_cutAtDots {i : Nat} (h : indexOf? ['.', '.'] text = some i) :
    CutAtDots (text.take i) (text.drop (i + 2)) text := by
  have hle := indexOf?_add_length_le h
  obtain ⟨tail, htail⟩ := (indexOf?_eq_some_iff.mp h).1
  constructor
  · have hdrop : text.drop (i + 2) = tail := by
      rw [← List.drop_drop, ← htail]
      rfl
    rw [hdrop]
    exact (List.take_append_drop i text).symm.trans (congrArg _ htail.symm)
  · rw [List.length_take, Nat.min_eq_left (by omega)]
    exact h

/-- Ranges are cut at the first two dots. -/
theorem isRange_eq_true_iff : Machine.isRange text = true ↔ ∃ u v, CutAtDots u v text ∧
    Machine.isRangeBound (trim u) = true ∧ Machine.isRangeBound (trim v) = true := by
  unfold Machine.isRange
  constructor
  · intro h
    split at h
    · next i hi => exact ⟨_, _, exists_cutAtDots hi, Bool.and_eq_true_iff.mp h⟩
    · cases h
  · rintro ⟨u, v, hcut, hu, hv⟩
    rw [hcut.2]
    obtain ⟨htake, hdrop⟩ := (exists_cutAtDots hcut.2).unique hcut
    simp only [htake, hdrop, hu, hv, Bool.and_self]

/-- A dot stays where blanks are trimmed. -/
theorem exists_dot_of_trim {front back : List Char} (h : u = front ++ '.' :: back) :
    ∃ x z c, trim u = x ++ '.' :: z ∧ back = z ++ c := by
  obtain ⟨a, c, htrim, ha, hc⟩ := exists_trim u
  have hdot : isBlank '.' ≠ true := by decide
  obtain ⟨w, hw⟩ : ∃ w, trim u ++ c = w ++ '.' :: back := by
    rcases List.append_eq_append_iff.mp (htrim.symm.trans h) with ⟨w, -, hw⟩ | ⟨w, rfl, hw⟩
    · exact ⟨w, hw⟩
    · cases w with
      | nil => exact ⟨[], hw.symm⟩
      | cons d w =>
          obtain ⟨rfl, -⟩ := List.cons.inj hw
          exact absurd (ha '.' (by simp)) hdot
  rcases List.append_eq_append_iff.mp hw with ⟨k, -, rfl⟩ | ⟨k, hk, hback⟩
  · exact absurd (hc '.' (by simp)) hdot
  · cases k with
    | nil =>
        rw [List.nil_append] at hback
        exact absurd (hc '.' (by simp [← hback])) hdot
    | cons d k =>
        obtain ⟨rfl, rfl⟩ := List.cons.inj hback
        exact ⟨w, k, c, hk, rfl⟩

/-- Where no dot is stray, two dots come first behind the text in front of them. -/
theorem cutAtDots_of_not_stray (h : ¬ HasStrayDot (trim u)) :
    CutAtDots u v (u ++ '.' :: '.' :: v) := by
  refine ⟨rfl, indexOf?_eq_some_iff.mpr ⟨?_, fun j hj hdots => ?_⟩⟩
  · rw [List.drop_left]
    exact ⟨v, rfl⟩
  -- the first of two dots that begin earlier lies in the bound, and no name begins behind it
  obtain ⟨w, hw⟩ := hdots
  rw [List.drop_append_of_le_length (Nat.le_of_lt hj), List.drop_eq_getElem_cons hj] at hw
  obtain ⟨hfirst, hsecond⟩ := List.cons.inj hw
  have hu : u = u.take j ++ '.' :: u.drop (j + 1) := by
    rw [hfirst, ← List.drop_eq_getElem_cons hj, List.take_append_drop]
  obtain ⟨x, z, c, htrim, hback⟩ := exists_dot_of_trim hu
  refine h ⟨x, z, htrim, ?_⟩
  cases z with
  | nil => rfl
  | cons d z =>
      rw [hback] at hsecond
      obtain ⟨rfl, -⟩ := List.cons.inj hsecond
      rfl

/-- A range is cut at the first two dots in it. -/
theorem IsRange.exists_cut (h : IsRange text) :
    ∃ u v, CutAtDots u v text ∧ IsBound (trim u) ∧ IsBound (trim v) := by
  obtain ⟨u, v, rfl, hu, hv⟩ := h
  rw [padded_isBound_iff] at hu hv
  exact ⟨u, v, cutAtDots_of_not_stray hu.not_hasStrayDot, hu, hv⟩

/-- A range is not a stray one. -/
theorem IsRange.not_isStrayRange (h : IsRange text) : ¬ IsStrayRange text := by
  obtain ⟨u, v, hcut, hu, hv⟩ := h.exists_cut
  rintro ⟨u', v', hcut', -, -, hstray⟩
  obtain ⟨rfl, rfl⟩ := hcut.unique hcut'
  rcases hstray with ⟨-, -, hdot⟩ | ⟨-, -, hdot⟩
  · exact hu.not_hasStrayDot hdot
  · exact hv.not_hasStrayDot hdot

/-- What is taken for a range is a range, or has a stray dot in one of its bounds. -/
theorem isRange_iff : Machine.isRange text = true ↔ IsRange text ∨ IsStrayRange text := by
  simp only [isRange_eq_true_iff, isRangeBound_iff]
  constructor
  · rintro ⟨u, v, hcut, hu, hv⟩
    by_cases hstray : IsStrayName (trim u) ∨ IsStrayName (trim v)
    · exact Or.inr ⟨u, v, hcut, hu, hv, hstray⟩
    · obtain ⟨hnu, hnv⟩ := not_or.mp hstray
      exact Or.inl ⟨u, v, hcut.1, padded_isBound_iff.mpr (hu.resolve_right hnu),
        padded_isBound_iff.mpr (hv.resolve_right hnv)⟩
  · rintro (hrange | ⟨u, v, hcut, hu, hv, -⟩)
    · obtain ⟨u, v, hcut, hu, hv⟩ := hrange.exists_cut
      exact ⟨u, v, hcut, Or.inl hu, Or.inl hv⟩
    · exact ⟨u, v, hcut, hu, hv⟩

-- ── steps ────────────────────────────────────────────────────────────────────────

namespace Machine

variable {γ : Type} [Grammar γ] {m : Machine γ} {r : Reader} {inner tail : List Char}

/-- The parenthesis that closes a collection is the first one behind it. -/
theorem indexBefore?_parenthesis {stops : List (List Char)} (hclose : ')' ∉ inner)
    (hstops : ∀ stop ∈ stops, '(' ∉ stop ∧ ')' ∉ stop ∧ stop ≠ [] ∧ ¬ stop <:+: inner) :
    indexBefore? [')'] stops ('(' :: (inner ++ ')' :: tail)) = some (inner.length + 1) := by
  refine indexBefore?_eq_some_iff.mpr ⟨indexOf?_eq_some_iff.mpr ⟨?_, ?_⟩, ?_⟩
  · rw [List.drop_succ_cons, List.drop_left]
    exact ⟨tail, rfl⟩
  · intro j hj hat
    cases j with
    | zero => cases (List.cons_prefix_cons.mp hat).1
    | succ j =>
        rw [List.drop_succ_cons, List.drop_append_of_le_length (by omega),
          List.drop_eq_getElem_cons (by omega)] at hat
        refine hclose ?_
        rw [(List.cons_prefix_cons.mp hat).1]
        exact List.getElem_mem _
  · intro j hj stop hstop hat
    obtain ⟨hopen, hnot, hne, hfree⟩ := hstops stop hstop
    cases j with
    | zero =>
        obtain ⟨c, cs, rfl⟩ := List.exists_cons_of_ne_nil hne
        exact hopen ((List.cons_prefix_cons.mp hat).1 ▸ List.mem_cons_self)
    | succ j =>
        -- a stop that began in the collection would end in it
        rw [List.drop_succ_cons, List.drop_append_of_le_length (by omega)] at hat
        have hin := prefix_of_not_mem hat hnot
        exact hfree (hin.isInfix.trans (List.drop_suffix j inner).isInfix)

/-- One step over a collection in parentheses. -/
theorem step_parentheses (hp : m.phase = .loop .collection)
    (hr : r.rest = '(' :: (inner ++ ')' :: tail)) (hclose : ')' ∉ inner)
    (hstops : ∀ stop ∈ m.tag.form.stringStops, ¬ stop <:+: inner) :
    m.step r = m.emit (if isRange (trim inner) then .collection else .invalid .invalidCharacters)
      (inner.length + 2) (.loop .parameter) := by
  have hhead : r.rest.head? = some '(' := by rw [hr]; rfl
  have hopen : atClose m.tag.form r.rest = false := by
    rw [hr]
    cases m.tag.form <;> rfl
  have hfind : indexBefore? [')'] m.tag.form.stringStops r.rest = some (inner.length + 1) := by
    rw [hr]
    refine indexBefore?_parenthesis hclose fun stop hstop => ?_
    have hnone : ∀ form : TagForm, ∀ stop ∈ form.stringStops,
        '(' ∉ stop ∧ ')' ∉ stop ∧ stop ≠ [] := by
      rintro ⟨⟩ <;> decide
    obtain ⟨hleft, hright, hne⟩ := hnone _ stop hstop
    exact ⟨hleft, hright, hne, hstops stop hstop⟩
  have hinner : (r.rest.take (inner.length + 1)).drop 1 = inner := by
    rw [hr, List.take_succ_cons, List.drop_succ_cons, List.drop_zero, List.take_left]
  rw [step_eq_stepPhase (by rw [hp]; nofun) hhead (by decide), stepPhase, hp]
  show m.stepCollection r.rest = _
  rw [stepCollection, hopen, if_neg Bool.false_ne_true, if_pos hhead, stepRange, hfind]
  simp only [hinner]
  split <;> rfl

end Machine

-- ── scans ────────────────────────────────────────────────────────────────────────

namespace Scanner

variable {γ : Type} [Grammar γ]

/-- **A text in parentheses** where a loop expects its collection is taken whole, with both
    parentheses, and the modifiers of the loop come next.  It is a collection exactly when it is a
    range, or has names with stray dots where a range has bounds; any other text is a fault. -/
theorem collection_in_parentheses (s : Scanner γ) (inner tail : List Char)
    (hp : s.machine.phase = .loop .collection) (hf : s.machine.tag.form = .statement)
    (hr : s.reader.rest = '(' :: (inner ++ ')' :: tail)) (hclose : ')' ∉ inner)
    (hstops : ∀ stop ∈ [['%', '}'], ['{', '{'], ['{', '%']], ¬ stop <:+: inner) :
    ∃ kind, s.lexemeAt 0 = some ⟨kind, '(' :: (inner ++ [')'])⟩ ∧
      (kind = .collection ∨ kind = .invalid .invalidCharacters) ∧
      (kind = .collection ↔ IsRange (trim inner) ∨ IsStrayRange (trim inner)) ∧
      (s.after 1).reader.start = s.reader.offset ∧ (s.after 1).reader.rest = tail ∧
      (s.after 1).machine = { s.machine with phase := .loop .parameter } := by
  have hstep := Machine.step_parentheses hp hr hclose (by rw [hf]; exact hstops)
  obtain ⟨hreader, hmachine⟩ := after_one_of_take hstep
  have hwhole : s.reader.rest = ('(' :: (inner ++ [')'])) ++ tail := by
    rw [hr]
    simp
  have hlength : inner.length + 2 = ('(' :: (inner ++ [')'])).length := by simp
  have htoken : (s.after 1).reader.token = '(' :: (inner ++ [')']) := by
    rw [hreader, Reader.token_capture, hwhole, hlength, List.take_left]
  have hevent : s.eventAt 0 = .token _ := congrArg Reply.event hstep
  have hlexeme := lexemeAt_of_token hevent
  rw [Nat.zero_add, htoken] at hlexeme
  refine ⟨_, hlexeme, ?_, ?_, ?_, ?_, hmachine⟩
  · split
    · exact Or.inl rfl
    · exact Or.inr rfl
  · rw [← isRange_iff]
    split
    · next h => exact iff_of_true rfl h
    · next h => exact iff_of_false nofun h
  · rw [hreader, Reader.start_capture]
  · rw [hreader, Reader.rest_capture, hwhole, hlength, List.drop_left]

theorem collection_in_parentheses_path :
    let s := (ofString "\x7b%for i in (a.b .. 5)%\x7d" Dialect.standard.lookup).after 7
    s.machine.phase = .loop .collection ∧ s.machine.tag.form = .statement ∧
      IsRange (trim "a.b .. 5".toList) ∧ ¬ IsStrayRange (trim "a.b .. 5".toList) ∧
      s.lexemeAt 0 = some ⟨.collection, "(a.b .. 5)".toList⟩ ∧
      (s.after 1).machine = { s.machine with phase := .loop .parameter } := by
  intro s
  obtain ⟨hp, hf, hr, hstops⟩ : s.machine.phase = .loop .collection ∧
      s.machine.tag.form = .statement ∧
      s.reader.rest = '(' :: ("a.b .. 5".toList ++ ')' :: "%\x7d".toList) ∧
      ∀ stop ∈ [['%', '}'], ['{', '{'], ['{', '%']], ¬ stop <:+: "a.b .. 5".toList := by
    decide +kernel
  have hspace : ∀ c ∈ [' '], isBlank c = true := List.forall_mem_singleton.mpr rfl
  have hrange : IsRange (trim "a.b .. 5".toList) := by
    refine ⟨"a.b ".toList, " 5".toList, rfl,
      ⟨[], ['a', '.', 'b'], [' '], rfl, nofun, hspace, Or.inr ?_⟩,
      ⟨[' '], ['5'], [], rfl, hspace, nofun, Or.inl ?_⟩⟩
    · show IsDottedPath (['a'] ++ '.' :: ['b'])
      exact .dot rfl (.name rfl)
    · have hdigits : ∀ c ∈ ['5'], c.isDigit = true := List.forall_mem_singleton.mpr rfl
      exact ⟨decimal ['5'], .unsigned (List.cons_ne_nil _ _) hdigits, by decide, by decide⟩
  obtain ⟨kind, hlexeme, -, hcollection, -, -, hmachine⟩ :=
    collection_in_parentheses s _ _ hp hf hr (by decide) hstops
  rw [hcollection.mpr (Or.inl hrange)] at hlexeme
  exact ⟨hp, hf, hrange, hrange.not_isStrayRange, hlexeme, hmachine⟩

/-- Two dots may stand inside a bound, where they are no path. -/
theorem collection_of_stray_dots :
    let s := (ofString "\x7b%for i in (a..b..c)%\x7d" Dialect.standard.lookup).after 7
    s.lexemeAt 0 = some ⟨.collection, "(a..b..c)".toList⟩ ∧ ¬ IsRange (trim "a..b..c".toList) := by
  intro s
  have hlexeme : s.lexemeAt 0 = some ⟨.collection, "(a..b..c)".toList⟩ := by decide +kernel
  refine ⟨hlexeme, fun hrange => hrange.not_isStrayRange ?_⟩
  have hall : ∀ c ∈ ['b', '.', '.', 'c'], isIdentifierChar c = true ∨ c = '.' := by
    intro c hc
    simp only [List.mem_cons, List.not_mem_nil, or_false] at hc
    rcases hc with rfl | rfl | rfl | rfl
    · exact Or.inl rfl
    · exact Or.inr rfl
    · exact Or.inr rfl
    · exact Or.inl rfl
  have hstray : IsStrayName ['b', '.', '.', 'c'] := ⟨rfl, hall, ['b'], ['.', 'c'], rfl, rfl⟩
  exact ⟨['a'], ['b', '.', '.', 'c'], ⟨rfl, rfl⟩, Or.inl (Or.inr (.name rfl)), Or.inr hstray,
    Or.inr hstray⟩

end Scanner

end TemplateScan
