import TemplateScan.Proofs.Json.Printed
import TemplateScan.Proofs.Text.Literals

/-! # Spellings — all the texts of a JSON value

    A value has many texts.  White space may stand on both sides of every item, key and value; a
    character of a string is written as itself or by any of its escapes, beyond the basic plane by
    the codes of a surrogate pair; a number is written by any numeral.  `Spells` is the grammar of
    these texts, together with what each of them stands for.  It does not speak of how they are
    read: that every one of them is read as what it stands for is the theorem.

    * **`joinUnits_eq_some_iff`** — which texts the units of a string make up.
    * **`Spells`** — the texts of a value.
    * **`outline_spelled`** — a text of a value is read as that value, to its end. -/

namespace TemplateScan.Json

open Text

-- ── units ────────────────────────────────────────────────────────────────────────

/-- The hexadecimal digit of a number below sixteen, in either case. -/
def SpellsDigit (n : Nat) (digit : Char) : Prop :=
  "0123456789abcdef".toList[n]? = some digit ∨ "0123456789ABCDEF".toList[n]? = some digit

/-- The four hexadecimal digits of a code unit. -/
structure SpellsCode (code : Nat) (a b c d : Char) : Prop where
  small : code < 0x10000
  first : SpellsDigit (code / 0x1000) a
  second : SpellsDigit (code / 0x100 % 0x10) b
  third : SpellsDigit (code / 0x10 % 0x10) c
  fourth : SpellsDigit (code % 0x10) d

/-- The letters of the short escapes, and the characters that they stand for. -/
def shortEscapes : List (Char × Char) :=
  [('"', '"'), ('\\', '\\'), ('/', '/'), ('b', '\x08'), ('f', '\x0c'), ('n', '\n'), ('r', '\r'),
    ('t', '\t')]

/-- What may stand between the quotes of a string, and the units that it is made of. -/
inductive SpellsUnits : List CodeUnit → List Char → Prop where
  | nil : SpellsUnits [] []
  | plain {c : Char} {units : List CodeUnit} {body : List Char} (quote : c ≠ '"')
      (backslash : c ≠ '\\') (control : 0x20 ≤ c.toNat) (rest : SpellsUnits units body) :
      SpellsUnits (.plain c :: units) (c :: body)
  | short {letter c : Char} {units : List CodeUnit} {body : List Char}
      (escape : (letter, c) ∈ shortEscapes) (rest : SpellsUnits units body) :
      SpellsUnits (.plain c :: units) ('\\' :: letter :: body)
  | code {code : Nat} {a b c d : Char} {units : List CodeUnit} {body : List Char}
      (digits : SpellsCode code a b c d) (rest : SpellsUnits units body) :
      SpellsUnits (.escaped code :: units) ('\\' :: 'u' :: a :: b :: c :: d :: body)

/-- A digit, in either case, has the value it spells. -/
theorem hexValue?_of_spells {n : Nat} {digit : Char} (h : SpellsDigit n digit) :
    hexValue? digit = some n := by
  have hall : ∀ n < 16, ("0123456789abcdef".toList[n]?.all fun d => hexValue? d == some n) ∧
      ("0123456789ABCDEF".toList[n]?.all fun d => hexValue? d == some n) := by decide
  have hn : n < 16 := by
    rcases h with h | h
    · exact (List.getElem?_eq_some_iff.mp h).1
    · exact (List.getElem?_eq_some_iff.mp h).1
  rcases h with h | h
  · have := (hall n hn).1
    rw [h] at this
    exact beq_iff_eq.mp this
  · have := (hall n hn).2
    rw [h] at this
    exact beq_iff_eq.mp this

/-- Four digits have the code they spell. -/
theorem SpellsCode.hexCode? {code : Nat} {a b c d : Char} (h : SpellsCode code a b c d) :
    Json.hexCode? a b c d = some code := by
  have hsmall := h.small
  rw [Json.hexCode?, hexValue?_of_spells h.first, hexValue?_of_spells h.second,
    hexValue?_of_spells h.third, hexValue?_of_spells h.fourth]
  show some (((code / 0x1000 * 16 + code / 0x100 % 0x10) * 16 + code / 0x10 % 0x10) * 16 +
    code % 0x10) = some code
  congr 1
  omega

/-- The short escapes are those that the reader knows. -/
theorem mem_shortEscapes_iff {letter c : Char} :
    (letter, c) ∈ shortEscapes ↔ shortEscape? letter = some c := by
  have hall : ∀ e ∈ shortEscapes, shortEscape? e.1 = some e.2 := by decide
  refine ⟨fun h => hall _ h, fun h => ?_⟩
  unfold shortEscape? at h
  split at h
  all_goals first | (obtain rfl := Option.some.inj h; decide) | cases h

/-- The units are read up to the closing quote. -/
theorem SpellsUnits.readUnits {units : List CodeUnit} {body : List Char}
    (h : SpellsUnits units body) (rest : List Char) :
    Json.readUnits (body ++ '"' :: rest) = (units, .closed rest) := by
  induction h with
  | nil => simp [Json.readUnits]
  | plain quote backslash control _ ih =>
      rw [List.cons_append, readUnits_plain quote backslash (Nat.not_lt.mpr control), ih]
  | short escape _ ih =>
      rw [List.cons_append, List.cons_append, readUnits_short (mem_shortEscapes_iff.mp escape), ih]
  | code digits _ ih =>
      show Json.readUnits ('\\' :: 'u' :: _ :: _ :: _ :: _ :: (_ ++ _)) = _
      rw [readUnits_code digits.hexCode?, ih]

-- ── texts ────────────────────────────────────────────────────────────────────────

/-- The units are a text in UTF-16; a character that is not escaped is left as it is. -/
inductive Encodes : List CodeUnit → List Char → Prop where
  | nil : Encodes [] []
  | plain {c : Char} {units : List CodeUnit} {text : List Char} (rest : Encodes units text) :
      Encodes (.plain c :: units) (c :: text)
  | code {c : Char} {units : List CodeUnit} {text : List Char} (basic : c.toNat < 0x10000)
      (rest : Encodes units text) : Encodes (.escaped c.toNat :: units) (c :: text)
  | pair {c : Char} {units : List CodeUnit} {text : List Char} (beyond : 0x10000 ≤ c.toNat)
      (rest : Encodes units text) :
      Encodes (.escaped (0xD800 + (c.toNat - 0x10000) / 0x400) ::
        .escaped (0xDC00 + (c.toNat - 0x10000) % 0x400) :: units) (c :: text)

/-- A number that is no surrogate is that of a character. -/
theorem toNat_ofNat {n : Nat} (h : n < 0xD800 ∨ 0xDFFF < n ∧ n < 0x110000) :
    (Char.ofNat n).toNat = n := by
  have hvalid : n.isValidChar := h
  rw [Char.ofNat, dif_pos hvalid]
  rfl

/-- A character beyond the basic plane is what its two surrogates make up. -/
theorem joinPair_surrogates {c : Char} (h : 0x10000 ≤ c.toNat) :
    joinPair (0xD800 + (c.toNat - 0x10000) / 0x400) (0xDC00 + (c.toNat - 0x10000) % 0x400) = c := by
  have hsum : 0x10000 + (0xD800 + (c.toNat - 0x10000) / 0x400 - 0xD800) * 0x400 +
      (0xDC00 + (c.toNat - 0x10000) % 0x400 - 0xDC00) = c.toNat := by omega
  rw [joinPair, hsum, Char.ofNat_toNat]

/-- The surrogates of a character are those that it is joined from. -/
theorem surrogates_joinPair {code next : Nat} (hcode : isLeading code = true)
    (hnext : isTrailing next = true) : 0x10000 ≤ (joinPair code next).toNat ∧
      code = 0xD800 + ((joinPair code next).toNat - 0x10000) / 0x400 ∧
      next = 0xDC00 + ((joinPair code next).toNat - 0x10000) % 0x400 := by
  rw [isLeading_iff] at hcode
  rw [isTrailing_iff] at hnext
  rw [joinPair, toNat_ofNat (by omega)]
  omega

/-- Units that encode a text are joined to that text. -/
theorem Encodes.joinUnits {units : List CodeUnit} {text : List Char} (h : Encodes units text) :
    Json.joinUnits units = some text := by
  induction h with
  | nil => rw [Json.joinUnits]
  | plain _ ih => rw [Json.joinUnits, ih, Option.map_some]
  | code _ _ ih => rw [CodeUnit.StandsFor.escaped, ih, Option.map_some]
  | @pair c units text beyond _ ih =>
      have hc := toNat_valid c
      have hleading : isLeading (0xD800 + (c.toNat - 0x10000) / 0x400) = true :=
        isLeading_iff.mpr (by omega)
      have htrailing : isTrailing (0xDC00 + (c.toNat - 0x10000) % 0x400) = true :=
        isTrailing_iff.mpr (by omega)
      rw [Json.joinUnits, if_pos hleading, if_pos htrailing, ih, joinPair_surrogates beyond,
        Option.map_some]

/-- What is joined is the text that the units encode, -/
theorem encodes_of_joinUnits {units : List CodeUnit} {text : List Char}
    (small : ∀ code, .escaped code ∈ units → code < 0x10000)
    (h : joinUnits units = some text) : Encodes units text := by
  have hsingle : ∀ {code : Nat}, code < 0x10000 → isLeading code = false →
      isTrailing code = false → ∀ {units : List CodeUnit} {text : List Char},
        Encodes units text → Encodes (.escaped code :: units) (Char.ofNat code :: text) := by
    intro code hsmall hleading htrailing units text hrest
    rw [← Bool.not_eq_true, isLeading_iff] at hleading
    rw [← Bool.not_eq_true, isTrailing_iff] at htrailing
    have hcode : (Char.ofNat code).toNat = code := toNat_ofNat (by omega)
    rw [← hcode] at hsmall
    have hcons := Encodes.code hsmall hrest
    rwa [hcode] at hcons
  fun_induction joinUnits units generalizing text with
  | case1 =>
      obtain rfl := Option.some.inj h
      exact .nil
  | case2 c units ih =>
      obtain ⟨rest, hrest, rfl⟩ := Option.map_eq_some_iff.mp h
      exact .plain (ih (fun code hmem => small code (List.mem_cons_of_mem _ hmem)) hrest)
  | case3 code next units hleading htrailing ih =>
      obtain ⟨rest, hrest, rfl⟩ := Option.map_eq_some_iff.mp h
      obtain ⟨hbeyond, hcode, hnext⟩ := surrogates_joinPair hleading htrailing
      have hpair := Encodes.pair hbeyond (ih (fun code hmem => small code
        (List.mem_cons_of_mem _ (List.mem_cons_of_mem _ hmem))) hrest)
      rwa [← hcode, ← hnext] at hpair
  | case4 => cases h
  | case5 => cases h
  | case6 code next units hleading htrailing ih =>
      obtain ⟨rest, hrest, rfl⟩ := Option.map_eq_some_iff.mp h
      exact hsingle (small code List.mem_cons_self) (Bool.not_eq_true _ ▸ hleading)
        (Bool.not_eq_true _ ▸ htrailing)
        (ih (fun code hmem => small code (List.mem_cons_of_mem _ hmem)) hrest)
  | case7 => cases h
  | case8 code units _ hlone ih =>
      obtain ⟨rest, hrest, rfl⟩ := Option.map_eq_some_iff.mp h
      rw [Bool.or_eq_true, not_or, Bool.not_eq_true, Bool.not_eq_true] at hlone
      exact hsingle (small code List.mem_cons_self) hlone.1 hlone.2
        (ih (fun code hmem => small code (List.mem_cons_of_mem _ hmem)) hrest)

/-- **The units of a string are joined into the text that they encode,** and into none if they
    encode none. -/
theorem joinUnits_eq_some_iff {units : List CodeUnit} {text : List Char}
    (small : ∀ code, .escaped code ∈ units → code < 0x10000) :
    joinUnits units = some text ↔ Encodes units text :=
  ⟨encodes_of_joinUnits small, Encodes.joinUnits⟩

-- ── strings ──────────────────────────────────────────────────────────────────────

/-- What stands between the quotes of a string of the given text; without a text when a surrogate in
    it has no partner. -/
inductive SpellsString : Option String → List Char → Prop where
  | text {units : List CodeUnit} {text : String} {body : List Char} (h : SpellsUnits units body)
      (encodes : Encodes units text.toList) : SpellsString (some text) body
  | lone {units : List CodeUnit} {body : List Char} (h : SpellsUnits units body)
      (encodes : ∀ text, ¬ Encodes units text) : SpellsString none body

/-- Four digits spell no code beyond sixteen bits. -/
theorem SpellsUnits.small {units : List CodeUnit} {body : List Char} (h : SpellsUnits units body) :
    ∀ code, .escaped code ∈ units → code < 0x10000 := by
  induction h with
  | nil => exact fun _ hmem => absurd hmem List.not_mem_nil
  | plain _ _ _ _ ih => simpa using ih
  | short _ _ ih => simpa using ih
  | code digits _ ih =>
      intro code hmem
      rcases List.mem_cons.mp hmem with heq | hmem
      · cases heq
        exact digits.small
      · exact ih code hmem

/-- A string is one lexeme, up to its closing quote. -/
theorem SpellsString.lexemes {text : Option String} {body : List Char} (h : SpellsString text body)
    (rest : List Char) :
    Json.lexemes ('"' :: (body ++ '"' :: rest)) = .string text :: Json.lexemes rest := by
  have hstring : readString (body ++ '"' :: rest) = (.string text, rest) := by
    cases h with
    | @text units text body hunits hencodes =>
        rw [readString, hunits.readUnits]
        show (Lexeme.string ((joinUnits units).map String.ofList), rest) = _
        rw [hencodes.joinUnits, Option.map_some, String.ofList_toList]
    | @lone units body hunits hencodes =>
        have hnone : joinUnits units = none :=
          Option.eq_none_iff_forall_not_mem.mpr fun text htext =>
            hencodes text ((joinUnits_eq_some_iff hunits.small).mp htext)
        rw [readString, hunits.readUnits]
        show (Lexeme.string ((joinUnits units).map String.ofList), rest) = _
        rw [hnone, Option.map_none]
  rw [lexemes_cons (by decide)]
  show (readString _).1 :: Json.lexemes (readString _).2 = _
  rw [hstring]

-- ── numbers ──────────────────────────────────────────────────────────────────────

/-- Decimal digits, at least one. -/
structure IsDigits (digits : List Char) : Prop where
  nonempty : digits ≠ []
  digit : ∀ c ∈ digits, c.isDigit = true

/-- The digits after the point, with it. -/
inductive SpellsFraction : List Char → List Char → Prop where
  | absent : SpellsFraction [] []
  | given {digits : List Char} (h : IsDigits digits) : SpellsFraction digits ('.' :: digits)

/-- The sign of an exponent. -/
inductive SpellsSign : Bool → List Char → Prop where
  | absent : SpellsSign false []
  | plus : SpellsSign false ['+']
  | minus : SpellsSign true ['-']

/-- The sign and the digits of an exponent, with the letter before them. -/
inductive SpellsExponent : Bool → List Char → List Char → Prop where
  | absent : SpellsExponent false [] []
  | given {negative : Bool} {letter : Char} {sign digits : List Char}
      (hletter : letter = 'e' ∨ letter = 'E') (hsign : SpellsSign negative sign)
      (h : IsDigits digits) : SpellsExponent negative digits (letter :: (sign ++ digits))

/-- The texts of a numeral, with a minus or without; no zero stands before other digits. -/
inductive SpellsNumeral (n : Numeral) : List Char → Prop where
  | mk {minus fraction exponent : List Char} (hminus : minus = [] ∨ minus = ['-'])
      (hwhole : IsDigits n.whole) (hzero : n.whole.head? = some '0' → n.whole = ['0'])
      (hfraction : SpellsFraction n.fraction fraction)
      (hexponent : SpellsExponent n.exponentIsNegative n.exponent exponent) :
      SpellsNumeral n (minus ++ (n.whole ++ (fraction ++ exponent)))

/-- Nothing that could carry a numeral on comes next. -/
def Stops (tail : List Char) : Prop :=
  ∀ c, tail.head? = some c → c.isDigit = false ∧ c ≠ '.' ∧ c ≠ 'e' ∧ c ≠ 'E'

/-- Digits are read up to the first character that is none. -/
theorem readDigits_append {digits tail : List Char} (h : IsDigits digits)
    (htail : ∀ c, tail.head? = some c → c.isDigit = false) :
    readDigits (digits ++ tail) = .ok (digits, tail) := by
  obtain ⟨htake, hdrop⟩ := takeWhile_isDigit_append h.digit htail
  have hempty : ¬ digits.isEmpty = true := fun he => h.nonempty (List.isEmpty_iff.mp he)
  simp only [readDigits, htake, hdrop]
  rw [if_neg hempty]

/-- A whole part is read to its end; a zero stands alone. -/
theorem readWhole_append {digits tail : List Char} (h : IsDigits digits)
    (hzero : digits.head? = some '0' → digits = ['0'])
    (htail : ∀ c, tail.head? = some c → c.isDigit = false) :
    readWhole (digits ++ tail) = .ok (digits, tail) := by
  by_cases hd : digits = ['0']
  · subst hd
    have hnot : ¬ (tail.head?.any Char.isDigit) = true := by
      cases tail with
      | nil => decide
      | cons c tail => simp [htail c rfl]
    show (if tail.head?.any Char.isDigit then _ else _) = _
    rw [if_neg hnot]
    rfl
  · rw [readWhole]
    · exact readDigits_append h htail
    · intro rest heq
      cases digits with
      | nil => exact h.nonempty rfl
      | cons c digits =>
          obtain ⟨rfl, -⟩ := List.cons.inj heq
          exact hd (hzero rfl)

/-- A fraction is read to its end, or is left out. -/
theorem readFraction_append {digits fraction tail : List Char} (h : SpellsFraction digits fraction)
    (htail : ∀ c, tail.head? = some c → c.isDigit = false ∧ c ≠ '.') :
    readFraction (fraction ++ tail) = .ok (digits, tail) := by
  cases h with
  | absent =>
      rw [List.nil_append, readFraction]
      rintro rest rfl
      exact (htail '.' rfl).2 rfl
  | given h => exact readDigits_append h fun c hc => (htail c hc).1

/-- An exponent is read to its end, or is left out. -/
theorem readExponent_append {negative : Bool} {digits exponent tail : List Char}
    (h : SpellsExponent negative digits exponent) (htail : Stops tail) :
    readExponent (exponent ++ tail) = .ok (negative, digits, tail) := by
  cases h with
  | absent =>
      cases tail with
      | nil => rfl
      | cons c tail =>
          obtain ⟨-, -, he, hE⟩ := htail c rfl
          exact if_neg (not_or.mpr ⟨he, hE⟩)
  | @given negative letter sign digits hletter hsign h =>
      have hread : readDigits (digits ++ tail) = .ok (digits, tail) :=
        readDigits_append h fun c hc => (htail c hc).1
      have hmap : ∀ b : Bool, (readDigits (digits ++ tail)).map (b, ·) = .ok (b, digits, tail) := by
        intro b
        rw [hread]
        rfl
      rw [List.cons_append, List.append_assoc]
      refine (if_pos hletter).trans ?_
      cases hsign with
      | plus => exact hmap false
      | minus => exact hmap true
      | absent =>
          -- what comes behind the letter is no sign but a digit
          have hdigit : ∀ {c rest}, digits ++ tail = c :: rest → c.isDigit = true := by
            intro c rest heq
            obtain ⟨d, ds, rfl⟩ := List.exists_cons_of_ne_nil h.nonempty
            obtain ⟨rfl, -⟩ := List.cons.inj heq
            exact h.digit _ List.mem_cons_self
          rw [List.nil_append]
          split
          · next heq => exact absurd (hdigit heq) (by decide)
          · next heq => exact absurd (hdigit heq) (by decide)
          · exact hmap false

/-- An exponent begins with its letter. -/
theorem SpellsExponent.head? {negative : Bool} {digits exponent : List Char}
    (h : SpellsExponent negative digits exponent) {c : Char} (hc : exponent.head? = some c) :
    c = 'e' ∨ c = 'E' := by
  cases h with
  | absent => cases hc
  | given hletter _ _ =>
      obtain rfl := Option.some.inj hc
      exact hletter

/-- A fraction begins with its point. -/
theorem SpellsFraction.head? {digits fraction : List Char} (h : SpellsFraction digits fraction)
    {c : Char} (hc : fraction.head? = some c) : c = '.' := by
  cases h with
  | absent => cases hc
  | given _ => exact (Option.some.inj hc).symm

/-- A numeral is read up to what stops it. -/
theorem SpellsNumeral.readNumeral {n : Numeral} {text tail : List Char} (h : SpellsNumeral n text)
    (htail : Stops tail) : Json.readNumeral (text ++ tail) = .ok (n, tail) := by
  obtain @⟨minus, fraction, exponent, hminus, hwhole, hzero, hfraction, hexponent⟩ := h
  have hexponent? : ∀ c, (exponent ++ tail).head? = some c → c.isDigit = false ∧ c ≠ '.' := by
    intro c hc
    rw [List.head?_append, Option.or_eq_some_iff] at hc
    rcases hc with hc | ⟨-, hc⟩
    · rcases hexponent.head? hc with rfl | rfl <;> decide
    · exact ⟨(htail c hc).1, (htail c hc).2.1⟩
  have hfraction? : ∀ c, (fraction ++ (exponent ++ tail)).head? = some c → c.isDigit = false := by
    intro c hc
    rw [List.head?_append, Option.or_eq_some_iff] at hc
    rcases hc with hc | ⟨-, hc⟩
    · rw [hfraction.head? hc]
      decide
    · exact (hexponent? c hc).1
  have hsign : dropSign ((minus ++ (n.whole ++ (fraction ++ exponent))) ++ tail) =
      n.whole ++ (fraction ++ (exponent ++ tail)) := by
    rcases hminus with rfl | rfl
    · obtain ⟨d, ds, hds⟩ := List.exists_cons_of_ne_nil hwhole.nonempty
      have hd : d ≠ '-' := by
        rintro rfl
        exact absurd (hwhole.digit '-' (hds ▸ List.mem_cons_self)) (by decide)
      rw [hds]
      simp only [List.nil_append, List.cons_append, List.append_assoc]
      rw [dropSign]
      exact fun _ heq => hd (List.cons.inj heq).1
    · simp [dropSign]
  rw [Json.readNumeral, hsign, readWhole_append hwhole hzero hfraction?]
  show (readFraction _ >>= _) = _
  rw [readFraction_append hfraction hexponent?]
  show (readExponent _ >>= _) = _
  rw [readExponent_append hexponent htail]
  rfl

/-- A numeral is one lexeme. -/
theorem SpellsNumeral.lexemes {n : Numeral} {text tail : List Char} (h : SpellsNumeral n text)
    (htail : Stops tail) :
    Json.lexemes (text ++ tail) = .number n.inRange :: Json.lexemes tail := by
  have hread := h.readNumeral htail
  obtain ⟨c, rest, heq, hc⟩ : ∃ c rest, text ++ tail = c :: rest ∧
      (c = '-' ∨ c.isDigit = true) := by
    obtain @⟨minus, fraction, exponent, hminus, hwhole, _, _, _⟩ := h
    rcases hminus with rfl | rfl
    · obtain ⟨d, ds, hds⟩ := List.exists_cons_of_ne_nil hwhole.nonempty
      exact ⟨d, _, by rw [hds]; rfl, Or.inr (hwhole.digit d (hds ▸ List.mem_cons_self))⟩
    · exact ⟨'-', _, rfl, Or.inl rfl⟩
  have hspace : isSpace c = false := by
    rw [← Bool.not_eq_true]
    intro hs
    simp only [isSpace, Bool.or_eq_true, beq_iff_eq] at hs
    rcases hs with ((rfl | rfl) | rfl) | rfl <;> exact absurd hc (by decide)
  have hlexeme : readLexeme c rest = readNumber (c :: rest) := by
    unfold readLexeme
    split <;> first | exact absurd hc (by decide) | exact if_pos hc
  rw [heq, lexemes_cons hspace, hlexeme, ← heq]
  simp only [readNumber, hread]

-- ── white space ──────────────────────────────────────────────────────────────────

/-- White space, as much as one likes. -/
def Spacing : Type :=
  { text : List Char // ∀ c ∈ text, isSpace c = true }

/-- A text between white space. -/
structure Padded where
  before : Spacing
  text : List Char
  after : Spacing

/-- The text with the white space around it. -/
def Padded.chars (p : Padded) : List Char :=
  p.before.val ++ (p.text ++ p.after.val)

/-- White space between lexemes is not seen. -/
theorem lexemes_spacing (space : Spacing) (rest : List Char) :
    lexemes (space.val ++ rest) = lexemes rest := by
  obtain ⟨text, h⟩ := space
  induction text with
  | nil => rfl
  | cons c text ih =>
      obtain ⟨hc, htext⟩ := List.forall_mem_cons.mp h
      exact (lexemes_space hc _).trans (ih htext)

/-- White space stops a numeral, and so does what stops it without the white space. -/
theorem stops_spacing (space : Spacing) {tail : List Char} (h : Stops tail) :
    Stops (space.val ++ tail) := by
  obtain ⟨text, hspace⟩ := space
  cases text with
  | nil => exact h
  | cons c text =>
      intro d hd
      obtain rfl : c = d := Option.some.inj hd
      have hc := hspace c List.mem_cons_self
      simp only [isSpace, Bool.or_eq_true, beq_iff_eq] at hc
      rcases hc with ((rfl | rfl) | rfl) | rfl <;> decide

-- ── values ───────────────────────────────────────────────────────────────────────

/-- A member of an object as it is written. -/
structure WrittenMember where
  before : Spacing
  key : Key
  /-- What stands between the quotes of the key. -/
  keyBody : List Char
  spellsKey : SpellsString key keyBody
  beforeColon : Spacing
  value : Outline
  valueText : Padded

/-- A member with the quotes of its key and the colon behind it. -/
def WrittenMember.chars (m : WrittenMember) : List Char :=
  m.before.val ++
    '"' :: (m.keyBody ++ '"' :: (m.beforeColon.val ++ ':' :: m.valueText.chars))

/-- The texts of a JSON value. -/
inductive Spells : Outline → List Char → Prop where
  | null : Spells .null "null".toList
  | bool (value : Bool) : Spells (.bool value) (if value then "true" else "false").toList
  | number {n : Numeral} {text : List Char} (h : SpellsNumeral n text) :
      Spells (.number n.inRange) text
  | string {text : Option String} {body : List Char} (h : SpellsString text body) :
      Spells (.string text) ('"' :: (body ++ ['"']))
  | array {items : List (Outline × Padded)} (space : Spacing)
      (each : ∀ item ∈ items, Spells item.1 item.2.text) :
      Spells (.array (items.map (·.1)) .closed)
        ('[' :: (separated (items.map (·.2.chars)) ++ (space.val ++ [']'])))
  | object {members : List WrittenMember} (space : Spacing)
      (each : ∀ m ∈ members, Spells m.value m.valueText.text) :
      Spells (.object (members.map fun m => (m.key, m.value)) .closed)
        ('{' :: (separated (members.map (·.chars)) ++ (space.val ++ ['}'])))

-- ── reading ──────────────────────────────────────────────────────────────────────

/-- Wherever a value may stand the text is read as that value, and what stands behind it is left. -/
def ReadsAs (value : Outline) (text : List Char) : Prop :=
  ∀ (place : Place) (frames : List Frame), place.AwaitsValue frames → ∀ tail, Stops tail →
    place.outline (lexemes (text ++ tail)) = (Place.after value frames).outline (lexemes tail)

/-- A text that is one lexeme is read as the value of that lexeme. -/
theorem ReadsAs.of_lexeme {value : Outline} {text : List Char} {lexeme : Lexeme}
    (htext : ∀ tail, Stops tail → lexemes (text ++ tail) = lexeme :: lexemes tail)
    (hafter : ∀ frames, Place.afterValue? frames lexeme = some (.after value frames)) :
    ReadsAs value text := by
  intro place frames hplace tail htail
  have hne : lexeme ≠ .closeArray := by
    rintro rfl
    cases hafter []
  rw [htext tail htail, Place.outline_cons ((hplace lexeme hne).trans (hafter frames))]

/-- White space around a value is not seen. -/
theorem ReadsAs.padded {value : Outline} {p : Padded} (h : ReadsAs value p.text) {place : Place}
    {frames : List Frame} (hplace : place.AwaitsValue frames) {tail : List Char}
    (htail : Stops tail) :
    place.outline (lexemes (p.chars ++ tail)) =
      (Place.after value frames).outline (lexemes tail) := by
  rw [Padded.chars, List.append_assoc, List.append_assoc, lexemes_spacing,
    h place frames hplace _ (stops_spacing p.after htail), lexemes_spacing]

/-- A comma or a closing bracket ends the value in front of it. -/
theorem stops_of_mark {c : Char} (h : c = ',' ∨ c = ']' ∨ c = '}') (rest : List Char) :
    Stops (c :: rest) := by
  intro d hd
  obtain rfl : c = d := Option.some.inj hd
  rcases h with rfl | rfl | rfl <;> decide

/-- The items of an array are read one after the other, up to the last. -/
theorem read_spelled_items {item : Outline × Padded} {items : List (Outline × Padded)}
    (each : ∀ i ∈ item :: items, ReadsAs i.1 i.2.text) {place : Place} {before : List Outline}
    {frames : List Frame} (hplace : place.AwaitsValue (.array before :: frames))
    {tail : List Char} (htail : Stops tail) :
    place.outline (lexemes (separated ((item :: items).map (·.2.chars)) ++ tail)) =
      (Place.afterItem (((item :: items).map (·.1)).reverse ++ before) frames).outline
        (lexemes tail) := by
  induction items generalizing item place before with
  | nil => exact (each item List.mem_cons_self).padded hplace htail
  | cons next items ih =>
      have htext : separated ((item :: next :: items).map (·.2.chars)) ++ tail =
          item.2.chars ++ ',' :: (separated ((next :: items).map (·.2.chars)) ++ tail) := by
        simp [separated]
      rw [htext, (each item List.mem_cons_self).padded hplace (stops_of_mark (Or.inl rfl) _),
        lexemes_comma]
      show (Place.atValue (.array (item.1 :: before) :: frames)).outline (lexemes _) = _
      rw [ih (fun i hi => each i (List.mem_cons_of_mem _ hi)) (Place.awaitsValue_atValue _)]
      simp

/-- A member of an object is read as its key and its value. -/
theorem read_spelled_member {m : WrittenMember} (hvalue : ReadsAs m.value m.valueText.text)
    {place : Place} {before : List (Key × Outline)} {frames : List Frame}
    (hplace : place.AwaitsKey before frames) {tail : List Char} (htail : Stops tail) :
    place.outline (lexemes (m.chars ++ tail)) =
      (Place.afterMember ((m.key, m.value) :: before) frames).outline (lexemes tail) := by
  have hchars : m.chars ++ tail = m.before.val ++ ('"' :: (m.keyBody ++ '"' ::
      (m.beforeColon.val ++ ':' :: (m.valueText.chars ++ tail)))) := by
    simp [WrittenMember.chars]
  rw [hchars, lexemes_spacing, m.spellsKey.lexemes, Place.outline_cons (hplace _),
    lexemes_spacing, lexemes_colon]
  show (Place.atValue (.object before m.key :: frames)).outline (lexemes _) = _
  rw [hvalue.padded (Place.awaitsValue_atValue _) htail]
  rfl

/-- The members of an object are read one after the other, up to the last. -/
theorem read_spelled_members {m : WrittenMember} {members : List WrittenMember}
    (each : ∀ n ∈ m :: members, ReadsAs n.value n.valueText.text) {place : Place}
    {before : List (Key × Outline)} {frames : List Frame} (hplace : place.AwaitsKey before frames)
    {tail : List Char} (htail : Stops tail) :
    place.outline (lexemes (separated ((m :: members).map (·.chars)) ++ tail)) =
      (Place.afterMember (((m :: members).map fun n => (n.key, n.value)).reverse ++ before)
        frames).outline (lexemes tail) := by
  induction members generalizing m place before with
  | nil => exact read_spelled_member (each m List.mem_cons_self) hplace htail
  | cons next members ih =>
      have htext : separated ((m :: next :: members).map (·.chars)) ++ tail =
          m.chars ++ ',' :: (separated ((next :: members).map (·.chars)) ++ tail) := by
        simp [separated]
      rw [htext, read_spelled_member (each m List.mem_cons_self) hplace
        (stops_of_mark (Or.inl rfl) _), lexemes_comma]
      show (Place.atKey ((m.key, m.value) :: before) frames).outline (lexemes _) = _
      rw [ih (fun n hn => each n (List.mem_cons_of_mem _ hn)) fun _ => rfl]
      simp

/-- **Every text of a value is read as that value,** wherever a value may stand. -/
theorem Spells.readsAs {value : Outline} {text : List Char} (h : Spells value text) :
    ReadsAs value text := by
  induction h with
  | null => exact .of_lexeme (fun tail _ => lexemes_cons rfl _) fun _ => rfl
  | bool value =>
      cases value with
      | true => exact .of_lexeme (fun tail _ => lexemes_cons rfl _) fun _ => rfl
      | false => exact .of_lexeme (fun tail _ => lexemes_cons rfl _) fun _ => rfl
  | number h => exact .of_lexeme (fun tail htail => h.lexemes htail) fun _ => rfl
  | @string text body h =>
      have htext : ∀ tail, Stops tail →
          lexemes ('"' :: (body ++ ['"']) ++ tail) = .string text :: lexemes tail := by
        intro tail _
        rw [List.cons_append, List.append_assoc]
        exact h.lexemes tail
      exact .of_lexeme htext fun _ => rfl
  | @array items space _ ih =>
      intro place frames hplace tail htail
      have htext : '[' :: (separated (items.map (·.2.chars)) ++ (space.val ++ [']'])) ++ tail =
          '[' :: (separated (items.map (·.2.chars)) ++ (space.val ++ ']' :: tail)) := by simp
      have hclose : Stops (space.val ++ ']' :: tail) :=
        stops_spacing space (stops_of_mark (Or.inr (Or.inl rfl)) tail)
      rw [htext, lexemes_mark (fun _ => rfl) rfl, Place.outline_cons (hplace _ (by simp))]
      show (Place.atFirstItem frames).outline (lexemes _) = _
      cases items with
      | nil =>
          show (Place.atFirstItem frames).outline (lexemes (space.val ++ ']' :: tail)) = _
          rw [lexemes_spacing, lexemes_mark (fun _ => rfl) rfl]
          exact Place.outline_cons rfl _
      | cons item items =>
          rw [read_spelled_items ih (Place.awaitsValue_atFirstItem frames) hclose, lexemes_spacing,
            lexemes_mark (fun _ => rfl) rfl, Place.outline_cons rfl, List.append_nil,
            List.reverse_reverse]
  | @object members space _ ih =>
      intro place frames hplace tail htail
      have htext : '{' :: (separated (members.map (·.chars)) ++ (space.val ++ ['}'])) ++ tail =
          '{' :: (separated (members.map (·.chars)) ++ (space.val ++ '}' :: tail)) := by simp
      have hclose : Stops (space.val ++ '}' :: tail) :=
        stops_spacing space (stops_of_mark (Or.inr (Or.inr rfl)) tail)
      rw [htext, lexemes_mark (fun _ => rfl) rfl, Place.outline_cons (hplace _ (by simp))]
      show (Place.atFirstKey frames).outline (lexemes _) = _
      cases members with
      | nil =>
          show (Place.atFirstKey frames).outline (lexemes (space.val ++ '}' :: tail)) = _
          rw [lexemes_spacing, lexemes_mark (fun _ => rfl) rfl]
          exact Place.outline_cons rfl _
      | cons m members =>
          have hfirst : (Place.atFirstKey frames).AwaitsKey [] frames := fun _ => rfl
          rw [read_spelled_members ih hfirst hclose, lexemes_spacing,
            lexemes_mark (fun _ => rfl) rfl, Place.outline_cons rfl, List.append_nil,
            List.reverse_reverse]

/-- The outline of a text of a value is that value, and no lexeme is left. -/
theorem outline_spelled {value : Outline} {p : Padded} (h : Spells value p.text) :
    outline p.chars = (value, []) := by
  have hend : Stops [] := fun c hc => absurd hc (Option.some_ne_none c).symm
  have hread := h.readsAs.padded (Place.awaitsValue_atValue []) hend
  rw [List.append_nil] at hread
  rw [outline, hread, lexemes]
  rfl

-- ── printing ─────────────────────────────────────────────────────────────────────

/-- No white space. -/
def Spacing.none : Spacing :=
  ⟨[], List.forall_mem_nil _⟩

/-- One space. -/
def Spacing.single : Spacing :=
  ⟨[' '], List.forall_mem_singleton.mpr rfl⟩

/-- The white space with which a line begins. -/
def Spacing.newLine (depth : Nat) : Spacing :=
  ⟨Json.newLine depth, by
    intro c hc
    rcases List.mem_cons.mp hc with rfl | hc
    · rfl
    · rw [List.eq_of_mem_replicate hc]
      rfl⟩

/-- A printed digit spells its value. -/
theorem spellsDigit_hexDigit {n : Nat} (h : n < 16) : SpellsDigit n (hexDigit n) := by
  have hall : ∀ n < 16, "0123456789abcdef".toList[n]? = some (hexDigit n) := by decide
  exact Or.inl (hall n h)

/-- A text as it is printed is a string of that text. -/
theorem spellsString_print (text : String) :
    SpellsString (some text) (text.toList.flatMap escape) := by
  obtain ⟨units, hunits, hencodes⟩ : ∃ units, SpellsUnits units (text.toList.flatMap escape) ∧
      Encodes units text.toList := by
    induction text.toList with
    | nil => exact ⟨[], .nil, .nil⟩
    | cons c text ih =>
        obtain ⟨units, hunits, hencodes⟩ := ih
        rw [List.flatMap_cons]
        obtain ⟨letter, hletter, hescape⟩ | ⟨hcontrol, hescape⟩ |
          ⟨hquote, hslash, hcontrol, hescape⟩ := escape_cases c
        · rw [hescape]
          exact ⟨_, .short (mem_shortEscapes_iff.mpr hletter) hunits, .plain hencodes⟩
        · have hdigits : SpellsCode c.toNat '0' '0' (hexDigit (c.toNat / 16))
              (hexDigit (c.toNat % 16)) := by
            refine ⟨by omega, ?_, ?_, ?_, spellsDigit_hexDigit (by omega)⟩
            · rw [show c.toNat / 0x1000 = 0 by omega]
              exact spellsDigit_hexDigit (by omega)
            · rw [show c.toNat / 0x100 % 0x10 = 0 by omega]
              exact spellsDigit_hexDigit (by omega)
            · rw [show c.toNat / 0x10 % 0x10 = c.toNat / 16 by omega]
              exact spellsDigit_hexDigit (by omega)
          rw [hescape]
          exact ⟨_, .code hdigits hunits, .code (by omega) hencodes⟩
        · rw [hescape]
          exact ⟨_, .plain hquote hslash (Nat.not_lt.mp hcontrol) hunits, .plain hencodes⟩
  exact .text hunits hencodes

/-- A member with its key as it is printed. -/
def WrittenMember.printed (before : Spacing) (key : String) (value : Outline) (text : Padded) :
    WrittenMember where
  before := before
  key := some key
  keyBody := key.toList.flatMap escape
  spellsKey := spellsString_print key
  beforeColon := .none
  value := value
  valueText := text

/-- A value as it is printed is one of its texts. -/
theorem spells_print (value : Value) (depth : Nat) :
    Spells value.outline (printAt depth value) := by
  induction value generalizing depth with
  | null => exact .null
  | bool value => cases value with
    | true => exact .bool true
    | false => exact .bool false
  | string text => exact .string (spellsString_print text)
  | array items ih =>
      cases items with
      | nil => exact @Spells.array [] .none (List.forall_mem_nil _)
      | cons item items =>
          have h := @Spells.array ((item :: items).map fun v =>
            (v.outline, ⟨.newLine (depth + 1), printAt (depth + 1) v, .none⟩)) (.newLine depth)
            (List.forall_mem_map.mpr fun v hv => ih v hv (depth + 1))
          rw [List.map_map, List.map_map] at h
          rw [Value.outline, Value.itemOutlines_eq, printAt, printItems_eq, enclosed]
          simpa [Function.comp_def, Padded.chars, Spacing.none, Spacing.newLine] using h
  | object members ih =>
      cases members with
      | nil => exact @Spells.object [] .none (List.forall_mem_nil _)
      | cons member members =>
          have h := @Spells.object ((member :: members).map fun m =>
            .printed (.newLine (depth + 1)) m.1 m.2.outline
              ⟨.single, printAt (depth + 1) m.2, .none⟩) (.newLine depth)
            (List.forall_mem_map.mpr fun m hm => ih m hm (depth + 1))
          rw [List.map_map, List.map_map] at h
          rw [Value.outline, Value.memberOutlines_eq, printAt, printMembers_eq, enclosed]
          simpa [Function.comp_def, WrittenMember.chars, WrittenMember.printed, Padded.chars,
            Spacing.none, Spacing.single, Spacing.newLine, quote] using h

end TemplateScan.Json
