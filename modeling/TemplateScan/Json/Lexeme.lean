import TemplateScan.Json.Numeral
import TemplateScan.Json.Quotation

/-! # Lexemes — the words of a JSON text

    A text is read as a list of lexemes (`lexemes`): brackets, punctuation and scalars, without the
    white space between them.  Where the text is no JSON the last lexeme is `broken`, and says what
    has been begun there; nothing is read after it. -/

namespace TemplateScan.Json

-- ── lexemes ──────────────────────────────────────────────────────────────────────

/-- The beginning of a lexeme that does not come to its end. -/
inductive Broken where
  /-- A string; `lone` when it holds a surrogate that cannot have a partner. -/
  | string (lone : Bool) (defect : Defect)
  | number (atEnd : Bool)
  /-- One of the words for truth values. -/
  | bool (defect : Defect)
  /-- The word `null`. -/
  | null (defect : Defect)
  /-- A character with which no lexeme begins. -/
  | stray
deriving DecidableEq, Repr

/-- A word of a JSON text. -/
inductive Lexeme where
  | openArray
  | closeArray
  | openObject
  | closeObject
  | comma
  | colon
  /-- A string; without a text when a surrogate in it has no partner. -/
  | string (text : Option String)
  /-- A number, within the range of a double or beyond it. -/
  | number (inRange : Bool)
  | bool (value : Bool)
  | null
  | broken (what : Broken)
deriving DecidableEq, Repr

-- ── reading one lexeme ───────────────────────────────────────────────────────────

/-- White space between lexemes. -/
def isSpace (c : Char) : Bool :=
  c == ' ' || c == '\n' || c == '\t' || c == '\r'

/-- The text after a given word, which it must begin with. -/
def matchWord : (word text : List Char) → Decoded (List Char)
  | [], text => .ok text
  | _ :: _, [] => .error .cutShort
  | w :: word, c :: text => if w = c then matchWord word text else .error .malformed

/-- A lexeme spelled by a fixed word, of which the first letter has been read. -/
def readWord (lexeme : Lexeme) (brokenOff : Defect → Broken) (word text : List Char) :
    Lexeme × List Char :=
  match matchWord word text with
  | .ok rest => (lexeme, rest)
  | .error defect => (.broken (brokenOff defect), [])

/-- A string whose opening quote has been read. -/
def readString (text : List Char) : Lexeme × List Char :=
  match readUnits text with
  | (units, .closed rest) => (.string ((joinUnits units).map String.ofList), rest)
  | (units, .broken defect) => (.broken (.string (hasLone units) defect), [])

/-- A number. -/
def readNumber (text : List Char) : Lexeme × List Char :=
  match readNumeral text with
  | .ok (numeral, rest) => (.number numeral.inRange, rest)
  | .error broken => (.broken (.number broken.atEnd), [])

/-- The lexeme that begins with the given character, and the text after it. -/
def readLexeme (c : Char) (rest : List Char) : Lexeme × List Char :=
  match c with
  | '[' => (.openArray, rest)
  | ']' => (.closeArray, rest)
  | '{' => (.openObject, rest)
  | '}' => (.closeObject, rest)
  | ',' => (.comma, rest)
  | ':' => (.colon, rest)
  | '"' => readString rest
  | 't' => readWord (.bool true) .bool "rue".toList rest
  | 'f' => readWord (.bool false) .bool "alse".toList rest
  | 'n' => readWord .null .null "ull".toList rest
  | c => if c = '-' ∨ c.isDigit then readNumber (c :: rest) else (.broken .stray, [])

-- ── a lexeme is not empty ────────────────────────────────────────────────────────

/-- No more is left behind a word than there was. -/
theorem length_matchWord_le {word text rest : List Char} (h : matchWord word text = .ok rest) :
    rest.length ≤ text.length := by
  induction word generalizing text with
  | nil =>
      obtain rfl := Except.ok.inj h
      exact Nat.le_refl _
  | cons w word ih =>
      cases text with
      | nil => exact nomatch h
      | cons c text =>
          simp only [matchWord] at h
          split at h
          · exact Nat.le_succ_of_le (ih h)
          · exact nomatch h

/-- A word uses up text, or breaks off. -/
theorem length_readWord_le (lexeme : Lexeme) (brokenOff : Defect → Broken)
    (word text : List Char) : (readWord lexeme brokenOff word text).2.length ≤ text.length := by
  simp only [readWord]
  split
  · next h => exact length_matchWord_le h
  · exact Nat.zero_le _

/-- Behind a string no more is left than there was behind its quote. -/
theorem length_readString_le (text : List Char) : (readString text).2.length ≤ text.length := by
  simp only [readString]
  split
  · next h => exact Nat.le_of_lt (length_rest_lt_of_readUnits (by rw [h]))
  · exact Nat.zero_le _

/-- A run of digits has at least one. -/
theorem length_readDigits_lt {text digits rest : List Char}
    (h : readDigits text = .ok (digits, rest)) : rest.length < text.length := by
  simp only [readDigits] at h
  split at h
  · exact nomatch h
  · next hd =>
      obtain ⟨rfl, rfl⟩ := Prod.mk.inj (Except.ok.inj h)
      have hsum := congrArg List.length (List.takeWhile_append_dropWhile (p := Char.isDigit) (l := text))
      rw [List.length_append] at hsum
      have : 0 < (text.takeWhile Char.isDigit).length := by
        cases hw : text.takeWhile Char.isDigit with
        | nil => simp [hw] at hd
        | cons c cs => exact Nat.succ_pos _
      omega

/-- The whole part of a number has at least one digit. -/
theorem length_readWhole_lt {text digits rest : List Char}
    (h : readWhole text = .ok (digits, rest)) : rest.length < text.length := by
  simp only [readWhole] at h
  split at h
  · split at h
    · exact nomatch h
    · obtain ⟨-, rfl⟩ := Prod.mk.inj (Except.ok.inj h)
      exact Nat.lt_succ_self _
  · exact length_readDigits_lt h

/-- A fraction may be left out. -/
theorem length_readFraction_le {text digits rest : List Char}
    (h : readFraction text = .ok (digits, rest)) : rest.length ≤ text.length := by
  simp only [readFraction] at h
  split at h
  · exact Nat.le_succ_of_le (Nat.le_of_lt (length_readDigits_lt h))
  · obtain ⟨-, rfl⟩ := Prod.mk.inj (Except.ok.inj h)
    exact Nat.le_refl _

/-- An exponent may be left out. -/
theorem length_readExponent_le {text digits rest : List Char} {negative : Bool}
    (h : readExponent text = .ok (negative, digits, rest)) : rest.length ≤ text.length := by
  have digitsCase : ∀ {b : Bool} {t : List Char},
      (readDigits t).map (b, ·) = .ok (negative, digits, rest) → rest.length ≤ t.length := by
    intro b t ht
    cases hd : readDigits t with
    | error e => simp [hd, Except.map] at ht
    | ok r =>
        obtain ⟨ds, tail⟩ := r
        simp only [hd, Except.map, Except.ok.injEq, Prod.mk.injEq] at ht
        obtain ⟨-, -, rfl⟩ := ht
        exact Nat.le_of_lt (length_readDigits_lt hd)
  simp only [readExponent] at h
  split at h
  · split at h
    · split at h
      · exact Nat.le_trans (digitsCase h) (by simp only [List.length_cons]; omega)
      · exact Nat.le_trans (digitsCase h) (by simp only [List.length_cons]; omega)
      · exact Nat.le_succ_of_le (digitsCase h)
    · obtain ⟨-, -, rfl⟩ : negative = false ∧ digits = [] ∧ rest = _ := by
        simpa [eq_comm] using h
      exact Nat.le_refl _
  · obtain ⟨-, -, rfl⟩ : negative = false ∧ digits = [] ∧ rest = _ := by
      simpa [eq_comm] using h
    exact Nat.le_refl _

/-- A number is never empty, so its whole part uses up text. -/
theorem length_readNumeral_lt {text rest : List Char} {numeral : Numeral}
    (h : readNumeral text = .ok (numeral, rest)) : rest.length < text.length := by
  have hsign : (dropSign text).length ≤ text.length := by
    simp only [dropSign]
    split <;> simp
  simp only [readNumeral, bind, Except.bind, pure, Except.pure] at h
  split at h
  · exact nomatch h
  · next hw =>
      split at h
      · exact nomatch h
      · next hf =>
          split at h
          · exact nomatch h
          · next he =>
              obtain ⟨-, rfl⟩ := Prod.mk.inj (Except.ok.inj h)
              have h1 := length_readWhole_lt hw
              have h2 := length_readFraction_le hf
              have h3 := length_readExponent_le he
              omega

/-- Behind a number less is left, whether it breaks off or not. -/
theorem length_readNumber_lt (c : Char) (text : List Char) :
    (readNumber (c :: text)).2.length ≤ text.length := by
  simp only [readNumber]
  split
  · next h => exact Nat.le_of_lt_succ (length_readNumeral_lt h)
  · exact Nat.zero_le _

/-- What follows a lexeme is no longer than what follows its first character. -/
theorem length_readLexeme_le (c : Char) (rest : List Char) :
    (readLexeme c rest).2.length ≤ rest.length := by
  simp only [readLexeme]
  split
  any_goals exact Nat.le_refl _
  · exact length_readString_le rest
  · exact length_readWord_le _ _ _ rest
  · exact length_readWord_le _ _ _ rest
  · exact length_readWord_le _ _ _ rest
  · split
    · exact length_readNumber_lt _ rest
    · exact Nat.zero_le _

-- ── reading all lexemes ──────────────────────────────────────────────────────────

/-- The lexemes of a text. -/
def lexemes (text : List Char) : List Lexeme :=
  match _h : text.dropWhile isSpace with
  | [] => []
  | c :: rest => (readLexeme c rest).1 :: lexemes (readLexeme c rest).2
termination_by text.length
decreasing_by
  have h1 := length_readLexeme_le c rest
  have h2 := (List.dropWhile_suffix (l := text) isSpace).length_le
  rw [_h, List.length_cons] at h2
  omega

end TemplateScan.Json
