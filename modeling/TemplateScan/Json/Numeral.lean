import TemplateScan.Json.Defect

/-! # Numerals — numbers as they are written, and which of them are too large

    A numeral is an optional minus, a whole part without leading zeros, and perhaps a fraction and
    an exponent.  No number is ever wanted here, so its value does not matter; but a numeral whose
    value is beyond the range of a double is not accepted as a number at all (`Numeral.inRange`).

    The value is taken the way a quick reader takes it.  The digits are gathered into a significand
    of 64 bits; a digit that does not fit is dropped, and raises the exponent by one when it stands
    before the point.  Then significand and power of ten are each rounded to a double and
    multiplied. -/

namespace TemplateScan.Json

-- ── the parts of a numeral ───────────────────────────────────────────────────────

/-- A numeral without its sign. -/
structure Numeral where
  whole : List Char
  /-- The digits after the point. -/
  fraction : List Char := []
  exponentIsNegative : Bool := false
  exponent : List Char := []
deriving DecidableEq, Repr

/-- Text that begins like a numeral but is none; it may end too early. -/
structure BrokenNumeral where
  atEnd : Bool
deriving DecidableEq, Repr

/-- The digits that the text begins with, at least one, and the text after them. -/
def readDigits (text : List Char) : Except BrokenNumeral (List Char × List Char) :=
  let digits := text.takeWhile Char.isDigit
  if digits.isEmpty then .error ⟨text.isEmpty⟩ else .ok (digits, text.dropWhile Char.isDigit)

/-- The whole part: a zero, or digits that do not begin with one. -/
def readWhole (text : List Char) : Except BrokenNumeral (List Char × List Char) :=
  match text with
  | '0' :: rest => if rest.head?.any Char.isDigit then .error ⟨false⟩ else .ok (['0'], rest)
  | _ => readDigits text

/-- The fraction, if there is one. -/
def readFraction (text : List Char) : Except BrokenNumeral (List Char × List Char) :=
  match text with
  | '.' :: rest => readDigits rest
  | _ => .ok ([], text)

/-- Whether the exponent is negative, its digits, and the text after it. -/
def readExponent (text : List Char) : Except BrokenNumeral (Bool × List Char × List Char) :=
  match text with
  | c :: rest =>
      if c = 'e' ∨ c = 'E' then
        match rest with
        | '+' :: rest => (readDigits rest).map (false, ·)
        | '-' :: rest => (readDigits rest).map (true, ·)
        | _ => (readDigits rest).map (false, ·)
      else .ok (false, [], text)
  | [] => .ok (false, [], text)

/-- The text without the minus that it may begin with. -/
def dropSign : List Char → List Char
  | '-' :: rest => rest
  | text => text

/-- The numeral that the text begins with, and the text after it. -/
def readNumeral (text : List Char) : Except BrokenNumeral (Numeral × List Char) := do
  let (whole, rest) ← readWhole (dropSign text)
  let (fraction, rest) ← readFraction rest
  let (exponentIsNegative, exponent, rest) ← readExponent rest
  pure ({ whole, fraction, exponentIsNegative, exponent }, rest)

-- ── the range of a double ────────────────────────────────────────────────────────

/-- The nearest number with at most 53 significant bits; a tie goes to the even one. -/
def roundToDouble (n : Nat) : Nat :=
  let excess := n.log2 + 1 - 53
  let unit := Nat.pow 2 excess
  let quotient := n / unit
  let twice := 2 * (n % unit)
  if unit < twice ∨ (twice = unit ∧ quotient % 2 = 1) then (quotient + 1) * unit
  else quotient * unit

/-- The least number that rounds to infinity: halfway from the largest double to the next power. -/
def doubleLimit : Nat :=
  (Nat.pow 2 54 - 1) * Nat.pow 2 970

/-- The value of a decimal digit. -/
def digitValue (c : Char) : Nat :=
  c.toNat - '0'.toNat

/-- The number written by decimal digits. -/
def digitsToNat (digits : List Char) : Nat :=
  digits.foldl (fun n c => n * 10 + digitValue c) 0

/-- The significand with one more digit, if that fits in 64 bits. -/
def addDigit? (significand : Nat) (c : Char) : Option Nat :=
  let next := significand * 10 + digitValue c
  if next < Nat.pow 2 64 then some next else none

/-- The significand of the digits before the point, and the number of digits dropped. -/
def gatherWhole : (significand : Nat) → List Char → Nat × Nat
  | significand, [] => (significand, 0)
  | significand, c :: cs =>
      match addDigit? significand c with
      | some next => gatherWhole next cs
      | none => (significand, (c :: cs).length)

/-- The significand with the digits after the point, and the number of those that fit. -/
def gatherFraction : (significand : Nat) → List Char → Nat × Nat
  | significand, [] => (significand, 0)
  | significand, c :: cs =>
      match addDigit? significand c with
      | some next =>
          let rest := gatherFraction next cs
          (rest.1, rest.2 + 1)
      | none => (significand, 0)

namespace Numeral

/-- The significand and the power of ten of a numeral. -/
def scaled (n : Numeral) : Nat × Int :=
  let (whole, dropped) := gatherWhole 0 n.whole
  let (significand, places) := gatherFraction whole n.fraction
  let exponent : Int := digitsToNat n.exponent
  (significand, dropped - places + if n.exponentIsNegative then -exponent else exponent)

/-- The value is within the range of a double. -/
def inRange (n : Numeral) : Bool :=
  let (significand, power) := n.scaled
  if power < 0 then true
  else if 308 < power then significand == 0
  else decide (roundToDouble significand * roundToDouble (Nat.pow 10 power.toNat) < doubleLimit)

end Numeral

end TemplateScan.Json
