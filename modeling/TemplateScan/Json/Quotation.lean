import TemplateScan.Json.Defect
import TemplateScan.Text.Extent

/-! # Quotations — reading the text of a string

    The part of a string after its opening quote is first cut into units (`readUnits`): characters
    that stand for themselves, and code units written as four hexadecimal digits.  Then the units
    are joined into a text (`joinUnits`); two code units that form a surrogate pair become one
    character, and a surrogate without its partner makes the string unusable.

    A string that is merely passed over need not have its surrogates paired. -/

namespace TemplateScan.Json

open Text

-- ── units ────────────────────────────────────────────────────────────────────────

/-- One unit of a string. -/
inductive CodeUnit where
  /-- A character, written as itself or by a short escape. -/
  | plain (c : Char)
  /-- A UTF-16 code unit, written by its four hexadecimal digits. -/
  | escaped (code : Nat)
deriving DecidableEq, Repr

/-- How a string ends. -/
inductive StringEnd where
  /-- With its closing quote, and this text after it. -/
  | closed (rest : List Char)
  | broken (defect : Defect)
deriving DecidableEq, Repr

/-- The value of a hexadecimal digit of either case. -/
def hexValue? (c : Char) : Option Nat :=
  if '0' ≤ c ∧ c ≤ '9' then some (c.toNat - '0'.toNat)
  else if 'a' ≤ c ∧ c ≤ 'f' then some (c.toNat - 'a'.toNat + 10)
  else if 'A' ≤ c ∧ c ≤ 'F' then some (c.toNat - 'A'.toNat + 10)
  else none

/-- The number written by four hexadecimal digits. -/
def hexCode? (a b c d : Char) : Option Nat :=
  match hexValue? a, hexValue? b, hexValue? c, hexValue? d with
  | some a, some b, some c, some d => some (((a * 16 + b) * 16 + c) * 16 + d)
  | _, _, _, _ => none

/-- The character that a short escape stands for. -/
def shortEscape? (c : Char) : Option Char :=
  match c with
  | '"' => some '"'
  | '\\' => some '\\'
  | '/' => some '/'
  | 'b' => some '\x08'
  | 'f' => some '\x0c'
  | 'n' => some '\n'
  | 'r' => some '\r'
  | 't' => some '\t'
  | _ => none

/-- The units of a string whose opening quote has been read, and how the string ends. -/
def readUnits : List Char → List CodeUnit × StringEnd
  | [] => ([], .broken .cutShort)
  | '\\' :: 'u' :: a :: b :: c :: d :: rest =>
      match hexCode? a b c d with
      | some code =>
          let tail := readUnits rest
          (.escaped code :: tail.1, tail.2)
      | none => ([], .broken .malformed)
  | '\\' :: 'u' :: rest =>
      ([], .broken (if byteSize rest < 4 then .cutShort else .malformed))
  | ['\\'] => ([], .broken .cutShort)
  | '\\' :: c :: rest =>
      match shortEscape? c with
      | some c =>
          let tail := readUnits rest
          (.plain c :: tail.1, tail.2)
      | none => ([], .broken .malformed)
  | c :: rest =>
      if c = '"' then ([], .closed rest)
      else if c.toNat < 0x20 then ([], .broken .malformed)
      else
        let tail := readUnits rest
        (.plain c :: tail.1, tail.2)

-- ── surrogates ───────────────────────────────────────────────────────────────────

/-- The first half of a surrogate pair. -/
def isLeading (code : Nat) : Bool :=
  0xD800 ≤ code && code ≤ 0xDBFF

/-- The second half of a surrogate pair. -/
def isTrailing (code : Nat) : Bool :=
  0xDC00 ≤ code && code ≤ 0xDFFF

/-- The character written by a surrogate pair. -/
def joinPair (leading trailing : Nat) : Char :=
  Char.ofNat (0x10000 + (leading - 0xD800) * 0x400 + (trailing - 0xDC00))

/-- The text of the units; `none` when a surrogate has no partner. -/
def joinUnits : List CodeUnit → Option (List Char)
  | [] => some []
  | .plain c :: units => (joinUnits units).map (c :: ·)
  | .escaped code :: .escaped next :: units =>
      if isLeading code then
        if isTrailing next then (joinUnits units).map (joinPair code next :: ·) else none
      else if isTrailing code then none
      else (joinUnits (.escaped next :: units)).map (Char.ofNat code :: ·)
  | .escaped code :: units =>
      if isLeading code || isTrailing code then none
      else (joinUnits units).map (Char.ofNat code :: ·)

/-- The units hold a surrogate that cannot have a partner, however they go on. -/
def hasLone : List CodeUnit → Bool
  | [] => false
  | .plain _ :: units => hasLone units
  | [.escaped code] => isTrailing code
  | .escaped code :: .plain c :: units =>
      isLeading code || isTrailing code || hasLone (.plain c :: units)
  | .escaped code :: .escaped next :: units =>
      if isLeading code then !isTrailing next || hasLone units
      else isTrailing code || hasLone (.escaped next :: units)

-- ── the text read ────────────────────────────────────────────────────────────────

/-- What follows a string is shorter than what the string begins with. -/
theorem length_rest_lt_of_readUnits {text rest : List Char}
    (h : (readUnits text).2 = .closed rest) : rest.length < text.length := by
  fun_induction readUnits text with
  | case1 => exact nomatch h
  | case2 a b c d tail code hcode units ih =>
      have := ih h
      simp only [List.length_cons]
      omega
  | case3 => exact nomatch h
  | case4 => exact nomatch h
  | case5 => exact nomatch h
  | case6 c tail _ _ d hd units ih =>
      have := ih h
      simp only [List.length_cons]
      omega
  | case7 => exact nomatch h
  | case8 =>
      obtain rfl := StringEnd.closed.inj h
      simp
  | case9 => exact nomatch h
  | case10 c tail _ _ _ _ _ _ units ih =>
      have := ih h
      simp only [List.length_cons]
      omega

end TemplateScan.Json
