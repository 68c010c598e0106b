import TemplateScan.Text.Blank
import TemplateScan.Text.Document
import TemplateScan.Text.Literal

/-! # Readers — a place in a document and the token that ends there

    A reader divides its document into three parts: the text before the current token, the token,
    and the text not read yet (`Reader.covers`).  The cursor is the end of the token.

    * `mark` begins a new, empty token at the cursor; `extend` moves the cursor and keeps the
      start; `capture` does both, so that the token is exactly the text passed over.
    * `jump` moves cursor and start to an offset, rounded up to a boundary.
    * The conditional captures answer whether the cursor moved; those that first look at the text
      (`takeChar`, `takeText`, `takeWord`, `takeIdentifier`, `takeNumber`, `takeQuoted`) leave the
      reader alone when it does not match.

    Because the three parts always make up the document, both ends of the token are boundaries
    between characters whatever is done (`isBoundary_start`, `isBoundary_offset`).  The moves
    marked `?` refuse to end inside a character. -/

namespace TemplateScan.Text

/-- A document divided into the text before the token, the token, and the rest. -/
structure Reader where
  document : Document
  /-- The text before the token, nearest character first. -/
  before : List Char
  token : List Char
  rest : List Char
  covers : before.reverse ++ (token ++ rest) = document.chars

namespace Reader

/-- The reader at the start of a document. -/
def ofDocument (d : Document) : Reader where
  document := d
  before := []
  token := []
  rest := d.chars
  covers := rfl

/-- The reader at the start of a text. -/
def ofString (text : String) : Reader :=
  ofDocument (.ofString text)

-- ── where the reader is ──────────────────────────────────────────────────────────

/-- The byte offset where the token starts. -/
def start (r : Reader) : Nat :=
  byteSize r.before

/-- The byte offset of the cursor, where the token ends. -/
def offset (r : Reader) : Nat :=
  byteSize r.before + byteSize r.token

/-- The cursor is at the end of the document. -/
def atEnd (r : Reader) : Bool :=
  r.rest.isEmpty

/-- The line and column where the token starts. -/
def position (r : Reader) : Position :=
  r.document.position r.start

/-- The span of the token. -/
def span (r : Reader) : Span :=
  .ofPosition r.position r.start r.offset

/-- The text before the cursor, nearest character first. -/
def behind (r : Reader) : List Char :=
  r.token.reverse ++ r.before

/-- The token starts between two characters of the document. -/
theorem isBoundary_start (r : Reader) : IsBoundary r.start r.document.chars :=
  isBoundary_iff.mpr ⟨_, _, r.covers.symm, byteSize_reverse r.before⟩

/-- The cursor is between two characters of the document. -/
theorem isBoundary_offset (r : Reader) : IsBoundary r.offset r.document.chars :=
  isBoundary_iff.mpr ⟨r.before.reverse ++ r.token, r.rest, by rw [← r.covers]; simp,
    by simp [offset]⟩

/-- The token starts at or before the cursor. -/
theorem start_le_offset (r : Reader) : r.start ≤ r.offset :=
  Nat.le_add_right _ _

/-- The cursor is within the document. -/
theorem offset_le_size (r : Reader) : r.offset ≤ r.document.size := by
  have h := congrArg byteSize r.covers
  simp only [byteSize_append, byteSize_reverse] at h
  simp only [offset, Document.size]
  omega

-- ── looking ahead ────────────────────────────────────────────────────────────────

/-- The next character. -/
def peek? (r : Reader) : Option Char :=
  r.rest.head?

/-- The character `n` places after the cursor. -/
def peekAt? (r : Reader) (n : Nat) : Option Char :=
  r.rest[n]?

/-- The rest begins with the given text. -/
def isNext (r : Reader) (text : List Char) : Bool :=
  text.isPrefixOf r.rest

/-- The byte offset of the character `n` places after the cursor. -/
def offsetAt (r : Reader) (n : Nat) : Nat :=
  r.offset + byteSize (r.rest.take n)

/-- The offset where `pattern` occurs next, unless one of `stops` occurs before it. -/
def find? (r : Reader) (pattern : List Char) (stops : List (List Char)) : Option Nat :=
  (indexBefore? pattern stops r.rest).map r.offsetAt

/-- The offset of the next byte that is one of `bytes`; it may lie inside a character. -/
def seekByte? (r : Reader) (bytes : List UInt8) : Option Nat :=
  ((r.rest.flatMap String.utf8EncodeChar).findIdx? bytes.contains).map (r.offset + ·)

-- ── moving ───────────────────────────────────────────────────────────────────────

/-- Begin an empty token at the cursor. -/
def mark (r : Reader) : Reader where
  document := r.document
  before := r.behind
  token := []
  rest := r.rest
  covers := by simp [behind, ← r.covers]

/-- Move the cursor over the next `n` characters, keeping the start of the token. -/
def extend (n : Nat) (r : Reader) : Reader where
  document := r.document
  before := r.before
  token := r.token ++ r.rest.take n
  rest := r.rest.drop n
  covers := by simp [← r.covers]

/-- Move the cursor like `extend`, and answer how many bytes it passes over. -/
def forward (n : Nat) (r : Reader) : Nat × Reader :=
  (byteSize (r.rest.take n), r.extend n)

/-- Make the next `n` characters the token. -/
def capture (n : Nat) (r : Reader) : Reader :=
  r.mark.extend n

/-- Move cursor and start to an offset, rounded up to a boundary. -/
def jump (offset : Nat) (r : Reader) : Reader where
  document := r.document
  before := (splitAtByte offset r.document.chars).1.reverse
  token := []
  rest := (splitAtByte offset r.document.chars).2
  covers := by simp [splitAtByte_append]

/-- Begin the token at an offset, rounded up to a boundary but never past the cursor. -/
def rewindStart (offset : Nat) (r : Reader) : Reader where
  document := r.document
  before := (splitAtByte offset r.behind.reverse).1.reverse
  token := (splitAtByte offset r.behind.reverse).2
  rest := r.rest
  covers := by
    rw [← r.covers, List.reverse_reverse, ← List.append_assoc, splitAtByte_append]
    simp [behind]

/-- Begin the token at an offset that is not inside a character. -/
def rewindStart? (offset : Nat) (r : Reader) : Option Reader :=
  if IsBoundary (min offset r.offset) r.document.chars then some (r.rewindStart offset) else none

-- ── conditional captures ─────────────────────────────────────────────────────────

/-- Make the next `n` characters the token. -/
def advance (n : Nat) (r : Reader) : Bool × Reader :=
  (0 < n && !r.atEnd, r.capture n)

/-- Move the cursor forward to an offset that is not inside a character, keeping the start. -/
def extendTo? (offset : Nat) (r : Reader) : Option (Bool × Reader) :=
  let target := min offset r.document.size
  if target ≤ r.offset then some (false, r)
  else (splitAtByte? (target - r.offset) r.rest).map fun halves =>
    (true, r.extend halves.1.length)

/-- Make the text up to an offset that is not inside a character the token. -/
def until? (offset : Nat) (r : Reader) : Option (Bool × Reader) :=
  r.mark.extendTo? offset

/-- Make the whole rest the token. -/
def toEnd (r : Reader) : Bool × Reader :=
  (!r.atEnd, r.capture r.rest.length)

/-- Make the longest run of characters that satisfy the predicate the token. -/
def takeWhile (p : Char → Bool) (r : Reader) : Bool × Reader :=
  let run := r.rest.takeWhile p
  (!run.isEmpty, r.capture run.length)

/-- Make a given text the token, if it comes next. -/
def takeText (text : List Char) (r : Reader) : Bool × Reader :=
  if r.isNext text then (!text.isEmpty, r.capture text.length) else (false, r)

/-- Make a given character the token, if it comes next. -/
def takeChar (c : Char) (r : Reader) : Bool × Reader :=
  r.takeText [c]

/-- Make a given word the token, if it comes next and ends there. -/
def takeWord (word : List Char) (r : Reader) : Bool × Reader :=
  if startsWithWord word r.rest then (!word.isEmpty, r.capture word.length) else (false, r)

/-- Move the cursor over blanks, keeping the start of the token. -/
def skipBlanks (r : Reader) : Bool × Reader :=
  let run := r.rest.takeWhile isBlank
  (!run.isEmpty, r.extend run.length)

/-- Make an identifier the token, if one comes next. -/
def takeIdentifier (r : Reader) : Bool × Reader :=
  match identifier? r.rest with
  | some name => (true, r.capture name.length)
  | none => (false, r)

/-- Make a number the token, if one comes next, and answer its form. -/
def takeNumber (r : Reader) : Option NumberForm × Reader :=
  match number? r.rest with
  | some (form, digits) => (some form, r.capture digits.length)
  | none => (none, r)

/-- Make a string the token, if one comes next. -/
def takeQuoted (stops : List (List Char)) (r : Reader) : Option Quoted × Reader :=
  match quoted? stops r.rest with
  | some string => (some string, r.capture string.text.length)
  | none => (none, r)

-- ── what a move does to the three parts ──────────────────────────────────────────

@[simp] theorem document_mark (r : Reader) : r.mark.document = r.document := rfl
@[simp] theorem token_mark (r : Reader) : r.mark.token = [] := rfl
@[simp] theorem rest_mark (r : Reader) : r.mark.rest = r.rest := rfl

@[simp] theorem start_mark (r : Reader) : r.mark.start = r.offset := by
  simp [start, mark, behind, offset, Nat.add_comm]

@[simp] theorem offset_mark (r : Reader) : r.mark.offset = r.offset := by
  simp [mark, behind, offset, Nat.add_comm]

@[simp] theorem start_extend (n : Nat) (r : Reader) : (r.extend n).start = r.start := rfl

@[simp] theorem rest_extend (n : Nat) (r : Reader) : (r.extend n).rest = r.rest.drop n := rfl

/-- The bytes passed over are the way from the old cursor to the new one. -/
theorem offset_forward (n : Nat) (r : Reader) :
    (r.forward n).2.offset = r.offset + (r.forward n).1 := by
  simp [forward, extend, offset, Nat.add_assoc]

@[simp] theorem document_capture (n : Nat) (r : Reader) :
    (r.capture n).document = r.document := rfl

@[simp] theorem token_capture (n : Nat) (r : Reader) :
    (r.capture n).token = r.rest.take n := by
  simp [capture, extend]

@[simp] theorem rest_capture (n : Nat) (r : Reader) :
    (r.capture n).rest = r.rest.drop n := rfl

/-- A capture starts where the cursor was. -/
@[simp] theorem start_capture (n : Nat) (r : Reader) : (r.capture n).start = r.offset := by
  simp [start, capture, extend, mark, behind, offset, Nat.add_comm]

/-- A capture moves the cursor over the text captured. -/
@[simp] theorem offset_capture (n : Nat) (r : Reader) : (r.capture n).offset = r.offsetAt n := by
  simp [capture, extend, mark, behind, offset, offsetAt]
  omega

@[simp] theorem document_jump (o : Nat) (r : Reader) : (r.jump o).document = r.document := rfl

@[simp] theorem document_rewindStart (o : Nat) (r : Reader) :
    (r.rewindStart o).document = r.document := rfl

@[simp] theorem rest_rewindStart (o : Nat) (r : Reader) :
    (r.rewindStart o).rest = r.rest := rfl

/-- Moving the start leaves the cursor alone. -/
@[simp] theorem offset_rewindStart (o : Nat) (r : Reader) :
    (r.rewindStart o).offset = r.offset := by
  have h := congrArg byteSize (splitAtByte_append o r.behind.reverse)
  simp only [byteSize_append, byteSize_reverse] at h
  simp only [offset, rewindStart, byteSize_reverse, h]
  simp [behind, Nat.add_comm]

end Reader

end TemplateScan.Text
