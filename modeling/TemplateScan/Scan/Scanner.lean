import TemplateScan.Scan.Step

/-! # Scanners — a document scanned token by token

    A scanner is a place in a document together with a machine.  Each `scan` passes over one token
    or one run of literal text; `trace` follows the scans up to the end of the document, and
    `tokenize` collects what they find.

    A scanner can be resumed: `rewind` goes back to an offset in literal text and forgets the
    blocks opened from there on, `reset` goes back to the start.

    The number of scans is bounded by `work`: every scan that takes no text leads to a phase from
    which fewer such scans are possible, or closes a bracket. -/

namespace TemplateScan

open Text

/-- A place in a document together with the state of the scan. -/
structure Scanner (γ : Type) where
  reader : Reader
  machine : Machine γ
  /-- The fault of the last token. -/
  fault : Option Fault := none

namespace Scanner

variable {γ : Type} [Grammar γ]

/-- The scanner at the start of a text. -/
def ofString (source : String) (grammar : γ) : Scanner γ where
  reader := .ofString source
  machine := { grammar }

-- ── one scan ─────────────────────────────────────────────────────────────────────

/-- One scan from where the scanner is. -/
def scanHere (s : Scanner γ) : Event × Scanner γ :=
  let reply := s.machine.step s.reader
  (reply.event, ⟨reply.extent.apply s.reader, reply.machine, reply.event.fault?⟩)

/-- One scan, from the given offset if it is not zero. -/
def scan (s : Scanner γ) (offset : Nat) : Event × Scanner γ :=
  if offset = 0 then s.scanHere else { s with reader := s.reader.jump offset }.scanHere

/-- Go on with literal text at an offset, and forget the blocks opened from there on. -/
def rewind (s : Scanner γ) (offset : Nat) : Scanner γ where
  reader := s.reader.jump offset
  machine := { s.machine with
    phase := .literal
    tag := { s.machine.tag with start := offset }
    body := none
    brackets := ∅
    blocks := s.machine.blocks.forgetFrom offset
    notices := []
    pair := none
    flushed := false
    grammar := Grammar.releaseObject (Grammar.resetFilter s.machine.grammar) }

/-- Go back to the start of the document and forget all blocks. -/
def reset (s : Scanner γ) : Scanner γ :=
  let s := s.rewind 0
  { s with machine := { s.machine with blocks := ∅, nodes := 0 } }

/-- The text of the tag being scanned, up to the cursor; after a rewind to an offset that is no
    boundary, or a jump back, there may be none. -/
def tagText? (s : Scanner γ) : Option (List Char) :=
  s.reader.document.slice? s.machine.tag.start s.reader.offset

-- ── many scans ───────────────────────────────────────────────────────────────────

/-- The token that a scan has found. -/
def tokenOf (s : Scanner γ) (event : Event) : Option Token :=
  match event with
  | .token kind => some ⟨kind, s.reader.span⟩
  | _ => none

/-- A bound on the number of scans up to the end of the document. -/
def work (s : Scanner γ) : Nat :=
  16 * (s.reader.rest.length + 1) + s.machine.brackets.depth

/-- The first `n` scans, or fewer when one of them reaches the end of the document. -/
def scans : Nat → Scanner γ → List (Event × Scanner γ)
  | 0, _ => []
  | n + 1, s =>
      let found := s.scanHere
      found :: match found.1 with
        | .finished => []
        | _ => scans n found.2

/-- All scans up to the end of the document. -/
def trace (s : Scanner γ) : List (Event × Scanner γ) :=
  scans s.work s

/-- The next token and the scanner after it, if it comes among the first scans. -/
def nextWithin : Nat → Scanner γ → Option Token × Scanner γ
  | 0, s => (none, s)
  | n + 1, s =>
      let (event, next) := s.scanHere
      match event with
      | .text => nextWithin n next
      | .finished => (none, next)
      | .token kind => (some ⟨kind, next.reader.span⟩, next)

/-- The next token and the scanner after it; no token is left at the end of the document. -/
def next (s : Scanner γ) : Option Token × Scanner γ :=
  nextWithin s.work s

/-- At most `n` further tokens and the scanner after them. -/
def take : Nat → Scanner γ → List Token × Scanner γ
  | 0, s => ([], s)
  | n + 1, s =>
      match s.next with
      | (none, s) => ([], s)
      | (some token, s) =>
          let (tokens, s) := take n s
          (token :: tokens, s)

end Scanner

-- ── whole documents ──────────────────────────────────────────────────────────────

/-- What is found in a whole document. -/
structure Lexed where
  tokens : List Token
  /-- The blocks that are never closed. -/
  notices : List Notice
deriving DecidableEq, Repr

namespace Lexed

/-- The kinds of the tokens. -/
def kinds (l : Lexed) : List TokenKind :=
  l.tokens.map (·.kind)

/-- The faults of the tokens that have one. -/
def faults (l : Lexed) : List Fault :=
  l.tokens.filterMap (·.fault?)

end Lexed

/-- Scan a whole document. -/
def tokenize {γ : Type} [Grammar γ] (source : String) (grammar : γ) : Lexed :=
  let trace := (Scanner.ofString source grammar).trace
  { tokens := trace.filterMap fun found => found.2.tokenOf found.1
    notices := (trace.getLast?.map fun found => found.2.machine.notices).getD [] }

end TemplateScan
