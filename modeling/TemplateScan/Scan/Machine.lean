import TemplateScan.Blocks
import TemplateScan.Brackets
import TemplateScan.Grammar
import TemplateScan.Scan.Delimiter
import TemplateScan.Scan.Phase
import TemplateScan.Text.Reader

/-! # The machine — the state of the scanner beside its place in the document

    A machine holds the phase, the tag being scanned, the brackets and blocks still open, and the
    grammar.  One step looks at the text after the cursor and answers with a `Reply`: what was
    found, how far the cursor moves, and the machine that goes on from there.

    A reply never says where its text starts: a token is always taken from the cursor on
    (`Extent.take`), the end tag alone reaches back to the start of its tag (`Extent.takeFrom`),
    and at the end of the document the cursor stays (`Extent.hold`). -/

namespace TemplateScan

open Text

-- ── the machine ──────────────────────────────────────────────────────────────────

/-- A body that is passed over as it is, up to its end tag. -/
structure Body where
  /-- The name of the tag that the body belongs to. -/
  name : List Char
  /-- The kind of token that the body becomes. -/
  kind : TokenKind
deriving DecidableEq, Repr

/-- The tag being scanned, or the one scanned last. -/
structure Tag where
  form : TagForm := .statement
  /-- The byte offset of its open delimiter. -/
  start : Nat := 0
  /-- Its number. -/
  node : Nat := 0
deriving DecidableEq, Repr

/-- The state of the scanner beside its place in the document. -/
structure Machine (γ : Type) where
  grammar : γ
  phase : Phase := .literal
  tag : Tag := {}
  /-- The body to be passed over once its tag is closed. -/
  body : Option Body := none
  brackets : Brackets := ∅
  blocks : Blocks := ∅
  /-- The number that the next tag gets. -/
  nodes : Nat := 0
  /-- The number of the tag that the last end tag closes. -/
  pair : Option Nat := none
  /-- The reports made at the end of the document. -/
  notices : List Notice := []
  /-- The end of the document has been reached and the reports are made. -/
  flushed : Bool := false

-- ── replies ──────────────────────────────────────────────────────────────────────

/-- What one step finds. -/
inductive Event where
  /-- Literal text, or an empty body. -/
  | text
  | token (kind : TokenKind)
  /-- The end of the document. -/
  | finished
deriving DecidableEq, Repr

/-- The fault that the event carries. -/
def Event.fault? : Event → Option Fault
  | .token kind => kind.fault?
  | _ => none

/-- How one step moves the cursor. -/
inductive Extent where
  /-- Nothing moves. -/
  | hold
  /-- The next `length` characters become the token. -/
  | take (length : Nat)
  /-- The cursor passes over `length` characters, and the token starts at an earlier offset. -/
  | takeFrom (start length : Nat)
deriving DecidableEq, Repr

/-- The reader after a move. -/
def Extent.apply : Extent → Reader → Reader
  | .hold, r => r
  | .take n, r => r.capture n
  | .takeFrom start n, r => (r.capture n).rewindStart start

/-- The answer of one step. -/
structure Reply (γ : Type) where
  event : Event
  extent : Extent
  machine : Machine γ

namespace Machine

variable {γ : Type} [Grammar γ]

/-- Answer with a token of the next `length` characters and go on in `phase`. -/
def emit (m : Machine γ) (kind : TokenKind) (length : Nat) (phase : Phase) : Reply γ where
  event := .token kind
  extent := .take length
  machine := { m with phase }

/-- Report a fault in the next `length` characters and go on in `phase`. -/
def report (m : Machine γ) (fault : Fault) (length : Nat) (phase : Phase) : Reply γ :=
  m.emit (.invalid fault) length phase

/-- Report a fault at the cursor and go on in `phase`. -/
def reportHere (m : Machine γ) (fault : Fault) (phase : Phase) : Reply γ :=
  m.report fault 0 phase

/-- Open a tag of the given form, whose open delimiter comes next. -/
def openTag (m : Machine γ) (form : TagForm) (offset : Nat) : Reply γ :=
  let grammar := Grammar.resetFilter m.grammar
  { m with
    grammar := Grammar.setExpect grammar (match form with
      | .output => .object
      | .statement => .tag)
    tag := { form, start := offset, node := m.nodes }
    nodes := m.nodes + 1
    pair := none
    brackets := ∅ }
  |>.emit .openDelimiter form.opener.length .opened

/-- The machine back in literal text, with everything forgotten that belongs to the tag. -/
def leaveTag (m : Machine γ) : Machine γ :=
  { m with
    phase := .literal
    brackets := ∅
    grammar := Grammar.releaseObject (Grammar.resetFilter m.grammar) }

end Machine

end TemplateScan
