import TemplateScan.Json.Lexeme

/-! # Outlines — the structure of a JSON text, as far as it goes

    An outline is a JSON value in which a part may be broken: a scalar that does not come to its
    end, or an array or object that is not closed.  A broken part is the last thing in its text, so
    the arrays and objects around it are not closed either; how those end is never asked.

    The outline of a text is built lexeme by lexeme.  A `Place` says what is open and what may come
    next; each lexeme leads to the next place, and one that fits nowhere, like the end of the text,
    breaks the outline off (`Place.cut`). -/

namespace TemplateScan.Json

-- ── outlines ─────────────────────────────────────────────────────────────────────

/-- A key; without a text when a surrogate in it has no partner. -/
abbrev Key := Option String

/-- How an array ends. -/
inductive ArrayEnding where
  | closed
  /-- After an item, or at the start, something else is found, or the text ends. -/
  | noSeparator (found : Option Lexeme)
deriving DecidableEq, Repr

/-- How an object ends. -/
inductive ObjectEnding where
  | closed
  /-- After a member something else is found, or the text ends. -/
  | noSeparator (found : Option Lexeme)
  /-- Where a key is needed something else is found, or the text ends. -/
  | noKey (found : Option Lexeme)
  /-- After a key something else than a colon is found, or the text ends. -/
  | noColon (key : Key) (found : Option Lexeme)
deriving DecidableEq, Repr

/-- A JSON value that may be broken. -/
inductive Outline where
  | string (text : Option String)
  | number (inRange : Bool)
  | bool (value : Bool)
  | null
  | array (items : List Outline) (ending : ArrayEnding)
  | object (members : List (Key × Outline)) (ending : ObjectEnding)
  /-- Something that is no value. -/
  | broken (what : Broken)
  /-- The text ends where a value is needed. -/
  | missing
deriving Repr

namespace Outline

instance : Inhabited Outline := ⟨.missing⟩

/-- What stands where a value is needed, when it is no value. -/
def ofFound : (found : Option Lexeme) → Outline
  | none => .missing
  | some (.broken what) => .broken what
  | some _ => .broken .stray

end Outline

-- ── places ───────────────────────────────────────────────────────────────────────

/-- An open array or object around the current place; what it holds is listed last first. -/
inductive Frame where
  | array (items : List Outline)
  /-- An object with the key of the member that is being read. -/
  | object (members : List (Key × Outline)) (key : Key)

/-- What is open, innermost first, and what may come next. -/
inductive Place where
  /-- A value. -/
  | atValue (frames : List Frame)
  /-- The first item of an array, or its end. -/
  | atFirstItem (frames : List Frame)
  /-- A comma, or the end of an array. -/
  | afterItem (items : List Outline) (frames : List Frame)
  /-- The first key of an object, or its end. -/
  | atFirstKey (frames : List Frame)
  /-- A key. -/
  | atKey (members : List (Key × Outline)) (frames : List Frame)
  /-- A colon. -/
  | atColon (members : List (Key × Outline)) (key : Key) (frames : List Frame)
  /-- A comma, or the end of an object. -/
  | afterMember (members : List (Key × Outline)) (frames : List Frame)
  /-- Nothing. -/
  | done (root : Outline)

namespace Place

/-- The place after a value. -/
def after (value : Outline) : (frames : List Frame) → Place
  | [] => .done value
  | .array items :: frames => .afterItem (value :: items) frames
  | .object members key :: frames => .afterMember ((key, value) :: members) frames

/-- The place after a lexeme where a value is needed. -/
def afterValue? (frames : List Frame) : Lexeme → Option Place
  | .string text => some (after (.string text) frames)
  | .number inRange => some (after (.number inRange) frames)
  | .bool value => some (after (.bool value) frames)
  | .null => some (after .null frames)
  | .openArray => some (.atFirstItem frames)
  | .openObject => some (.atFirstKey frames)
  | _ => none

/-- The place after a lexeme, if it may stand here. -/
def next? : Place → Lexeme → Option Place
  | .atValue frames, lexeme => afterValue? frames lexeme
  | .atFirstItem frames, .closeArray => some (after (.array [] .closed) frames)
  | .atFirstItem frames, lexeme => afterValue? (.array [] :: frames) lexeme
  | .afterItem items frames, .comma => some (.atValue (.array items :: frames))
  | .afterItem items frames, .closeArray => some (after (.array items.reverse .closed) frames)
  | .atFirstKey frames, .closeObject => some (after (.object [] .closed) frames)
  | .atFirstKey frames, .string text => some (.atColon [] text frames)
  | .atKey members frames, .string text => some (.atColon members text frames)
  | .atColon members key frames, .colon => some (.atValue (.object members key :: frames))
  | .afterMember members frames, .comma => some (.atKey members frames)
  | .afterMember members frames, .closeObject =>
      some (after (.object members.reverse .closed) frames)
  | _, _ => none

/-- The outline of a text that breaks off inside the given frames. -/
def abandon (inner : Outline) : (frames : List Frame) → Outline
  | [] => inner
  | .array items :: frames =>
      abandon (.array (inner :: items).reverse (.noSeparator none)) frames
  | .object members key :: frames =>
      abandon (.object ((key, inner) :: members).reverse (.noSeparator none)) frames

/-- The outline of a text that breaks off here. -/
def cut (found : Option Lexeme) : Place → Outline
  | .atValue frames => abandon (.ofFound found) frames
  | .atFirstItem frames =>
      if found.isNone then abandon (.array [] (.noSeparator none)) frames
      else abandon (.ofFound found) (.array [] :: frames)
  | .afterItem items frames => abandon (.array items.reverse (.noSeparator found)) frames
  | .atFirstKey frames => abandon (.object [] (.noKey found)) frames
  | .atKey members frames => abandon (.object members.reverse (.noKey found)) frames
  | .atColon members key frames => abandon (.object members.reverse (.noColon key found)) frames
  | .afterMember members frames => abandon (.object members.reverse (.noSeparator found)) frames
  | .done root => root

/-- The outline of the lexemes from a place on, and what is left of them. -/
def outline : Place → List Lexeme → Outline × List Lexeme
  | .done root, lexemes => (root, lexemes)
  | place, [] => (place.cut none, [])
  | place, lexeme :: lexemes =>
      match place.next? lexeme with
      | some place => outline place lexemes
      | none => (place.cut (some lexeme), [])

end Place

/-- The outline of a text, and the lexemes that follow its value. -/
def outline (text : List Char) : Outline × List Lexeme :=
  (Place.atValue []).outline (lexemes text)

end TemplateScan.Json
