import TemplateScan.Proofs.Scan.Tokens

/-! # Lexemes — the tokens of a run with their texts

    Where a token stands follows from the texts of the tokens and of the literal text before it, since
    the scans of a run take the whole text piece by piece.  What is left of a token is its kind and
    its text.

    * **`lexemesUpTo`** — what the first scans of a run find.
    * **`tokensUpTo_map`** — what the first scans find is what their tokens stand for. -/

namespace TemplateScan

open Text

/-- A kind of token and its text. -/
structure Lexeme where
  kind : TokenKind
  text : List Char
deriving DecidableEq, Repr

/-- The text of a lexeme as a name to be looked up. -/
def Lexeme.name (l : Lexeme) : String :=
  String.ofList l.text

/-- A token that is a fault, with its text. -/
def Lexeme.fault? (l : Lexeme) : Option (Fault × List Char) :=
  l.kind.fault?.map (·, l.text)

/-- The fault of the first lexeme comes first. -/
theorem faults_cons (l : Lexeme) (ls : List Lexeme) :
    (l :: ls).filterMap Lexeme.fault? = l.fault?.toList ++ ls.filterMap Lexeme.fault? := by
  rw [List.filterMap_cons]
  cases l.fault? <;> rfl

/-- White space inside a tag. -/
def TokenKind.isBlank (kind : TokenKind) : Bool :=
  kind == .spacing || kind == .lineBreak

namespace Scanner

variable {γ : Type} [Grammar γ]

/-- The token that the scan after `n` scans finds, with its text. -/
def lexemeAt (s : Scanner γ) (n : Nat) : Option Lexeme :=
  match s.eventAt n with
  | .token kind => some ⟨kind, (s.after (n + 1)).reader.token⟩
  | _ => none

/-- The tokens of the first `n` scans, with their texts. -/
def lexemesUpTo (s : Scanner γ) (n : Nat) : List Lexeme :=
  (List.range n).filterMap s.lexemeAt

@[simp] theorem lexemesUpTo_zero (s : Scanner γ) : s.lexemesUpTo 0 = [] := rfl

/-- A lexeme is the kind of a token and the text that the reader holds after its scan. -/
theorem lexemeAt_of_token {s : Scanner γ} {n : Nat} {kind : TokenKind}
    (h : s.eventAt n = .token kind) :
    s.lexemeAt n = some ⟨kind, (s.after (n + 1)).reader.token⟩ := by
  rw [lexemeAt, h]

/-- The lexemes found later on are those found from there. -/
theorem lexemeAt_add (s : Scanner γ) (m n : Nat) :
    s.lexemeAt (m + n) = (s.after m).lexemeAt n := by
  rw [lexemeAt, lexemeAt, eventAt_add, Nat.add_assoc, after_add]

/-- One more scan adds at most one lexeme, at the end. -/
theorem lexemesUpTo_succ (s : Scanner γ) (n : Nat) :
    s.lexemesUpTo (n + 1) = s.lexemesUpTo n ++ (s.lexemeAt n).toList := by
  rw [lexemesUpTo, List.range_succ, List.filterMap_append, lexemesUpTo]
  cases h : s.lexemeAt n <;> simp [h]

/-- A single scan finds at most one lexeme. -/
theorem lexemesUpTo_one (s : Scanner γ) : s.lexemesUpTo 1 = (s.lexemeAt 0).toList := by
  rw [lexemesUpTo_succ, lexemesUpTo_zero, List.nil_append]

/-- The lexemes of two runs, one after the other, are joined. -/
theorem lexemesUpTo_add (s : Scanner γ) (m n : Nat) :
    s.lexemesUpTo (m + n) = s.lexemesUpTo m ++ (s.after m).lexemesUpTo n := by
  have hrest : (s.after m).lexemeAt = s.lexemeAt ∘ (m + ·) :=
    funext fun n => (lexemeAt_add s m n).symm
  rw [lexemesUpTo, List.range_add, List.filterMap_append, List.filterMap_map, lexemesUpTo,
    lexemesUpTo, hrest]

/-- The lexemes of a run are its tokens with the texts that they have in the document. -/
theorem tokensUpTo_map (s : Scanner γ) (n : Nat) :
    (s.tokensUpTo n).map (fun t => (t.kind, t.text? s.reader.document)) =
      (s.lexemesUpTo n).map fun l => (l.kind, some l.text) := by
  induction n with
  | zero => rfl
  | succ n ih =>
      rw [tokensUpTo_succ, lexemesUpTo_succ, List.map_append, List.map_append, ih, tokenAt, lexemeAt]
      cases s.eventAt n with
      | token kind =>
          have htext := Token.text?_span kind (s.after (n + 1)).reader
          rw [document_after] at htext
          exact congrArg (fun text => _ ++ [(kind, text)]) htext
      | text => rfl
      | finished => rfl

end Scanner

end TemplateScan
