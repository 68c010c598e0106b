import TemplateScan.Proofs.Scan.Tiling

/-! # Tokens — what `tokenize` collects, scan by scan

    The tokens of a document are those that the scans of a run from its start find, up to the one
    that finds the end.  So whatever holds of the tokens of the first `n` scans, for every `n`,
    holds of a whole document.

    * **`tokensUpTo`** — the tokens of the first scans of a run.
    * **`tokenize_eq`** — all of them, and the notices left by the scan that finds the end. -/

namespace TemplateScan

open Text

/-- The text of a token is the one that its reader holds. -/
theorem Token.text?_span (kind : TokenKind) (r : Reader) :
    (Token.mk kind r.span).text? r.document = some r.token :=
  Reader.slice?_token r

namespace Scanner

variable {γ : Type} [Grammar γ] {s : Scanner γ} {n : Nat}

/-- The token that the scan after `n` scans finds, if it finds one. -/
def tokenAt (s : Scanner γ) (n : Nat) : Option Token :=
  (s.after (n + 1)).tokenOf (s.eventAt n)

/-- The tokens of the first `n` scans. -/
def tokensUpTo (s : Scanner γ) (n : Nat) : List Token :=
  (List.range n).filterMap s.tokenAt

@[simp] theorem tokensUpTo_zero (s : Scanner γ) : s.tokensUpTo 0 = [] := rfl

/-- One more scan adds at most one token, at the end. -/
theorem tokensUpTo_succ (s : Scanner γ) (n : Nat) :
    s.tokensUpTo (n + 1) = s.tokensUpTo n ++ (s.tokenAt n).toList := by
  rw [tokensUpTo, List.range_succ, List.filterMap_append, tokensUpTo]
  cases h : s.tokenAt n <;> simp [h]

/-- A token lies where the reader stands after its scan. -/
theorem tokenAt_of_token {kind : TokenKind} (h : s.eventAt n = .token kind) :
    s.tokenAt n = some ⟨kind, (s.after (n + 1)).reader.span⟩ := by
  rw [tokenAt, h]
  rfl

/-- Text and the end of the document are no tokens. -/
theorem tokenAt_eq_none (h : ∀ kind, s.eventAt n ≠ .token kind) : s.tokenAt n = none := by
  rw [tokenAt]
  cases he : s.eventAt n with
  | token kind => exact absurd he (h kind)
  | text => rfl
  | finished => rfl

/-- A scan that finds a token adds it. -/
theorem tokensUpTo_succ_of_token {kind : TokenKind} (h : s.eventAt n = .token kind) :
    s.tokensUpTo (n + 1) = s.tokensUpTo n ++ [⟨kind, (s.after (n + 1)).reader.span⟩] := by
  rw [tokensUpTo_succ, tokenAt_of_token h, Option.toList_some]

/-- A scan that finds none adds nothing. -/
theorem tokensUpTo_succ_of_ne (h : ∀ kind, s.eventAt n ≠ .token kind) :
    s.tokensUpTo (n + 1) = s.tokensUpTo n := by
  rw [tokensUpTo_succ, tokenAt_eq_none h, Option.toList_none, List.append_nil]

/-- The tokens found later on are those found from there. -/
theorem tokenAt_add (s : Scanner γ) (m n : Nat) : s.tokenAt (m + n) = (s.after m).tokenAt n := by
  rw [tokenAt, tokenAt, ← eventAt_add, ← after_add, Nat.add_assoc]

/-- The tokens of a run are those of its first part and those of the rest. -/
theorem tokensUpTo_add (s : Scanner γ) (m n : Nat) :
    s.tokensUpTo (m + n) = s.tokensUpTo m ++ (s.after m).tokensUpTo n := by
  have hrest : (s.after m).tokenAt = s.tokenAt ∘ (m + ·) :=
    funext fun n => (tokenAt_add s m n).symm
  rw [tokensUpTo, List.range_add, List.filterMap_append, List.filterMap_map, tokensUpTo, tokensUpTo,
    hrest]

/-- **The tokens of a document** are those of the scans before the one that finds its end, and the
    notices are those which that one leaves. -/
theorem tokenize_eq (source : String) (grammar : γ) :
    ∃ n, (ofString source grammar).eventAt n = .finished ∧
      (∀ i < n, (ofString source grammar).eventAt i ≠ .finished) ∧
      tokenize source grammar = ⟨(ofString source grammar).tokensUpTo n,
        ((ofString source grammar).after (n + 1)).machine.notices⟩ := by
  obtain ⟨n, hend, hbefore, htrace⟩ := trace_ends (ofString source grammar)
  refine ⟨n, hend, hbefore, ?_⟩
  have hlast : (ofString source grammar).tokensUpTo (n + 1) =
      (ofString source grammar).tokensUpTo n :=
    tokensUpTo_succ_of_ne fun kind hk => nomatch hend.symm.trans hk
  rw [tokenize, htrace, ← hlast]
  congr 1
  · rw [List.filterMap_map]
    rfl
  · rw [List.getLast?_map, List.range_succ, List.getLast?_concat]
    rfl

/-- The scan that finds the end first ends the document. -/
theorem tokenize_of_finished {source : String} {grammar : γ}
    (hend : (ofString source grammar).eventAt n = .finished)
    (hbefore : ∀ i < n, (ofString source grammar).eventAt i ≠ .finished) :
    tokenize source grammar = ⟨(ofString source grammar).tokensUpTo n,
      ((ofString source grammar).after (n + 1)).machine.notices⟩ := by
  obtain ⟨k, hk, hfirst, heq⟩ := tokenize_eq source grammar
  rcases Nat.lt_trichotomy k n with hlt | rfl | hgt
  · exact absurd hk (hbefore k hlt)
  · exact heq
  · exact absurd hend (hfirst n hgt)

end Scanner

end TemplateScan
