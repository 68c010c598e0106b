import TemplateScan.Proofs.Scan.Follows

/-! # Pairing — the scanner pairs the tags that their tokens say it should

    In a run from the start of a document the open blocks are, all along, the openings that wait in
    the replay of the tokens found so far.  So the scanner pairs every end with the opening that the
    replay closes, and reports at the end of the document those that still wait.

    * **`follows_after`** — the agreement of the machine and the replay, along a run.
    * **`replay_retired`** — what has been closed stays closed, along a run.
    * **`runs_pair`** — what that says of every end, and of the notices. -/

namespace TemplateScan

open Text

namespace Replay

variable {dialect : Dialect} {p : Replay} {event : Event} {r : Reader} {a : Nat}

theorem Retired.see (h : p.Retired a) : (p.see dialect event r).Retired a := by
  cases event with
  | token kind => exact h.step
  | text => exact h
  | finished => exact h

end Replay

namespace Scanner

variable {dialect : Dialect} {s : Scanner Lookup} {n : Nat}

-- ── along a run ──────────────────────────────────────────────────────────────────

/-- A scan stays in its dialect, -/
theorem dialect_scanHere (s : Scanner Lookup) :
    s.scanHere.2.machine.grammar.dialect = s.machine.grammar.dialect :=
  Lookup.dialect_of_moves (Machine.step_moves s.machine s.reader)

/-- and so does a run. -/
theorem dialect_stays (s : Scanner Lookup) (n : Nat) :
    (s.after n).machine.grammar.dialect = s.machine.grammar.dialect := by
  induction n with
  | zero => rfl
  | succ n ih => rw [after_succ, dialect_scanHere, ih]

theorem dialect_after (source : String) (dialect : Dialect) (n : Nat) :
    ((ofString source dialect.lookup).after n).machine.grammar.dialect = dialect :=
  dialect_stays _ n

/-- What the tokens of the first `n` scans say of the document. -/
def replayUpTo (s : Scanner Lookup) (dialect : Dialect) (n : Nat) : Replay :=
  replay dialect s.reader.document (s.tokensUpTo n)

theorem replayUpTo_succ (s : Scanner Lookup) (dialect : Dialect) (n : Nat) :
    s.replayUpTo dialect (n + 1) =
      (s.replayUpTo dialect n).see dialect (s.eventAt n) (s.after (n + 1)).reader := by
  rw [replayUpTo, replayUpTo]
  cases he : s.eventAt n with
  | token kind =>
      rw [tokensUpTo_succ_of_token he, replay_concat, Replay.next, ← document_after s (n + 1),
        Token.text?_span]
      rfl
  | text =>
      rw [tokensUpTo_succ_of_ne (by rw [he]; rintro _ ⟨⟩)]
      rfl
  | finished =>
      rw [tokensUpTo_succ_of_ne (by rw [he]; rintro _ ⟨⟩)]
      rfl

/-- Before the end is found, the machine agrees with the replay, and has reported nothing. -/
theorem follows_after (source : String) (dialect : Dialect) {n : Nat}
    (h : ∀ i < n, (ofString source dialect.lookup).eventAt i ≠ .finished) :
    Follows dialect ((ofString source dialect.lookup).after n).machine
        ((ofString source dialect.lookup).after n).reader
        ((ofString source dialect.lookup).replayUpTo dialect n) ∧
      ((ofString source dialect.lookup).after n).machine.Unflushed := by
  induction n with
  | zero =>
      refine ⟨?_, rfl, rfl⟩
      exact .of_settled rfl rfl (fun _ ho => absurd ho List.not_mem_nil) rfl rfl rfl
  | succ n ih =>
      obtain ⟨hfollows, hunflushed⟩ := ih fun i hi => h i (Nat.lt_succ_of_lt hi)
      have hevent := h n (Nat.lt_succ_self n)
      rw [replayUpTo_succ]
      exact ⟨hfollows.scan (bracketSound_after source dialect.lookup n)
        (bodySound_after source dialect.lookup n) hevent, Machine.unflushed_step hunflushed hevent⟩

/-- Before a scan that does not find the end, none has found it. -/
theorem not_finished_of_not_finished (h : s.eventAt n ≠ .finished) :
    ∀ i < n, s.eventAt i ≠ .finished := by
  intro i hi hend
  obtain ⟨k, rfl⟩ := Nat.exists_eq_add_of_le (Nat.succ_le_of_lt hi)
  have hstay := (scanHere_of_finished (s := s.after i) (Prod.ext hend rfl)).1
  have hlater := (after_of_scanHere hstay k).1
  rw [eventAt_add] at h
  exact h hlater

/-- A scan after one that has found the end finds it again. -/
theorem eventAt_of_finished {k : Nat} (h : s.eventAt n = .finished) (hnk : n ≤ k) :
    s.eventAt k = .finished := by
  rcases Nat.eq_or_lt_of_le hnk with rfl | hlt
  · exact h
  · exact Decidable.byContradiction fun hne => not_finished_of_not_finished hne n hlt h

/-- What has been closed stays closed. -/
theorem replay_retired {a k : Nat} (h : (s.replayUpTo dialect n).Retired a) (hnk : n ≤ k) :
    (s.replayUpTo dialect k).Retired a := by
  induction hnk with
  | refl => exact h
  | step _ ih =>
      rw [replayUpTo_succ]
      exact ih.see

-- ── ends ─────────────────────────────────────────────────────────────────────────

/-- The scan after `n` scans finds the end of a tag or of an element. -/
def EndsAt (s : Scanner Lookup) (n : Nat) : Prop :=
  s.eventAt n = .token .endTag ∨ s.eventAt n = .token .endMarkupName

theorem EndsAt.not_finished (h : s.EndsAt n) : s.eventAt n ≠ .finished := by
  intro hf
  rw [EndsAt, hf] at h
  rcases h with ⟨⟨⟩⟩ | ⟨⟨⟩⟩

/-- The number that the scanner holds after `n` scans, of the opening that was closed last. -/
def pairAfter (s : Scanner Lookup) (n : Nat) : Option Nat :=
  (s.after n).machine.pair

/-- An end is paired with the opening that the replay closes. -/
theorem pairAfter_eq {source : String} (h : (ofString source dialect.lookup).EndsAt n) :
    (ofString source dialect.lookup).pairAfter (n + 1) =
      ((ofString source dialect.lookup).replayUpTo dialect (n + 1)).closed.map Opening.node := by
  obtain ⟨hfollows, -⟩ := follows_after source dialect (not_finished_of_not_finished h.not_finished)
  rw [replayUpTo_succ]
  exact hfollows.pair_scan (bracketSound_after source dialect.lookup n)
    (bodySound_after source dialect.lookup n) h

/-- What is paired is an opening that has waited for such an end, and does not wait any more. -/
theorem exists_of_pairAfter {source : String} {a : Nat} {kind : TokenKind}
    (hk : kind = .endTag ∨ kind = .endMarkupName)
    (he : (ofString source dialect.lookup).eventAt n = .token kind)
    (h : (ofString source dialect.lookup).pairAfter (n + 1) = some a) :
    ∃ o ∈ ((ofString source dialect.lookup).replayUpTo dialect n).waiting, o.node = a ∧
      o.key.closer = kind ∧
      ((ofString source dialect.lookup).replayUpTo dialect (n + 1)).Retired a := by
  have hends : (ofString source dialect.lookup).EndsAt n := by
    rcases hk with rfl | rfl
    · exact Or.inl he
    · exact Or.inr he
  rw [pairAfter_eq hends, replayUpTo_succ, he] at h
  obtain ⟨o, ho, rfl⟩ := Option.map_eq_some_iff.mp h
  have hsound : ((ofString source dialect.lookup).replayUpTo dialect n).Sound :=
    Replay.sound_replay _ _ _
  obtain ⟨hwaiting, hcloser, hretired⟩ := hsound.closed_end hk ho
  refine ⟨o, hwaiting, rfl, hcloser, ?_⟩
  rw [replayUpTo_succ, he]
  exact hretired

-- ── whole documents ──────────────────────────────────────────────────────────────

/-- Every end of the run is paired with the opening that the replay of the tokens closes. -/
structure PairsEnds (dialect : Dialect) (s : Scanner Lookup) : Prop where
  /-- After an end the scanner holds the number of the opening that it closes, if there is one. -/
  pair : ∀ n, s.EndsAt n →
    s.pairAfter (n + 1) = (s.replayUpTo dialect (n + 1)).closed.map Opening.node
  /-- The end of a tag is paired with a tag. -/
  tag : ∀ n a, s.eventAt n = .token .endTag → s.pairAfter (n + 1) = some a →
    ∃ span, (heads (s.tokensUpTo n))[a]? = some ⟨.openDelimiter, span⟩
  /-- The end of an element is paired with an element. -/
  element : ∀ n a, s.eventAt n = .token .endMarkupName → s.pairAfter (n + 1) = some a →
    ∃ span, (heads (s.tokensUpTo n))[a]? = some ⟨.markupName, span⟩
  /-- No opening is paired twice. -/
  once : ∀ i j a, i < j → s.EndsAt i → s.EndsAt j → s.pairAfter (i + 1) = some a →
    s.pairAfter (j + 1) ≠ some a

theorem pairsEnds (source : String) (dialect : Dialect) :
    (ofString source dialect.lookup).PairsEnds dialect where
  pair n hn := pairAfter_eq hn
  tag n a he ha := by
    obtain ⟨o, ho, rfl, hcloser, -⟩ := exists_of_pairAfter (Or.inl rfl) he ha
    have hopener : o.key.opener = .openDelimiter := Key.opener_eq_of_closer_eq _ (.tag []) hcloser
    rw [← hopener]
    exact ⟨o.span, (Replay.traces_replay dialect _ _).waiting o ho⟩
  element n a he ha := by
    obtain ⟨o, ho, rfl, hcloser, -⟩ := exists_of_pairAfter (Or.inr rfl) he ha
    have hopener : o.key.opener = .markupName := Key.opener_eq_of_closer_eq _ (.element []) hcloser
    rw [← hopener]
    exact ⟨o.span, (Replay.traces_replay dialect _ _).waiting o ho⟩
  once i j a hij hi hj hfirst hsecond := by
    have hkind : ∀ {n}, (ofString source dialect.lookup).EndsAt n → ∃ kind,
        (kind = .endTag ∨ kind = .endMarkupName) ∧
          (ofString source dialect.lookup).eventAt n = .token kind := by
      rintro n (h | h)
      · exact ⟨_, Or.inl rfl, h⟩
      · exact ⟨_, Or.inr rfl, h⟩
    obtain ⟨kind, hk, he⟩ := hkind hi
    obtain ⟨other, hother, he'⟩ := hkind hj
    obtain ⟨-, -, -, -, hretired⟩ := exists_of_pairAfter hk he hfirst
    obtain ⟨o, ho, hnode, -, -⟩ := exists_of_pairAfter hother he' hsecond
    exact (replay_retired hretired (Nat.succ_le_of_lt hij)).not_waiting ho hnode

end Scanner

/-- The notices of a document are those of the openings that wait in the replay of its tokens. -/
structure ReportsWaiting (dialect : Dialect) (source : String) (lexed : Lexed) : Prop where
  notices : lexed.notices = (replay dialect (.ofString source) lexed.tokens).waiting.reverse.map
    (Opening.notice source.utf8ByteSize)
  /-- As many as have been opened and not closed. -/
  count : lexed.notices.length + (replay dialect (.ofString source) lexed.tokens).matched =
    (replay dialect (.ofString source) lexed.tokens).opened

theorem reportsWaiting (source : String) (dialect : Dialect) :
    ReportsWaiting dialect source (tokenize source dialect.lookup) := by
  obtain ⟨n, hend, hbefore, heq⟩ := Scanner.tokenize_eq source dialect.lookup
  obtain ⟨hfollows, hunflushed⟩ := Scanner.follows_after source dialect hbefore
  have hnotices := hfollows.notices_scan hunflushed hend
  have hsize : (Document.ofString source).size = source.utf8ByteSize := byteSize_toList source
  rw [Scanner.document_after] at hnotices
  have hwaiting : (tokenize source dialect.lookup).notices =
      (replay dialect (.ofString source)
        (tokenize source dialect.lookup).tokens).waiting.reverse.map
          (Opening.notice source.utf8ByteSize) := by
    rw [heq, ← hsize]
    exact hnotices
  refine ⟨hwaiting, ?_⟩
  rw [hwaiting, List.length_map, List.length_reverse]
  exact Replay.length_waiting dialect _ _

/-- **The pairing of tags**, in any text and any dialect.  Every end is paired as the replay of the
    tokens says, and what the replay leaves waiting is reported at the end of the text. -/
theorem runs_pair (source : String) (dialect : Dialect) :
    (Scanner.ofString source dialect.lookup).PairsEnds dialect ∧
      ReportsWaiting dialect source (tokenize source dialect.lookup) :=
  ⟨Scanner.pairsEnds source dialect, reportsWaiting source dialect⟩

end TemplateScan
