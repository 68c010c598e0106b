import TemplateScan.Proofs.Scan.Termination

/-! # Tiling — the scans of a run cover the text without gap or overlap

    Every scan takes its text from the cursor on; the end tag alone reaches back, to the open
    delimiter of its own tag.  What a scan takes that was not taken before is its `piece`.

    * **`step_reaches`** — how far one step reaches, and when it takes nothing.
    * **`opensTagOf_after`** — inside a tag the machine remembers where the tag was opened.
    * **`pieces_append_rest`** — the pieces so far and the rest are the text.
    * **`run_tiles`** — the ranges of a whole run touch, from the start of the text to its end. -/

namespace TemplateScan

open Text

-- ── one step ─────────────────────────────────────────────────────────────────────

/-- The event may stand for no text at all. -/
def Event.mayBeEmpty : Event → Bool
  | .text | .finished => true
  | .token .outputTag | .token .cancelled | .token (.invalid _) => true
  | .token _ => false

namespace Machine

variable {γ : Type} [Grammar γ] {ending : Bool} {bound : Nat} {m : Machine γ} {r : Reader}
  {reply : Reply γ}

/-- The answer takes text from the cursor on, or is an end tag that reaches back to the start of the
    tag; it takes nothing only where it may. -/
def Reaches (m : Machine γ) (reply : Reply γ) : Prop :=
  (reply.event ≠ .token .endTag ∧ reply.extent = .take reply.extent.count ∨
    reply.event = .token .endTag ∧ m.phase.inTag = true ∧
      reply.extent = .takeFrom m.tag.start reply.extent.count) ∧
    (0 < reply.extent.count ∨ reply.event.mayBeEmpty = true)

theorem TagStep.reaches (hp : m.phase.inTag = true) (h : TagStep ending bound m r reply) :
    Reaches m reply := by
  have hpart : ∀ {kind : TokenKind}, kind.isPart = true → Event.token kind ≠ .token .endTag := by
    rintro kind hk heq
    obtain rfl := Event.token.inj heq
    exact nomatch hk
  cases h with
  | space hk hn _ =>
      refine ⟨Or.inl ⟨?_, rfl⟩, Or.inl hn⟩
      rcases hk with rfl | rfl <;> exact nofun
  | @startTag g name _ hn _ =>
      obtain ⟨kind, blocks, hk, heq⟩ := takeStartTag_eq { m with grammar := g } name r.document
      obtain ⟨-, hpos, -⟩ := identifier?_eq_some hn
      rw [heq]
      exact ⟨Or.inl ⟨hpart hk, rfl⟩, Or.inl hpos⟩
  | endTag _ hn _ =>
      obtain ⟨-, hpos, -⟩ := identifier?_eq_some hn
      exact ⟨Or.inr ⟨rfl, hp, rfl⟩, Or.inl hpos⟩
  | part hk hn _ _ _ | keyPath hk hn _ _ _ => exact ⟨Or.inl ⟨hpart hk, rfl⟩, Or.inl hn⟩
  | mark _ _ _ _ | recovered _ _ _ | dropBracket _ _ _ | abandoned _ _ | outputTag _ _ _ =>
      exact ⟨Or.inl ⟨nofun, rfl⟩, Or.inr rfl⟩
  | trimLeft _ _ _ | openBracket _ _ _ | closeBracket _ _ _ _ | trimRight _ _ =>
      exact ⟨Or.inl ⟨nofun, rfl⟩, Or.inl Nat.one_pos⟩
  | closed _ _ =>
      refine ⟨Or.inl ⟨?_, rfl⟩, Or.inl ?_⟩
      · dsimp only
        split <;> decide
      · show 0 < m.tag.form.closer.length
        cases m.tag.form <;> decide

theorem TextStep.reaches (hm : m.BodySound) (hr : r.rest ≠ []) (h : TextStep m r reply) :
    Reaches m reply := by
  cases h with
  | @body body hb =>
      obtain ⟨n, event, kept, heq, -, ⟨rfl, rfl, -⟩ | ⟨hn, rfl⟩⟩ := stepBody_eq m body hr
      · rw [heq]
        exact ⟨Or.inl ⟨by rintro ⟨⟩, rfl⟩, Or.inr rfl⟩
      · rw [heq]
        refine ⟨Or.inl ⟨?_, rfl⟩, Or.inl hn⟩
        intro he
        have hkind := hm body hb
        rw [Event.token.inj he] at hkind
        cases hkind
  | @opens form _ _ =>
      refine ⟨Or.inl ⟨by rintro ⟨⟩, rfl⟩, Or.inl ?_⟩
      show 0 < form.opener.length
      cases form <;> decide
  | element _ _ _ =>
      rw [stepElement]
      split
      · exact ⟨Or.inl ⟨by rintro ⟨⟩, rfl⟩, Or.inl (Nat.lt_add_right _ Nat.one_pos)⟩
      · exact ⟨Or.inl ⟨by rintro ⟨⟩, rfl⟩, Or.inr rfl⟩
  | endElement _ _ _ =>
      rw [stepEndElement]
      split
      · exact ⟨Or.inl ⟨by rintro ⟨⟩, rfl⟩, Or.inl (Nat.lt_add_right _ Nat.two_pos)⟩
      · exact ⟨Or.inl ⟨by rintro ⟨⟩, rfl⟩, Or.inr rfl⟩
  | text _ hn _ => exact ⟨Or.inl ⟨by rintro ⟨⟩, rfl⟩, Or.inl hn⟩
  | markup hk hn _ _ _ =>
      refine ⟨Or.inl ⟨?_, rfl⟩, Or.inl hn⟩
      intro he
      rw [Event.token.inj he] at hk
      cases hk
  | selfClose _ _ => exact ⟨Or.inl ⟨by rintro ⟨⟩, rfl⟩, Or.inl Nat.two_pos⟩
  | space hk hn _ _ =>
      refine ⟨Or.inl ⟨?_, rfl⟩, Or.inl hn⟩
      intro he
      rcases hk with rfl | rfl <;> cases he
  | leave _ => exact ⟨Or.inl ⟨by rintro ⟨⟩, rfl⟩, Or.inr rfl⟩

/-- How far a step before the end of the document reaches. -/
theorem step_reaches (hm : m.BodySound) (h : (m.step r).event ≠ .finished) :
    Reaches m (m.step r) := by
  cases hp : m.phase.inTag with
  | true => exact (step_inTag m r hp).reaches hp
  | false =>
      obtain ⟨hr, hne⟩ := rest_ne_nil_of_outside hp h
      exact (step_outside m r hp hr).reaches hm hne

/-- A step that takes something has text before it. -/
theorem rest_ne_nil_of_count (h : (m.step r).event ≠ .finished)
    (hc : 0 < (m.step r).extent.count) : r.rest ≠ [] := by
  cases hp : m.phase.inTag with
  | true =>
      have hle := (step_inTag m r hp).count_le
      exact List.length_pos_iff.mp (Nat.lt_of_lt_of_le hc hle)
  | false => exact (rest_ne_nil_of_outside hp h).2

end Machine

-- ── pieces ───────────────────────────────────────────────────────────────────────

/-- What a move takes that was not taken before is the text it passes over. -/
theorem dropBytes_token_apply (e : Extent) (r : Reader)
    (h : ∀ o n, e = .takeFrom o n → o ≤ r.offset) :
    dropBytes (r.offset - (e.apply r).start) (e.apply r).token = r.rest.take e.count := by
  cases e with
  | hold =>
      show dropBytes (r.offset - r.start) r.token = r.rest.take 0
      rw [Reader.offset, Reader.start, Nat.add_sub_cancel_left, List.take_zero]
      simpa using dropBytes_byteSize r.token []
  | take n =>
      show dropBytes (r.offset - (r.capture n).start) (r.capture n).token = r.rest.take n
      rw [Reader.start_capture, Nat.sub_self, Reader.token_capture, dropBytes_zero]
  | takeFrom o n =>
      have ho := h o n rfl
      have hcut := congrArg byteSize (splitAtByte_append o r.behind.reverse)
      rw [byteSize_append, Reader.byteSize_behind] at hcut
      obtain ⟨hstart, htoken⟩ := r.parts_rewindStart n ho
      show dropBytes (r.offset - ((r.capture n).rewindStart o).start)
        ((r.capture n).rewindStart o).token = r.rest.take n
      rw [hstart, htoken, ← hcut, Nat.add_sub_cancel_left, dropBytes_byteSize]

namespace Scanner

variable {γ : Type} [Grammar γ]

/-- What a scan takes that was not taken before: its text, an end tag cut down to its name. -/
def piece (s : Scanner γ) (n : Nat) : List Char :=
  dropBytes ((s.after n).reader.offset - (s.after (n + 1)).reader.start)
    (s.after (n + 1)).reader.token

/-- Scan `i` finds the open delimiter of the tag in which scan `n` comes. -/
structure OpensTagOf (s : Scanner γ) (i n : Nat) : Prop where
  lt : i < n
  opens : s.eventAt i = .token .openDelimiter
  inside : ∀ j, i < j → j < n →
    s.eventAt j ≠ .token .openDelimiter ∧ (s.eventAt j).endsTag = false

-- ── runs ─────────────────────────────────────────────────────────────────────────

theorem bodySound_after (source : String) (grammar : γ) (n : Nat) :
    ((ofString source grammar).after n).machine.BodySound := by
  induction n with
  | zero => exact nofun
  | succ n ih => exact Machine.bodySound_step ih _

theorem offset_le_after (s : Scanner γ) (m n : Nat) :
    (s.after m).reader.offset ≤ (s.after (m + n)).reader.offset := by
  induction n with
  | zero => exact Nat.le_refl _
  | succ n ih => exact Nat.le_trans ih (offset_le_apply _ _)

/-- A tag starts before everything that is scanned in it. -/
theorem OpensTagOf.start_le {s : Scanner γ} {i n : Nat} (h : s.OpensTagOf i n) :
    (s.after (i + 1)).reader.start ≤ (s.after n).reader.offset := by
  obtain ⟨k, rfl⟩ : ∃ k, n = i + 1 + k := Nat.exists_eq_add_of_le h.lt
  exact Nat.le_trans (Reader.start_le_offset _) (offset_le_after s (i + 1) k)

/-- Inside a tag of a run from the start, the machine remembers where the tag was opened. -/
theorem opensTagOf_after {source : String} {grammar : γ} {n : Nat}
    (h : ((ofString source grammar).after n).machine.phase.inTag = true) :
    ∃ i, OpensTagOf (ofString source grammar) i n ∧
      ((ofString source grammar).after n).machine.tag.start =
        ((ofString source grammar).after (i + 1)).reader.start := by
  generalize hs : ofString source grammar = s at h ⊢
  induction n with
  | zero =>
      rw [← hs] at h
      exact nomatch h
  | succ n ih =>
      rw [after_succ, machine_scanHere] at h
      cases hp : (s.after n).machine.phase.inTag with
      | true =>
          rcases Machine.step_stays_or_leaves hp (s.after n).reader with hstay | hleave
          · obtain ⟨i, hi, hstart⟩ := ih hp
            obtain ⟨kind, hk, hopen⟩ := hstay.event
            refine ⟨i, ⟨Nat.lt_succ_of_lt hi.lt, hi.opens, fun j hij hj => ?_⟩, ?_⟩
            · rcases Nat.lt_or_eq_of_le (Nat.le_of_lt_succ hj) with hjn | rfl
              · exact hi.inside j hij hjn
              · exact ⟨fun he => hopen (Event.token.inj (hk.symm.trans he)), hstay.not_endsTag⟩
            · rw [after_succ, machine_scanHere, hstay.tag_eq]
              exact hstart
          · rw [hleave.phase_eq] at h
            exact nomatch h
      | false =>
          obtain ⟨form, -, heq⟩ := Machine.step_enters hp h
          refine ⟨n, ⟨Nat.lt_succ_self n, congrArg Reply.event heq, fun j hnj hj => ?_⟩, ?_⟩
          · omega
          · rw [after_succ, machine_scanHere, reader_scanHere, heq]
            exact (Reader.start_capture _ _).symm

/-- Where the open tag starts is a boundary, and not after the cursor. -/
theorem tagStart_le_offset (source : String) (grammar : γ) {n : Nat}
    (h : ((ofString source grammar).after n).machine.phase.inTag = true) :
    ((ofString source grammar).after n).machine.tag.start ≤
        ((ofString source grammar).after n).reader.offset ∧
      IsBoundary ((ofString source grammar).after n).machine.tag.start
        ((ofString source grammar).after n).reader.document.chars := by
  obtain ⟨i, hi, hstart⟩ := opensTagOf_after h
  rw [hstart]
  constructor
  · exact hi.start_le
  · rw [document_after, ← document_after (ofString source grammar) (i + 1)]
    exact Reader.isBoundary_start _

/-- The piece that a scan takes is the text that it passes over. -/
theorem piece_append_rest {source : String} {grammar : γ} {n : Nat}
    (h : (ofString source grammar).eventAt n ≠ .finished) :
    (ofString source grammar).piece n ++ ((ofString source grammar).after (n + 1)).reader.rest =
      ((ofString source grammar).after n).reader.rest := by
  have hreach := Machine.step_reaches (bodySound_after source grammar n) h
  have hstart := tagStart_le_offset source grammar (n := n)
  generalize hs : (ofString source grammar).after n = s at hreach hstart
  rw [piece, after_succ, hs, reader_scanHere, rest_apply, dropBytes_token_apply,
    List.take_append_drop]
  intro o k he
  rcases hreach.1 with ⟨-, htake⟩ | ⟨-, hp, hfrom⟩
  · rw [he] at htake
    exact nomatch htake
  · rw [he] at hfrom
    rw [(Extent.takeFrom.inj hfrom).1]
    exact (hstart hp).1

/-- The pieces of the scans so far, and the rest, are the text. -/
theorem pieces_append_rest {source : String} {grammar : γ} {n : Nat}
    (h : ∀ i < n, (ofString source grammar).eventAt i ≠ .finished) :
    (List.range n).flatMap (ofString source grammar).piece ++
      ((ofString source grammar).after n).reader.rest = source.toList := by
  induction n with
  | zero => rfl
  | succ n ih =>
      rw [List.range_succ, List.flatMap_append, List.append_assoc, List.flatMap_singleton,
        piece_append_rest (h n (Nat.lt_succ_self n))]
      exact ih fun i hi => h i (Nat.lt_succ_of_lt hi)

/-- Before the end every scan but that of an end tag takes its text from the cursor on; an end tag
    starts where its own tag was opened. -/
theorem start_after_scan (source : String) (grammar : γ) {n : Nat}
    (h : (ofString source grammar).eventAt n ≠ .finished) :
    ((ofString source grammar).eventAt n ≠ .token .endTag →
      ((ofString source grammar).after (n + 1)).reader.start =
        ((ofString source grammar).after n).reader.offset) ∧
    ((ofString source grammar).eventAt n = .token .endTag →
      ∃ i, OpensTagOf (ofString source grammar) i n ∧
        ((ofString source grammar).after (n + 1)).reader.start =
          ((ofString source grammar).after (i + 1)).reader.start) := by
  have hreach := Machine.step_reaches (bodySound_after source grammar n) h
  constructor
  · intro hne
    rcases hreach.1 with ⟨-, htake⟩ | ⟨he, -⟩
    · rw [after_succ, reader_scanHere, htake]
      exact Reader.start_capture _ _
    · exact absurd he hne
  · intro he
    rcases hreach.1 with ⟨hne, -⟩ | ⟨-, hp, hfrom⟩
    · exact absurd he hne
    · obtain ⟨hle, hbound⟩ := tagStart_le_offset source grammar hp
      obtain ⟨i, hi, hstart⟩ := opensTagOf_after hp
      refine ⟨i, hi, ?_⟩
      rw [after_succ, reader_scanHere, hfrom, ← hstart]
      refine Reader.start_rewindStart hbound (Nat.le_trans hle ?_)
      rw [Reader.offset_capture]
      exact Nat.le_add_right _ _

/-- A token is empty only where it may be. -/
theorem start_lt_offset {source : String} {grammar : γ} {n : Nat}
    (h : ((ofString source grammar).eventAt n).mayBeEmpty = false) :
    ((ofString source grammar).after (n + 1)).reader.start <
      ((ofString source grammar).after (n + 1)).reader.offset := by
  have hend : (ofString source grammar).eventAt n ≠ .finished := fun he => by
    rw [he] at h
    exact nomatch h
  have hreach := Machine.step_reaches (bodySound_after source grammar n) hend
  have hold : ((ofString source grammar).after (n + 1)).reader.start ≤
      ((ofString source grammar).after n).reader.offset := by
    obtain ⟨htake, hfrom⟩ := start_after_scan source grammar hend
    by_cases he : (ofString source grammar).eventAt n = .token .endTag
    · obtain ⟨i, hi, hstart⟩ := hfrom he
      rw [hstart]
      exact hi.start_le
    · exact Nat.le_of_eq (htake he)
  have hcount : 0 < (((ofString source grammar).after n).machine.step
      ((ofString source grammar).after n).reader).extent.count := by
    rcases hreach.2 with hcount | hempty
    · exact hcount
    · exact absurd (hempty.symm.trans h) nofun
  refine Nat.lt_of_le_of_lt hold ?_
  rw [after_succ, reader_scanHere, offset_apply, Reader.offsetAt]
  refine Nat.lt_add_of_pos_right (Nat.pos_of_ne_zero fun h0 => ?_)
  have hnil := byteSize_eq_zero.mp h0
  rcases List.take_eq_nil_iff.mp hnil with hc | hrest
  · omega
  · exact Machine.rest_ne_nil_of_count hend hcount hrest

/-- The scans of a run cover the source, without gap or overlap. -/
structure Tiles (source : String) (s : Scanner γ) : Prop where
  /-- The range of each scan is a slice of the text, which is its token. -/
  slice : ∀ n, s.eventAt n ≠ .finished →
    s.reader.document.slice? (s.after (n + 1)).reader.start (s.after (n + 1)).reader.offset =
      some (s.after (n + 1)).reader.token
  /-- It starts at the cursor, and ends at the new one. -/
  start : ∀ n, s.eventAt n ≠ .finished → s.eventAt n ≠ .token .endTag →
    (s.after (n + 1)).reader.start = (s.after n).reader.offset
  /-- An end tag alone starts at the open delimiter of its own tag. -/
  endTag : ∀ n, s.eventAt n = .token .endTag → ∃ i, s.OpensTagOf i n ∧
    (s.after (n + 1)).reader.start = (s.after (i + 1)).reader.start
  /-- Only the mark of an output tag, a fault, and markup passed over after all may be empty. -/
  nonempty : ∀ n kind, s.eventAt n = .token kind → kind ≠ .outputTag → kind ≠ .cancelled →
    (∀ fault, kind ≠ .invalid fault) →
    (s.after (n + 1)).reader.start < (s.after (n + 1)).reader.offset
  /-- A scan leaves a fault exactly when its token is one. -/
  fault : ∀ n fault, (s.after (n + 1)).fault = some fault ↔ s.eventAt n = .token (.invalid fault)
  /-- The pieces up to the end are the source, from its first byte to its last. -/
  covers : ∃ n, s.eventAt n = .finished ∧ (∀ i < n, s.eventAt i ≠ .finished) ∧
    (List.range n).flatMap s.piece = source.toList ∧
    (source ≠ "" → 0 < n ∧ (s.after 1).reader.start = 0 ∧
      (s.after n).reader.offset = source.utf8ByteSize)

theorem fault_after (s : Scanner γ) (n : Nat) (fault : Fault) :
    (s.after (n + 1)).fault = some fault ↔ s.eventAt n = .token (.invalid fault) := by
  show (s.eventAt n).fault? = some fault ↔ _
  constructor
  · intro hf
    cases he : s.eventAt n with
    | text => rw [he] at hf; exact nomatch hf
    | finished => rw [he] at hf; exact nomatch hf
    | token kind =>
        rw [he] at hf
        cases kind with
        | invalid found =>
            obtain rfl : found = fault := Option.some.inj hf
            rfl
        | _ => exact nomatch hf
  · intro he
    rw [he]
    rfl

/-- **Tiling.**  In a run from the start of any text, in any grammar, the scans cover the text
    without gap or overlap. -/
theorem run_tiles (source : String) (grammar : γ) : (ofString source grammar).Tiles source where
  slice n _ := by
    rw [← document_after (ofString source grammar) (n + 1)]
    exact Reader.slice?_token _
  start n hend hne := (start_after_scan source grammar hend).1 hne
  endTag n he := (start_after_scan source grammar (by rw [he]; exact nofun)).2 he
  nonempty n kind hk hmark hcancel hfault := by
    refine start_lt_offset ?_
    rw [hk]
    cases kind with
    | outputTag => exact absurd rfl hmark
    | cancelled => exact absurd rfl hcancel
    | invalid fault => exact absurd rfl (hfault fault)
    | _ => rfl
  fault := fault_after _
  covers := by
    obtain ⟨n, hend, hbefore, -⟩ := trace_ends (ofString source grammar)
    have hpieces := pieces_append_rest hbefore
    have hrest : ((ofString source grammar).after n).reader.rest = [] :=
      List.isEmpty_iff.mp (Machine.step_finished_iff.mp hend).1
    refine ⟨n, hend, hbefore, ?_, fun hne => ⟨?_, ?_, ?_⟩⟩
    · rw [hrest, List.append_nil] at hpieces
      exact hpieces
    · -- a text that is not empty is not finished at once
      refine Nat.pos_of_ne_zero fun h0 => hne ?_
      rw [h0] at hrest
      exact String.toList_eq_nil_iff.mp hrest
    · have hfirst : (ofString source grammar).eventAt 0 ≠ .finished := fun he => hne
        (String.toList_eq_nil_iff.mp (List.isEmpty_iff.mp (Machine.step_finished_iff.mp he).1))
      obtain ⟨htake, hfrom⟩ := start_after_scan source grammar hfirst
      refine htake fun he => ?_
      obtain ⟨i, hi, -⟩ := hfrom he
      exact Nat.not_lt_zero i hi.lt
    · have hsize := ((ofString source grammar).after n).reader.offset_add_rest
      rw [hrest, byteSize_nil, Nat.add_zero, document_after] at hsize
      rw [hsize, ← byteSize_toList]
      rfl

-- the end tag reaches back to its open delimiter; the other ranges start at the cursor
example :
    let s := ofString "a\x7b%- endif %\x7db" Dialect.empty.lookup
    (List.range 8).map (fun n => ((s.after (n + 1)).reader.start, (s.after (n + 1)).reader.offset)) =
      [(0, 1), (1, 3), (3, 4), (4, 5), (1, 10), (10, 11), (11, 13), (13, 14)] := by
  decide

end Scanner

end TemplateScan
