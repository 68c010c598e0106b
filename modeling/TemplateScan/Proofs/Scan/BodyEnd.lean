import TemplateScan.Dialect.Standard
import TemplateScan.Proofs.Scan.BlockPlaces
import TemplateScan.Proofs.Scan.NamedTags
import TemplateScan.Proofs.Scan.Openers
import TemplateScan.Proofs.Scan.Pairing

/-! # Ends of bodies — how far the body of a tag is passed over

    The body of a comment, a raw block or an embedded tag is one token, from the end of its tag to
    the first place where the search finds the end tag.  That place is the one at which the scanner
    itself would find it, unless more dashes stand there than the scanner takes, or other blanks.

    * **`endTagAt?_eq_some_iff`** — the search stops at the first place where an end tag begins.
    * **`EndsPlainly`** — the texts in which search and scanner stop at the same end tag.
    * **`NamesTag.step_eq`** — the scan that takes the name of a tag.
    * **`NamesTag.waits`** — where the tag ends, its body is to be passed over next.
    * **`firstEndTag_iff`** — where the scanner would find the first end tag, in terms of the text.
    * **`body_ends_at_endTag`** — where the body ends, and what closes the block then; and
      **`body_stops_at_misspelling`** — what happens in all other texts. -/

namespace TemplateScan

open Text

-- ── the search ───────────────────────────────────────────────────────────────────

/-- No misspelt end tag of the name begins in the text before the first one that the scanner
    takes. -/
def EndsPlainly (name text : List Char) : Prop :=
  ∀ n, MisspeltEndTag name (text.drop n) →
    ∃ k < n, startsScannedEndTag name (text.drop k) = true

namespace Machine

variable {name text : List Char} {n : Nat}

/-- The search stops at the first place where an end tag of the name begins. -/
theorem endTagAt?_eq_some_iff : endTagAt? name text = some n ↔
    startsEndTag name (text.drop n) = true ∧ ∀ i < n, startsEndTag name (text.drop i) = false := by
  induction text generalizing n with
  | nil =>
      rw [List.drop_nil]
      exact ⟨nofun, fun h => absurd h.1 Bool.false_ne_true⟩
  | cons c cs ih =>
      rw [endTagAt?]
      cases hc : startsEndTag name (c :: cs) with
      | true =>
          rw [if_pos rfl]
          constructor
          · intro h
            obtain rfl := Option.some.inj h
            exact ⟨hc, fun i hi => absurd hi (Nat.not_lt_zero i)⟩
          · rintro ⟨-, hbefore⟩
            cases n with
            | zero => rfl
            | succ n => exact absurd (hc.symm.trans (hbefore 0 (Nat.succ_pos n))) nofun
      | false =>
          rw [if_neg Bool.false_ne_true, Option.map_eq_some_iff]
          constructor
          · rintro ⟨i, hi, rfl⟩
            obtain ⟨hat, hbefore⟩ := ih.mp hi
            refine ⟨hat, fun j hj => ?_⟩
            cases j with
            | zero => exact hc
            | succ j => exact hbefore j (Nat.lt_of_succ_lt_succ hj)
          · rintro ⟨hat, hbefore⟩
            cases n with
            | zero => exact absurd (hc.symm.trans hat) nofun
            | succ n => exact ⟨n, ih.mpr ⟨hat, fun i hi => hbefore (i + 1) (by omega)⟩, rfl⟩

/-- The search stops where an end tag of the name begins, or before. -/
theorem exists_endTagAt?_le (h : startsEndTag name (text.drop n) = true) :
    ∃ k ≤ n, endTagAt? name text = some k := by
  have hsome : ∃ i, startsEndTag name (text.drop i) = true := ⟨n, h⟩
  exact ⟨Nat.find hsome, Nat.find_min' hsome h, endTagAt?_eq_some_iff.mpr
    ⟨Nat.find_spec hsome, fun _ hi => Bool.eq_false_iff.mpr (Nat.find_min hsome hi)⟩⟩

/-- These are the texts in which the search stops, if at all, where the scanner sees an end tag. -/
theorem endsPlainly_iff : EndsPlainly name text ↔
    ∀ n, endTagAt? name text = some n → startsScannedEndTag name (text.drop n) = true := by
  constructor
  · intro hplain n hn
    obtain ⟨hat, hbefore⟩ := endTagAt?_eq_some_iff.mp hn
    by_cases hmisspelt : MisspeltEndTag name (text.drop n)
    · obtain ⟨k, hk, hfirst⟩ := hplain n hmisspelt
      exact absurd ((hbefore k hk).symm.trans (startsEndTag_of_scanned hfirst)) nofun
    · rwa [← startsEndTag_eq_scanned hmisspelt]
  · intro hsearch n hmisspelt
    obtain ⟨hat, hother⟩ := misspeltEndTag_iff.mp hmisspelt
    obtain ⟨k, hk, hfound⟩ := exists_endTagAt?_le hat
    have hscanned := hsearch k hfound
    refine ⟨k, Nat.lt_of_le_of_ne hk ?_, hscanned⟩
    rintro rfl
    exact absurd (hother.symm.trans hscanned) nofun

end Machine

-- ── one step ─────────────────────────────────────────────────────────────────────

namespace Machine

variable {γ : Type} [Grammar γ] {ending : Bool} {bound : Nat} {m : Machine γ} {r : Reader}
  {reply : Reply γ}

/-- Once the name of the tag has been taken, a step keeps what the tag has opened. -/
theorem TagStep.keeps_body (hp : m.phase.isNamed = true) (h : TagStep ending bound m r reply) :
    reply.machine.body = m.body ∧ KeepsBlocks m reply.machine ∧
      (reply.machine.phase.inTag = true → reply.machine.phase.isNamed = true) := by
  have hopened : ∀ {P : Prop}, m.phase = .opened → P := by
    intro P ho
    rw [ho] at hp
    cases hp
  cases h with
  | trimLeft ho _ _ _ | outputTag ho _ _ _ | startTag ho _ _ _ | endTag ho _ _ _ _ =>
      exact hopened ho
  | space _ _ _ _ _ => exact ⟨rfl, ⟨rfl, rfl⟩, fun _ => hp⟩
  | part _ _ _ hn _ _ _ | keyPath _ _ _ hn _ _ _ | mark _ hn _ _ _ | openBracket _ hn _ _ _
  | closeBracket _ _ hn _ _ _ => exact ⟨rfl, ⟨rfl, rfl⟩, fun _ => hn⟩
  | dropBracket _ hn _ _ _ =>
      refine ⟨rfl, ⟨rfl, rfl⟩, fun _ => ?_⟩
      rcases hn with rfl | rfl
      · exact hp
      · rfl
  | recovered _ _ _ _ | trimRight _ _ _ => exact ⟨rfl, ⟨rfl, rfl⟩, fun _ => rfl⟩
  | closed _ _ _ | abandoned _ _ _ => exact ⟨rfl, ⟨rfl, rfl⟩, nofun⟩

end Machine

-- ── from the name to the end of the tag ──────────────────────────────────────────

namespace Scanner

section

variable {γ : Type} [Grammar γ] {s : Scanner γ}

/-- Scan `j` ends the tag in which scan `i` comes. -/
structure EndsTag (s : Scanner γ) (i j : Nat) : Prop where
  lt : i < j
  ends : (s.eventAt j).endsTag = true
  between : ∀ k, i < k → k < j → (s.eventAt k).endsTag = false

/-- From its name to its end a tag keeps what it has opened. -/
theorem named_after {i n : Nat} (hp : (s.after i).machine.phase.isNamed = true)
    (hends : ∀ k < n, (s.eventAt (i + k)).endsTag = false) :
    (s.after (i + n)).machine.phase.isNamed = true ∧
      (s.after (i + n)).machine.body = (s.after i).machine.body ∧
      (s.after i).machine.KeepsBlocks (s.after (i + n)).machine := by
  induction n with
  | zero => exact ⟨hp, rfl, rfl, rfl⟩
  | succ n ih =>
      obtain ⟨hnamed, hbody, hblocks, hnodes⟩ := ih fun k hk => hends k (Nat.lt_succ_of_lt hk)
      have hin := Phase.inTag_of_isNamed hnamed
      obtain ⟨hbody', ⟨hblocks', hnodes'⟩, hstays⟩ :=
        (Machine.step_inTag _ (s.after (i + n)).reader hin).keeps_body hnamed
      have hstay := Machine.stays_of_not_endsTag hin (hends n (Nat.lt_succ_self n))
      exact ⟨hstays hstay.inTag, hbody'.trans hbody, hblocks'.trans hblocks,
        hnodes'.trans hnodes⟩

end

variable {dialect : Dialect} {source : String} {i j : Nat} {name : List Char} {rule : TagRule}
  {kind : TokenKind}

/-- Scan `i` takes the name of a tag for which the dialect has the given rule. -/
structure NamesTag (s : Scanner Lookup) (dialect : Dialect) (i : Nat) (name : List Char)
    (rule : TagRule) : Prop where
  opened : (s.after i).machine.phase = .opened
  form : (s.after i).machine.tag.form = .statement
  reads : identifier? (s.after i).reader.rest = some name
  /-- It is not the name of an end tag. -/
  starts : Machine.closedName? name = none
  rule : dialect.tags.get? (String.ofList name) = some rule

/-- The scan takes the name, and the tag goes on as its rule says. -/
theorem NamesTag.step_eq (h : (ofString source dialect.lookup).NamesTag dialect i name rule) :
    let s := ofString source dialect.lookup
    (s.after i).machine.step (s.after i).reader =
      ⟨.token (if rule.hasPlacement && !rule.allowsParent (s.after i).machine.blocks.parent? then
        .invalid .misplacedTag else rule.identity.1), .take name.length,
        (s.after i).machine.named name rule s.reader.document⟩ := by
  intro s
  have hrule : (s.after i).machine.grammar.dialect.tags.get? (String.ofList name) = some rule := by
    rw [dialect_after, h.rule]
  rw [Machine.step_named_eq h.opened h.form h.reads h.starts hrule, document_after]

/-- Where the tag ends, its body is to be passed over next, and its block is the innermost one. -/
theorem NamesTag.waits (h : (ofString source dialect.lookup).NamesTag dialect i name rule)
    (hk : rule.body? = some kind) (he : (ofString source dialect.lookup).EndsTag i j) :
    let s := ofString source dialect.lookup
    (s.after (j + 1)).machine.phase = .literal ∧
      (s.after (j + 1)).machine.body = some ⟨name, kind⟩ ∧
      (s.after (j + 1)).machine.blocks = if rule.block then (s.after i).machine.blocks.push
        ((s.after i).machine.openedBlock name s.reader.document)
        else (s.after i).machine.blocks := by
  intro s
  obtain ⟨n, rfl⟩ := Nat.exists_eq_add_of_le (Nat.succ_le_of_lt he.lt)
  have hmachine : (s.after (i + 1)).machine =
      (s.after i).machine.named name rule s.reader.document := by
    rw [after_succ, machine_scanHere, h.step_eq]
  have hnamed : (s.after (i + 1)).machine.phase.isNamed = true := by
    rw [hmachine]
    exact rule.isNamed_identity
  have hbody : (s.after (i + 1)).machine.body = some ⟨name, kind⟩ := by
    rw [hmachine, Machine.named, hk]
    rfl
  have hblocks : (s.after (i + 1)).machine.blocks = if rule.block then
      (s.after i).machine.blocks.push ((s.after i).machine.openedBlock name s.reader.document)
      else (s.after i).machine.blocks := by
    rw [hmachine]
    rfl
  obtain ⟨hin, hbody', hkeeps⟩ := named_after (n := n) hnamed fun k hk =>
    he.between (i + 1 + k) (by omega) (by omega)
  have htag := Phase.inTag_of_isNamed hin
  obtain ⟨hbody'', hkeeps', -⟩ :=
    (Machine.step_inTag _ (s.after (i + 1 + n)).reader htag).keeps_body hin
  exact ⟨(Machine.leaves_of_endsTag htag he.ends).phase_eq, hbody''.trans (hbody'.trans hbody),
    hkeeps'.blocks.trans (hkeeps.blocks.trans hblocks)⟩

-- ── the first end tag ────────────────────────────────────────────────────────────

section

variable {γ : Type} [Grammar γ] {s : Scanner γ} {r : Reader} {name : List Char} {p : Nat}

/-- The offset is the first place from `start` on at which the scanner, outside bodies, sees an end
    tag of the given name. -/
structure FirstEndTag (s : Scanner γ) (name : List Char) (start offset : Nat) : Prop where
  le : start ≤ offset
  boundary : IsBoundary offset s.reader.document.chars
  sees : (s.rewind offset).SeesEndTag name
  first : ∀ o, start ≤ o → o < offset → IsBoundary o s.reader.document.chars →
    ¬ (s.rewind o).SeesEndTag name

theorem seesEndTag_rewind_iff (hn : identifier? name = some name)
    (hd : r.document = s.reader.document) (n : Nat) :
    (s.rewind (r.offsetAt n)).SeesEndTag name ↔
      startsScannedEndTag name (r.rest.drop n) = true := by
  have hrest : (s.rewind (r.offsetAt n)).reader.rest = r.rest.drop n := by
    rw [← Reader.dropBytes_offsetAt, dropBytes_eq, hd]
    rfl
  rw [seesEndTag_iff rfl rfl hn, hrest]

/-- In terms of the text, the first end tag is the first place where one begins. -/
theorem firstEndTag_iff (hn : identifier? name = some name)
    (hd : r.document = s.reader.document) : s.FirstEndTag name r.offset p ↔
      ∃ n ≤ r.rest.length, p = r.offsetAt n ∧ startsScannedEndTag name (r.rest.drop n) = true ∧
        ∀ i < n, startsScannedEndTag name (r.rest.drop i) = false := by
  constructor
  · rintro ⟨hle, hbound, hsees, hfirst⟩
    rw [← hd] at hbound
    obtain ⟨n, hn', rfl⟩ := Reader.isBoundary_iff_offsetAt.mp ⟨hbound, hle⟩
    refine ⟨n, hn', rfl, (seesEndTag_rewind_iff hn hd n).mp hsees, fun i hi => ?_⟩
    obtain ⟨hat, hfrom⟩ := Reader.isBoundary_iff_offsetAt.mpr
      ⟨i, Nat.le_of_lt (Nat.lt_of_lt_of_le hi hn'), rfl⟩
    rw [hd] at hat
    have hnot := hfirst _ hfrom (Reader.offsetAt_lt hi hn') hat
    exact Bool.eq_false_iff.mpr fun h => hnot ((seesEndTag_rewind_iff hn hd i).mpr h)
  · rintro ⟨n, hn', rfl, hstarts, hbefore⟩
    obtain ⟨hat, hfrom⟩ := Reader.isBoundary_iff_offsetAt.mpr ⟨n, hn', rfl⟩
    rw [hd] at hat
    refine ⟨hfrom, hat, (seesEndTag_rewind_iff hn hd n).mpr hstarts,
      fun o ho hlt hbound hsees => ?_⟩
    rw [← hd] at hbound
    obtain ⟨i, hi, rfl⟩ := Reader.isBoundary_iff_offsetAt.mp ⟨hbound, ho⟩
    have hin := Reader.lt_of_offsetAt_lt hi hlt
    have hscanned := (seesEndTag_rewind_iff hn hd i).mp hsees
    rw [hbefore i hin] at hscanned
    cases hscanned

/-- Where no misspelt end tag comes first, the search stops at the first one that the scanner
    sees. -/
theorem firstEndTag_iff_search (hn : identifier? name = some name)
    (hd : r.document = s.reader.document) (hplain : EndsPlainly name r.rest) :
    s.FirstEndTag name r.offset p ↔
      ∃ n ≤ r.rest.length, p = r.offsetAt n ∧ Machine.endTagAt? name r.rest = some n := by
  rw [firstEndTag_iff hn hd]
  constructor
  · rintro ⟨n, hle, rfl, hscanned, hbefore⟩
    refine ⟨n, hle, rfl, ?_⟩
    obtain ⟨k, hk, hsearch⟩ := Machine.exists_endTagAt?_le (startsEndTag_of_scanned hscanned)
    rcases Nat.lt_or_eq_of_le hk with hlt | rfl
    · have hfound := Machine.endsPlainly_iff.mp hplain k hsearch
      rw [hbefore k hlt] at hfound
      cases hfound
    · exact hsearch
  · rintro ⟨n, hle, rfl, hsearch⟩
    obtain ⟨-, hfirst⟩ := Machine.endTagAt?_eq_some_iff.mp hsearch
    refine ⟨n, hle, rfl, Machine.endsPlainly_iff.mp hplain n hsearch,
      fun i hi => Bool.eq_false_iff.mpr fun hscanned => ?_⟩
    have hat := startsEndTag_of_scanned hscanned
    rw [hfirst i hi] at hat
    cases hat

/-- Scan `n` passes over a body up to the offset `stop`, as a token of the given kind, or as none
    where nothing stands before that offset. -/
structure PassesTo (s : Scanner γ) (n : Nat) (kind : TokenKind) (stop : Nat) : Prop where
  event : s.eventAt n = if (s.after n).reader.offset = stop then .text else .token kind
  start : (s.after (n + 1)).reader.start = (s.after n).reader.offset
  ends : (s.after (n + 1)).reader.offset = stop
  text : s.reader.document.slice? (s.after n).reader.offset stop =
    some (s.after (n + 1)).reader.token

/-- A body that is pending is passed over to where the search stops. -/
theorem passesTo_of_step {n k : Nat} {kind : TokenKind} {m : Machine γ}
    (h : (s.after n).machine.step (s.after n).reader =
      ⟨if k = 0 then .text else .token kind, .take k, m⟩)
    (hk : k ≤ (s.after n).reader.rest.length) :
    s.PassesTo n kind ((s.after n).reader.offsetAt k) := by
  have hreader : (s.after (n + 1)).reader = (s.after n).reader.capture k := by
    rw [after_succ, reader_scanHere, h]
    rfl
  have hstart : (s.after (n + 1)).reader.start = (s.after n).reader.offset := by
    rw [hreader, Reader.start_capture]
  have hstop : (s.after (n + 1)).reader.offset = (s.after n).reader.offsetAt k := by
    rw [hreader, Reader.offset_capture]
  refine ⟨?_, hstart, hstop, ?_⟩
  · rw [eventAt, event_scanHere, h]
    cases k with
    | zero => rw [if_pos rfl, if_pos (Reader.offsetAt_zero _).symm]
    | succ k =>
        have hlt := Reader.offsetAt_lt (Nat.succ_pos k) hk
        rw [Reader.offsetAt_zero] at hlt
        rw [if_neg (Nat.succ_ne_zero k), if_neg (Nat.ne_of_lt hlt)]
  · rw [← hstart, ← hstop, ← document_after s (n + 1)]
    exact Reader.slice?_token _

end

-- ── the notices ──────────────────────────────────────────────────────────────────

/-- What no open block starts at is not reported in the end. -/
theorem not_notice_of_closed {e o : Nat}
    (he : (ofString source dialect.lookup).eventAt e ≠ .finished)
    (hp : ((ofString source dialect.lookup).after (e + 1)).machine.phase ≠ .opened)
    (ho : o < ((ofString source dialect.lookup).after (e + 1)).reader.offset)
    (hno : ∀ b ∈ ((ofString source dialect.lookup).after (e + 1)).machine.blocks.entries,
      b.span.start ≠ o) :
    ∀ notice ∈ (tokenize source dialect.lookup).notices, notice.span.start ≠ o := by
  obtain ⟨n, hend, hbefore, heq⟩ := tokenize_eq source dialect.lookup
  have hlt : e < n := by
    refine Nat.lt_of_not_le fun hle => ?_
    rcases Nat.lt_or_eq_of_le hle with hlt | rfl
    · exact not_finished_of_not_finished he n hlt hend
    · exact he hend
  obtain ⟨d, rfl⟩ := Nat.exists_eq_add_of_le (Nat.succ_le_of_lt hlt)
  obtain ⟨old, new, hsplit, hold, hnew⟩ := (openedSince_after hp d).split
  obtain ⟨-, hunflushed⟩ := follows_after source dialect hbefore
  obtain ⟨hr, hout⟩ := Machine.step_finished_iff.mp hend
  have hnotices : (tokenize source dialect.lookup).notices =
      ((ofString source dialect.lookup).after (e + 1 + d)).machine.blocks.notices
        ((ofString source dialect.lookup).after (e + 1 + d)).reader.document.size := by
    rw [heq, after_succ, machine_scanHere, Machine.step_atEnd hout hr]
    show (Machine.flush _ _).notices = _
    rw [Machine.flush, if_neg (by rw [hunflushed.flushed]; exact Bool.false_ne_true)]
    show _ ++ _ = _
    rw [hunflushed.notices, List.nil_append]
  intro notice hmem
  rw [hnotices, Blocks.notices, hsplit] at hmem
  obtain ⟨b, hb, rfl⟩ := List.mem_map.mp hmem
  show b.span.start ≠ o
  rcases List.mem_append.mp hb with hb | hb
  · exact hno b (hold.subset hb)
  · exact Nat.ne_of_gt (Nat.lt_of_lt_of_le ho (hnew b hb))

-- ── the body ─────────────────────────────────────────────────────────────────────

/-- The body is passed over to where the search stops, and the scanner is back in literal text. -/
theorem NamesTag.stops (h : (ofString source dialect.lookup).NamesTag dialect i name rule)
    (hk : rule.body? = some kind) (he : (ofString source dialect.lookup).EndsTag i j) {n : Nat}
    (hn : Machine.endTagAt? name ((ofString source dialect.lookup).after (j + 1)).reader.rest =
      some n) :
    let s := ofString source dialect.lookup
    s.PassesTo (j + 1) kind ((s.after (j + 1)).reader.offsetAt n) ∧
      (s.after (j + 2)).reader = (s.after (j + 1)).reader.capture n ∧
      (s.after (j + 2)).machine =
        { (s.after (j + 1)).machine with phase := .literal, body := none } := by
  intro s
  obtain ⟨hp, hb, -⟩ := h.waits hk he
  have hlt : n < (s.after (j + 1)).reader.rest.length :=
    lt_length_of_startsEndTag (Machine.endTagAt?_eq_some_iff.mp hn).1
  have hr : (s.after (j + 1)).reader.atEnd = false := List.isEmpty_eq_false_iff.mpr
    (List.length_pos_iff.mp (Nat.zero_lt_of_lt hlt))
  have hstep : (s.after (j + 1)).machine.step (s.after (j + 1)).reader =
      ⟨if n = 0 then .text else .token kind, .take n,
        { (s.after (j + 1)).machine with phase := .literal, body := none }⟩ := by
    rw [Machine.step_body hp hb hr, Machine.stepBody, hn]
  refine ⟨passesTo_of_step hstep (Nat.le_of_lt hlt), ?_, ?_⟩
  · rw [after_succ, reader_scanHere, hstep]
    rfl
  · rw [after_succ, machine_scanHere, hstep]

/-- Where the search stops at an end tag that the scanner takes, the scanner goes on with it. -/
theorem NamesTag.passes_to_endTag
    (h : (ofString source dialect.lookup).NamesTag dialect i name rule)
    (hk : rule.body? = some kind) (he : (ofString source dialect.lookup).EndsTag i j) {n : Nat}
    (hn : Machine.endTagAt? name ((ofString source dialect.lookup).after (j + 1)).reader.rest =
      some n)
    (hscanned : startsScannedEndTag name
      (((ofString source dialect.lookup).after (j + 1)).reader.rest.drop n) = true) :
    let s := ofString source dialect.lookup
    s.PassesTo (j + 1) kind ((s.after (j + 1)).reader.offsetAt n) ∧
      ∃ k, (s.after (j + 2)).FindsEndTag k name ∧ (rule.block = true →
        s.pairAfter (j + 2 + (1 + k) + 1) = some (s.after i).machine.tag.node ∧
        ∀ notice ∈ (tokenize source dialect.lookup).notices,
          notice.span.start ≠ (s.after i).machine.tag.start) := by
  intro s
  obtain ⟨-, -, hblocks⟩ := h.waits hk he
  obtain ⟨hpasses, hreader, hmachine⟩ := h.stops hk he hn
  refine ⟨hpasses, ?_⟩
  obtain ⟨k, hfinds, hopened, htake⟩ := exists_findsEndTag (s := s.after (j + 2))
    (by rw [hmachine]) (by rw [hmachine]) (identifier?_self h.reads)
    (by rw [hreader]; exact hscanned)
  refine ⟨k, hfinds, fun hblock => ?_⟩
  -- the scan of the end tag finds the block as the innermost one
  have hends : (s.after (j + 2 + (1 + k) + 1)).machine =
      ((s.after (j + 2 + (1 + k))).machine.takeEndTag ("end".toList ++ name) name).machine := by
    rw [after_succ, machine_scanHere, after_add, htake]
  have hpushed : (s.after (j + 2 + (1 + k))).machine.blocks = (s.after i).machine.blocks.push
      ((s.after i).machine.openedBlock name s.reader.document) := by
    rw [if_pos hblock] at hblocks
    rw [after_add, hopened, ← hblocks]
    show (s.after (j + 2)).machine.blocks = _
    rw [hmachine]
  have hclosed : (s.after (j + 2 + (1 + k) + 1)).machine.blocks = (s.after i).machine.blocks := by
    rw [hends]
    show (s.after (j + 2 + (1 + k))).machine.blocks.close (String.ofList name) = _
    rw [hpushed]
    exact Blocks.close_push_self _ _
  have hordered := (ordered_after source dialect.lookup i).opened h.opened
  constructor
  · show (s.after (j + 2 + (1 + k) + 1)).machine.pair = _
    rw [hends]
    show ((s.after (j + 2 + (1 + k))).machine.blocks.nearest? (String.ofList name)).map _ = _
    rw [hpushed]
    exact congrArg (Option.map Block.node) (Blocks.nearest?_push_self _ _)
  · refine not_notice_of_closed (e := j + 2 + (1 + k)) ?_ ?_ ?_ fun b hb => ?_
    · rw [eventAt_add, hfinds.ends]
      rintro ⟨⟩
    · show (s.after (j + 2 + (1 + k) + 1)).machine.phase ≠ .opened
      rw [hends]
      rintro ⟨⟩
    · refine Nat.lt_of_lt_of_le hordered.1 ?_
      have hij := he.lt
      obtain ⟨d, hd⟩ := Nat.exists_eq_add_of_le (show i ≤ j + 2 + (1 + k) + 1 by omega)
      rw [hd]
      exact offset_le_after s i d
    · exact Nat.ne_of_lt (hordered.2 b (hclosed ▸ hb))

/-- **The end of a body.**  In any text and any dialect, let a tag with a body that is passed over
    end, and let no misspelt end tag come in the text behind it before one that the scanner takes.
    Then the next scan passes over the body in one piece, up to the first place where the scanner
    sees the end tag, which is found next and closes the block of the tag, so that no notice is left
    for it; or, when the scanner sees none, up to the end of the text. -/
theorem body_ends_at_endTag (source : String) (dialect : Dialect)
    (h : (ofString source dialect.lookup).NamesTag dialect i name rule)
    (hk : rule.body? = some kind) (he : (ofString source dialect.lookup).EndsTag i j)
    (hplain : EndsPlainly name ((ofString source dialect.lookup).after (j + 1)).reader.rest) :
    let s := ofString source dialect.lookup
    let c := (s.after (j + 1)).reader.offset
    (∀ p, s.FirstEndTag name c p →
      s.PassesTo (j + 1) kind p ∧ ∃ k, (s.after (j + 2)).FindsEndTag k name ∧ (rule.block = true →
        s.pairAfter (j + 2 + (1 + k) + 1) = some (s.after i).machine.tag.node ∧
        ∀ notice ∈ (tokenize source dialect.lookup).notices,
          notice.span.start ≠ (s.after i).machine.tag.start)) ∧
      ((∀ p, ¬ s.FirstEndTag name c p) →
        (c < source.utf8ByteSize → s.PassesTo (j + 1) kind source.utf8ByteSize) ∧
        (c = source.utf8ByteSize → s.eventAt (j + 1) = .finished)) := by
  intro s c
  have hself := identifier?_self h.reads
  have hfirst : ∀ p, s.FirstEndTag name c p ↔ ∃ n ≤ (s.after (j + 1)).reader.rest.length,
      p = (s.after (j + 1)).reader.offsetAt n ∧
        Machine.endTagAt? name (s.after (j + 1)).reader.rest = some n := fun p =>
    firstEndTag_iff_search hself (document_after s (j + 1)) hplain
  constructor
  · intro p hp
    obtain ⟨n, -, rfl, hn⟩ := (hfirst p).mp hp
    exact h.passes_to_endTag hk he hn (Machine.endsPlainly_iff.mp hplain n hn)
  · intro hnone
    obtain ⟨hp, hb, -⟩ := h.waits hk he
    have hall := (s.after (j + 1)).reader.offset_add_rest
    have hsize : (s.after (j + 1)).reader.document.size = source.utf8ByteSize := by
      rw [document_after]
      exact byteSize_toList source
    rw [hsize] at hall
    constructor
    · intro hlt
      have hne : (s.after (j + 1)).reader.rest ≠ [] := by
        intro hnil
        rw [hnil, byteSize_nil, Nat.add_zero] at hall
        exact absurd hall (Nat.ne_of_lt hlt)
      have hr : (s.after (j + 1)).reader.atEnd = false := List.isEmpty_eq_false_iff.mpr hne
      have hlen : (s.after (j + 1)).reader.rest.length ≠ 0 := fun h0 =>
        hne (List.length_eq_zero_iff.mp h0)
      have hstep : (s.after (j + 1)).machine.step (s.after (j + 1)).reader =
          ⟨if (s.after (j + 1)).reader.rest.length = 0 then .text else .token kind,
            .take (s.after (j + 1)).reader.rest.length,
            { (s.after (j + 1)).machine with phase := .literal }⟩ := by
        rw [if_neg hlen, Machine.step_body hp hb hr, Machine.stepBody]
        cases hn : Machine.endTagAt? name (s.after (j + 1)).reader.rest with
        | none => rfl
        | some n =>
            have hle := Nat.le_of_lt
              (lt_length_of_startsEndTag (Machine.endTagAt?_eq_some_iff.mp hn).1)
            exact absurd ((hfirst _).mpr ⟨n, hle, rfl, hn⟩) (hnone _)
      have hpasses := passesTo_of_step hstep (Nat.le_refl _)
      rwa [Reader.offsetAt, List.take_length, hall] at hpasses
    · intro heq
      have hrest : byteSize (s.after (j + 1)).reader.rest = 0 := by
        have hc : (s.after (j + 1)).reader.offset = source.utf8ByteSize := heq
        omega
      exact Machine.step_finished_iff.mpr
        ⟨List.isEmpty_iff.mpr (byteSize_eq_zero.mp hrest), by rw [hp]; rfl⟩

theorem body_ends_at_endTag_raw :
    let s := ofString "\x7b%raw%\x7da\x7b%endraw%\x7d" Dialect.standard.lookup
    let name := "raw".toList
    s.NamesTag Dialect.standard 1 name (TagRule.ofKind .raw).asBlock ∧ s.EndsTag 1 2 ∧
      s.FirstEndTag name 7 8 ∧ s.PassesTo 3 .rawBody 8 ∧
      ∃ k, (s.after 4).FindsEndTag k name ∧ s.pairAfter (4 + (1 + k) + 1) = some 0 := by
  intro s name
  obtain ⟨hopened, hform, hreads, hnode, hclosed⟩ :
      (s.after 1).machine.phase = .opened ∧ (s.after 1).machine.tag.form = .statement ∧
        identifier? (s.after 1).reader.rest = some name ∧ (s.after 1).machine.tag.node = 0 ∧
        (s.eventAt 2).endsTag = true := by
    decide +kernel
  obtain ⟨hrest, hoffset⟩ : (s.after 3).reader.rest = "a\x7b%endraw%\x7d".toList ∧
      7 = (s.after 3).reader.offset ∧ 8 = (s.after 3).reader.offsetAt 1 := by
    decide +kernel
  have hnames : s.NamesTag Dialect.standard 1 name (TagRule.ofKind .raw).asBlock :=
    ⟨hopened, hform, hreads, rfl, by decide +kernel⟩
  have hends : s.EndsTag 1 2 := ⟨by decide, hclosed, fun k hk hk' => by omega⟩
  have hfirst : s.FirstEndTag name 7 8 := by
    rw [hoffset.1, hoffset.2, firstEndTag_iff rfl (document_after s 3), hrest]
    exact ⟨1, by decide, rfl, by decide, by decide⟩
  have hplain : EndsPlainly name (s.after 3).reader.rest := by
    have hsearch : Machine.endTagAt? name "a\x7b%endraw%\x7d".toList = some 1 := by decide
    rw [hrest, Machine.endsPlainly_iff]
    intro n hn
    obtain rfl := Option.some.inj (hsearch.symm.trans hn)
    decide
  rw [hoffset.1] at hfirst
  obtain ⟨hpass, k, hfinds, hpair⟩ :=
    (body_ends_at_endTag _ Dialect.standard hnames rfl hends hplain).1 8 hfirst
  rw [← hoffset.1] at hfirst
  exact ⟨hnames, hends, hfirst, hpass, k, hfinds, (hpair rfl).1.trans (congrArg some hnode)⟩

/-- **Where the condition fails**, the body stops too early: at a misspelt end tag, of which the
    scanner then makes no end tag. -/
theorem body_stops_at_misspelling (source : String) (dialect : Dialect)
    (h : (ofString source dialect.lookup).NamesTag dialect i name rule)
    (hk : rule.body? = some kind) (he : (ofString source dialect.lookup).EndsTag i j)
    (hmisspelt :
      ¬ EndsPlainly name ((ofString source dialect.lookup).after (j + 1)).reader.rest) :
    let s := ofString source dialect.lookup
    ∃ n, MisspeltEndTag name ((s.after (j + 1)).reader.rest.drop n) ∧
      s.PassesTo (j + 1) kind ((s.after (j + 1)).reader.offsetAt n) ∧
      ¬ (s.after (j + 2)).SeesEndTag name := by
  intro s
  simp only [Machine.endsPlainly_iff, not_forall] at hmisspelt
  obtain ⟨n, hn, hscanned⟩ := hmisspelt
  obtain ⟨hpasses, hreader, hmachine⟩ := h.stops hk he hn
  refine ⟨n, misspeltEndTag_iff.mpr
    ⟨(Machine.endTagAt?_eq_some_iff.mp hn).1, Bool.eq_false_iff.mpr hscanned⟩, hpasses, ?_⟩
  rw [seesEndTag_iff (by rw [hmachine]) (by rw [hmachine]) (identifier?_self h.reads), hreader]
  exact hscanned

/-- The search lets any number of dashes stand before the name, and the scanner but one: the body
    stops where the scanner finds no end tag, and the block is reported. -/
theorem body_stops_at_dashes :
    let source := "\x7b%raw%\x7da\x7b%--endraw%\x7d"
    let s := ofString source Dialect.standard.lookup
    let name := "raw".toList
    s.NamesTag Dialect.standard 1 name (TagRule.ofKind .raw).asBlock ∧ s.EndsTag 1 2 ∧
      (∀ p, ¬ s.FirstEndTag name 7 p) ∧ s.PassesTo 3 .rawBody 8 ∧ ¬ (s.after 4).SeesEndTag name ∧
      (tokenize source Dialect.standard.lookup).notices.map Notice.tag = ["raw"] := by
  intro source s name
  obtain ⟨hopened, hform, hreads, hclosed⟩ :
      (s.after 1).machine.phase = .opened ∧ (s.after 1).machine.tag.form = .statement ∧
        identifier? (s.after 1).reader.rest = some name ∧ (s.eventAt 2).endsTag = true := by
    decide +kernel
  obtain ⟨hrest, hoffset, hevent, htoken⟩ :
      (s.after 3).reader.rest = "a\x7b%--endraw%\x7d".toList ∧
        7 = (s.after 3).reader.offset ∧ s.eventAt 3 = .token .rawBody ∧
        s.reader.document.slice? 7 8 = some (s.after 4).reader.token := by
    decide +kernel
  obtain ⟨hstart, hstop, hrest', hliteral, hbody⟩ :
      (s.after 4).reader.start = 7 ∧ (s.after 4).reader.offset = 8 ∧
        (s.after 4).reader.rest = "\x7b%--endraw%\x7d".toList ∧
        (s.after 4).machine.phase = .literal ∧ (s.after 4).machine.body = none := by
    decide +kernel
  refine ⟨⟨hopened, hform, hreads, rfl, by decide +kernel⟩,
    ⟨by decide, hclosed, fun k hk hk' => by omega⟩, fun p hp => ?_,
    ⟨?_, hstart.trans hoffset, hstop, hoffset ▸ htoken⟩, ?_, by decide +kernel⟩
  · rw [hoffset, firstEndTag_iff rfl (document_after s 3), hrest] at hp
    obtain ⟨n, hn, -, hscanned, -⟩ := hp
    have hnone : ∀ n ≤ "a\x7b%--endraw%\x7d".toList.length,
        startsScannedEndTag name ("a\x7b%--endraw%\x7d".toList.drop n) = false := by decide
    rw [hnone n hn] at hscanned
    cases hscanned
  · rw [← hoffset, hevent]
    rfl
  · rw [seesEndTag_iff hliteral hbody rfl, hrest']
    decide

end Scanner

end TemplateScan
