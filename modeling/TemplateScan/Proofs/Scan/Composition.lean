import TemplateScan.Proofs.Scan.Relocation
import TemplateScan.Proofs.Scan.Rewind
import TemplateScan.Proofs.Scan.TrimDash

/-! # Composition — two documents, one behind the other

    Let the scan of a text end with the close delimiter of a tag, with no body to be passed over and
    no block left open.  Then no search in it has looked for anything behind that delimiter, and
    whatever follows is scanned as a document of its own; its places are further on, and its tags
    have other numbers.  Only the pair of the last end tag is held until the next tag opens.

    * **`EndsWithTag`** — the texts behind which another may be set.
    * **`Enclosed`** along a run — no search goes beyond the last close delimiter.
    * **`Scanner.Inside`** — a scan in the middle of a longer document.
    * **`scan_append`** — the scan of two texts, one behind the other. -/

namespace TemplateScan

open Text

-- ── what steps keep ──────────────────────────────────────────────────────────────

/-- The event gives the pair of the last end another value. -/
def Event.setsPair : Event → Bool
  | .token .openDelimiter | .token .endTag | .token .endMarkupName => true
  | _ => false

namespace Machine

variable {γ : Type} [Grammar γ] {ending : Bool} {bound : Nat} {m : Machine γ} {r : Reader}
  {reply : Reply γ}

/-- The name of the body to be passed over, if there is one, is one of a tag. -/
def BodyNamed (m : Machine γ) : Prop :=
  ∀ body, m.body = some body → '}' ∉ body.name

/-- The body that is set by a tag has the name of that tag. -/
theorem bodyNamed_step (hm : m.BodyNamed) (r : Reader) : (m.step r).machine.BodyNamed :=
  forall_body_step hm fun hn _ hmem =>
    absurd ((identifier?_eq_some hn).2.2 _ hmem) (by decide)

/-- Outside tags no step goes beyond the text. -/
theorem TextStep.count_le (h : TextStep m r reply) : reply.extent.count ≤ r.rest.length := by
  cases h with
  | @body body _ =>
      rw [stepBody]
      split
      · next n hn =>
          obtain ⟨hat, -⟩ := endTagAt?_eq_some_iff.mp hn
          rw [startsEndTag, Bool.and_eq_true, List.isPrefixOf_iff_prefix] at hat
          have := add_length_le_of_prefix hat.1 (by decide)
          show n ≤ _
          omega
      · exact Nat.le_refl _
  | @opens form _ hf => exact hf.length_le
  | element _ hr hn =>
      have hle := (identifier?_eq_some hn).1.length_le
      rw [hr, stepElement]
      split <;>
        · show 1 + _ ≤ _
          rw [List.length_cons]
          omega
  | endElement _ hr hn =>
      have hle := (identifier?_eq_some hn).1.length_le
      rw [hr, stepEndElement]
      split <;>
        · show 2 + _ ≤ _
          rw [List.length_cons, List.length_cons]
          omega
  | text _ _ hc | markup _ _ hc _ _ _ _ | space _ _ hc _ => exact hc.le_length
  | selfClose hs _ => exact hs.length_le
  | leave _ => exact Nat.zero_le _

/-- No step takes more characters than there are. -/
theorem step_count_le (m : Machine γ) (r : Reader) :
    (m.step r).extent.count ≤ r.rest.length := by
  cases hp : m.phase.inTag with
  | true => exact (step_inTag m r hp).count_le
  | false =>
      cases hr : r.atEnd with
      | false => exact (step_outside m r hp hr).count_le
      | true =>
          rw [step_atEnd hp hr]
          exact Nat.zero_le _

/-- Inside a tag the pair is set by an end tag, and by nothing else. -/
theorem TagStep.pair_eq (h : TagStep ending bound m r reply)
    (he : reply.event.setsPair = false) : reply.machine.pair = m.pair := by
  cases h with
  | @startTag g name _ _ _ _ =>
      obtain ⟨kind, blocks, -, heq⟩ := takeStartTag_eq { m with grammar := g } name r.document
      rw [heq]
  | endTag _ _ _ _ _ => cases he
  | _ => rfl

/-- Outside tags the pair is set where a tag opens or an element ends. -/
theorem TextStep.pair_eq (hr : r.rest ≠ []) (h : TextStep m r reply)
    (he : reply.event.setsPair = false) : reply.machine.pair = m.pair := by
  cases h with
  | @body body _ =>
      obtain ⟨n, event, kept, heq, -, -⟩ := stepBody_eq m body hr
      rw [heq]
  | opens _ _ => cases he
  | element _ _ _ =>
      rw [stepElement]
      split <;> rfl
  | endElement _ _ _ =>
      rw [stepEndElement] at he ⊢
      split at he
      · cases he
      · next hno =>
          rw [if_neg hno]
          rfl
  | _ => rfl

/-- The pair of the last end is kept until a tag opens, or another end is found. -/
theorem pair_step (m : Machine γ) (r : Reader) (he : (m.step r).event.setsPair = false) :
    (m.step r).machine.pair = m.pair := by
  cases hp : m.phase.inTag with
  | true => exact (step_inTag m r hp).pair_eq he
  | false =>
      cases hr : r.atEnd with
      | false => exact (step_outside m r hp hr).pair_eq (List.isEmpty_eq_false_iff.mp hr) he
      | true =>
          rw [step_atEnd hp hr, flush]
          split <;> rfl

/-- The close delimiter is taken whole, and leads out of the tag. -/
theorem step_of_closes (hm : m.BodySound) (h : (m.step r).event = .token .closeDelimiter ∨
    (m.step r).event = .token .endDelimiter) :
    (m.step r).extent = .take m.tag.form.closer.length ∧ (m.step r).machine.phase = .literal := by
  obtain ⟨hin, -⟩ := closer_of_closes hm h
  have hends : (m.step r).event.endsTag = true := by
    rcases h with h | h <;> rw [h] <;> rfl
  cases leaves_of_endsTag hin hends with
  | closed _ _ hx hp _ => exact ⟨hx, hp⟩
  | abandoned _ he _ _ _ => rcases h with h | h <;> rw [h] at he <;> cases he

omit [Grammar γ] in
/-- At the end of the longer document nothing is left to go beyond. -/
theorem enclosed_nil (m : Machine γ) (text : List Char) : m.Enclosed text [] :=
  ⟨fun _ => Or.inl rfl, fun _ _ => Or.inl rfl, fun _ _ _ => Or.inl rfl⟩

end Machine

-- ── the last tag ─────────────────────────────────────────────────────────────────

namespace Scanner

variable {γ : Type} [Grammar γ] {s t : Scanner γ} {front back next : List Char} {n : Nat}

/-- After any number of scans the body has a name. -/
theorem bodyNamed_after (source : String) (grammar : γ) (n : Nat) :
    ((ofString source grammar).after n).machine.BodyNamed := by
  induction n with
  | zero => exact nofun
  | succ n ih => exact Machine.bodyNamed_step ih _

/-- The brace of its open delimiter is behind everything that is scanned in a tag. -/
theorem brace_behind (source : String) (grammar : γ) (n : Nat)
    (h : ((ofString source grammar).after n).machine.phase.inTag = true) :
    '{' ∈ ((ofString source grammar).after n).reader.behind := by
  induction n with
  | zero => cases h
  | succ n ih =>
      rw [← List.mem_reverse, after_succ, reader_scanHere, behind_apply, List.mem_append]
      rw [after_succ, machine_scanHere] at h
      cases hp : ((ofString source grammar).after n).machine.phase.inTag with
      | true => exact Or.inl (List.mem_reverse.mpr (ih hp))
      | false =>
          obtain ⟨form, hf, heq⟩ := Machine.step_enters hp h
          right
          rw [heq]
          show '{' ∈ List.take form.opener.length _
          rw [← List.prefix_iff_eq_take.mp hf]
          cases form <;> decide

/-- Scan `n` takes the close delimiter of a tag, and that is the rest of the text. -/
structure ClosesLast (s : Scanner γ) (n : Nat) : Prop where
  closes : s.eventAt n = .token .closeDelimiter ∨ s.eventAt n = .token .endDelimiter
  rest : (s.after n).reader.rest = (s.after n).machine.tag.form.closer

/-- Of the tag that is scanned an end comes, and outside tags another tag. -/
structure StopsAhead (s : Scanner γ) : Prop where
  closed : EndsClosed s.reader.rest
  inTag : s.machine.phase.inTag = true →
    ∃ p ∈ s.machine.tag.form.stringStops, ∃ i, p <+: s.reader.rest.drop i
  outside : s.machine.phase.inTag = false → ∃ p ∈ openers, ∃ i, p <+: s.reader.rest.drop i

/-- A scan takes its text from the front of the rest. -/
theorem rest_scanHere (s : Scanner γ) : s.scanHere.2.reader.rest =
    s.reader.rest.drop (s.machine.step s.reader).extent.count := by
  rw [reader_scanHere, rest_apply]

/-- What comes after a scan comes before it. -/
theorem occurs_before {p : List Char} {i : Nat} (h : p <+: s.scanHere.2.reader.rest.drop i) :
    ∃ i, p <+: s.reader.rest.drop i := by
  rw [rest_scanHere, List.drop_drop] at h
  exact ⟨_, h⟩

/-- One scan may also come first. -/
theorem after_succ_left (s : Scanner γ) (n : Nat) : s.after (n + 1) = s.scanHere.2.after n := by
  rw [Nat.add_comm, after_add]
  rfl

/-- One scan later the end comes one scan sooner. -/
theorem ClosesLast.scanHere (h : s.ClosesLast (n + 1)) : s.scanHere.2.ClosesLast n := by
  obtain ⟨hcloses, hrest⟩ := h
  rw [eventAt, after_succ_left] at hcloses
  rw [after_succ_left] at hrest
  exact ⟨hcloses, hrest⟩

/-- Before the last tag is closed, its end is ahead, and its open delimiter before that. -/
theorem ClosesLast.stopsAhead (hm : s.machine.BodySound) (h : s.ClosesLast n) : s.StopsAhead := by
  induction n generalizing s with
  | zero =>
      obtain ⟨hin, hcloser⟩ := Machine.closer_of_closes hm h.closes
      have hrest : s.reader.rest = s.machine.tag.form.closer := h.rest
      refine ⟨⟨s.machine.tag.form, ?_⟩, fun _ => ?_, fun hout => ?_⟩
      · exact hrest ▸ List.suffix_refl _
      · exact ⟨_, List.mem_cons_self .., 0, hcloser⟩
      · exact absurd (hin.symm.trans hout) nofun
  | succ n ih =>
      obtain ⟨hclosed, hin, hout⟩ := ih (Machine.bodySound_step hm _) h.scanHere
      refine ⟨?_, fun hp => ?_, fun hp => ?_⟩
      · obtain ⟨form, hsuffix⟩ := hclosed
        rw [rest_scanHere] at hsuffix
        exact ⟨form, hsuffix.trans (List.drop_suffix _ _)⟩
      · rcases Machine.step_stays_or_leaves hp s.reader with hstay | hleave
        · obtain ⟨p, hmem, i, hi⟩ := hin hstay.inTag
          have htag : s.scanHere.2.machine.tag = s.machine.tag := hstay.tag_eq
          rw [htag] at hmem
          exact ⟨p, hmem, occurs_before hi⟩
        · obtain ⟨p, hmem, i, hi⟩ := hout (by rw [machine_scanHere, hleave.phase_eq]; rfl)
          refine ⟨p, ?_, occurs_before hi⟩
          rw [stringStops_eq]
          exact List.mem_cons_of_mem _ hmem
      · have hr : s.reader.atEnd = false := by
          rw [Reader.atEnd, List.isEmpty_eq_false_iff]
          intro hnil
          have hlen := hclosed.two_le_length
          rw [rest_scanHere, hnil, List.drop_nil] at hlen
          exact absurd hlen (by decide)
        rcases Machine.step_opens_or_stays hp hr with ⟨form, hf, -⟩ | ⟨-, hstill, -, -⟩
        · refine ⟨form.opener, ?_, 0, hf⟩
          cases form <;> decide
        · obtain ⟨p, hmem, i, hi⟩ := hout hstill
          exact ⟨p, hmem, occurs_before hi⟩

/-- No search of a scan goes beyond the close delimiter that comes last. -/
theorem ClosesLast.enclosed (hm : s.machine.BodySound) (hn : s.machine.BodyNamed)
    (h : s.ClosesLast n) (next : List Char) :
    s.machine.Enclosed s.reader.rest next := by
  have hahead := h.stopsAhead hm
  refine ⟨fun hp => Or.inr ⟨hahead.closed, hahead.inTag hp⟩,
    fun hp _ => Or.inr ⟨hahead.closed, hahead.outside hp⟩, fun hp body hb => Or.inr ?_⟩
  refine ⟨hahead.closed, hn body hb, ?_⟩
  cases hat : Machine.endTagAt? body.name s.reader.rest with
  | some k => exact ⟨k, rfl⟩
  | none =>
      -- without an end tag the body would be the rest of the text
      cases n with
      | zero =>
          obtain ⟨hin, -⟩ := Machine.closer_of_closes hm h.closes
          have hout : s.machine.phase.inTag = false := by
            rw [hp]
            rfl
          exact absurd (hin.symm.trans hout) nofun
      | succ n =>
          have hlen := (h.scanHere.stopsAhead (Machine.bodySound_step hm _)).closed.two_le_length
          have hr : s.reader.atEnd = false := by
            rw [Reader.atEnd, List.isEmpty_eq_false_iff]
            intro hnil
            rw [rest_scanHere, hnil, List.drop_nil] at hlen
            exact absurd hlen (by decide)
          rw [rest_scanHere, Machine.step_body hp hb hr, Machine.stepBody, hat] at hlen
          rw [show (Extent.take s.reader.rest.length).count = s.reader.rest.length from rfl,
            List.drop_length] at hlen
          exact absurd hlen (by decide)

-- ── inside a longer document ─────────────────────────────────────────────────────

/-- The scanner `t` is where `s` is, with more text before and behind the document. -/
structure Inside (front back : List Char) (s t : Scanner γ) : Prop where
  reader : s.reader.Framed front back t.reader
  machine : t.machine = s.machine.moveTo t.reader.document (byteSize front)

section

variable {source : String} {grammar : γ}

/-- The scanner inside the longer document takes the same step, moved. -/
theorem Inside.step_eq
    (h : ((ofString source grammar).after n).Inside front back t)
    (he : ((ofString source grammar).after n).machine.Enclosed
      ((ofString source grammar).after n).reader.rest back) :
    t.machine.step t.reader =
      (((ofString source grammar).after n).machine.step
        ((ofString source grammar).after n).reader).moveTo t.reader.document (byteSize front) := by
  rw [h.machine]
  exact Machine.step_moveTo h.reader he (markupSound_after source grammar n)
    fun hp => ⟨'{', brace_behind source grammar n hp, by decide⟩

/-- As long as no search leaves the document, the scans inside the longer one find the same. -/
theorem Inside.after (h : (ofString source grammar).Inside front back t)
    (he : ∀ i < n, ((ofString source grammar).after i).machine.Enclosed
      ((ofString source grammar).after i).reader.rest back) :
    ((ofString source grammar).after n).Inside front back (t.after n) ∧
      ∀ i < n, t.eventAt i = (ofString source grammar).eventAt i := by
  induction n with
  | zero => exact ⟨h, fun i hi => absurd hi (Nat.not_lt_zero i)⟩
  | succ n ih =>
      obtain ⟨hn, hevents⟩ := ih fun i hi => he i (Nat.lt_succ_of_lt hi)
      have hstep := hn.step_eq (he n (Nat.lt_succ_self n))
      have hcount := Machine.step_count_le ((ofString source grammar).after n).machine
        ((ofString source grammar).after n).reader
      refine ⟨⟨?_, ?_⟩, fun i hi => ?_⟩
      · rw [after_succ, after_succ, reader_scanHere, reader_scanHere, hstep]
        exact hn.reader.apply hcount
      · rw [after_succ, after_succ, machine_scanHere, machine_scanHere, reader_scanHere,
          document_apply, hstep]
        rfl
      · rcases Nat.lt_succ_iff_lt_or_eq.mp hi with hi | rfl
        · exact hevents i hi
        · rw [eventAt, event_scanHere, hstep]
          rfl

/-- The tokens found inside the longer document are those of the document, moved. -/
theorem Inside.tokenAt (h : (ofString source grammar).Inside front back t)
    (he : ∀ i < n + 1, ((ofString source grammar).after i).machine.Enclosed
      ((ofString source grammar).after i).reader.rest back) :
    t.tokenAt n = ((ofString source grammar).tokenAt n).map
      (Token.moveTo t.reader.document (byteSize front)) := by
  obtain ⟨hlater, hevents⟩ := h.after he
  rw [Scanner.tokenAt, Scanner.tokenAt, hevents n (Nat.lt_succ_self n)]
  cases (ofString source grammar).eventAt n with
  | token kind =>
      simp only [tokenOf, hlater.reader.span, document_after]
      rfl
  | text => rfl
  | finished => rfl

end

-- ── where the first text ends ────────────────────────────────────────────────────

variable {a b source : String} {dialect : Dialect}

/-- The scan of the text ends with the close delimiter of a tag.  No body is to be passed over then,
    and no block is reported. -/
structure EndsWithTag (source : String) (dialect : Dialect) : Prop where
  closes : ∃ token, (tokenize source dialect.lookup).tokens.getLast? = some token ∧
    (token.kind = .closeDelimiter ∨ token.kind = .endDelimiter) ∧
    token.span.stop = (Document.ofString source).size
  no_body : ∀ n, (ofString source dialect.lookup).eventAt n = .finished →
    (∀ i < n, (ofString source dialect.lookup).eventAt i ≠ .finished) →
    ((ofString source dialect.lookup).after n).machine.body = none
  no_notices : (tokenize source dialect.lookup).notices = []

/-- After `n` scans the end is reached, right behind a tag, and nothing is left to be done. -/
structure DoneAfter (source : String) (dialect : Dialect) (n : Nat) : Prop where
  rests : (ofString source dialect.lookup).RestsAt n
  rest : ((ofString source dialect.lookup).after n).reader.rest = []
  blocks : ((ofString source dialect.lookup).after n).machine.blocks = ∅
  last : ∃ k, n = k + 1 ∧ (ofString source dialect.lookup).ClosesLast k

/-- When the scanner is done it has reached the end of the document. -/
theorem DoneAfter.finished (h : DoneAfter source dialect n) :
    (ofString source dialect.lookup).eventAt n = .finished := by
  refine Machine.step_finished_iff.mpr ⟨?_, ?_⟩
  · rw [Reader.atEnd, h.rest]
    rfl
  · rw [h.rests.literal]
    rfl

/-- Every token has been found by one of the scans. -/
theorem exists_of_mem_tokensUpTo {token : Token} (h : token ∈ s.tokensUpTo n) :
    ∃ i < n, s.eventAt i = .token token.kind ∧ (s.after (i + 1)).reader.span = token.span := by
  obtain ⟨i, hi, htoken⟩ := List.mem_filterMap.mp h
  refine ⟨i, List.mem_range.mp hi, ?_⟩
  rw [tokenAt] at htoken
  cases he : s.eventAt i with
  | token kind =>
      rw [he] at htoken
      obtain rfl := Option.some.inj htoken
      exact ⟨rfl, rfl⟩
  | text =>
      rw [he] at htoken
      cases htoken
  | finished =>
      rw [he] at htoken
      cases htoken

/-- Where nothing is reported, no block has been left open. -/
theorem blocks_of_no_notices (hend : (ofString source dialect.lookup).eventAt n = .finished)
    (hbefore : ∀ i < n, (ofString source dialect.lookup).eventAt i ≠ .finished)
    (h : (tokenize source dialect.lookup).notices = []) :
    ((ofString source dialect.lookup).after n).machine.blocks = ∅ := by
  obtain ⟨-, hunflushed⟩ := follows_after source dialect hbefore
  obtain ⟨hr, hp⟩ := Machine.step_finished_iff.mp hend
  rw [tokenize_of_finished hend hbefore, after_succ, machine_scanHere, Machine.step_atEnd hp hr,
    Machine.flush, if_neg (by rw [hunflushed.flushed]; exact Bool.false_ne_true)] at h
  have hnone := (List.append_eq_nil_iff.mp h).2
  rw [Blocks.notices, List.map_eq_nil_iff] at hnone
  show _ = (⟨[]⟩ : Blocks)
  rw [← hnone]

/-- The last token is the close delimiter with which the text ends, and nothing comes after it. -/
theorem EndsWithTag.exists_done (h : EndsWithTag source dialect) :
    ∃ n, DoneAfter source dialect n := by
  obtain ⟨⟨token, hlast, hkind, hstop⟩, hbody, hnotices⟩ := h
  obtain ⟨n, hend, hbefore, heq⟩ := tokenize_eq source dialect.lookup
  rw [heq] at hlast
  obtain ⟨k, hk, hevent, hspan⟩ := exists_of_mem_tokensUpTo (List.mem_of_getLast? hlast)
  have hcloses : (ofString source dialect.lookup).eventAt k = .token .closeDelimiter ∨
      (ofString source dialect.lookup).eventAt k = .token .endDelimiter := by
    rw [hevent]
    exact hkind.imp (congrArg _) (congrArg _)
  obtain ⟨hin, hcloser⟩ :=
    Machine.closer_of_closes (bodySound_after source dialect.lookup k) hcloses
  have hrest : ((ofString source dialect.lookup).after (k + 1)).reader.rest = [] := by
    have hsize := Reader.offset_add_rest ((ofString source dialect.lookup).after (k + 1)).reader
    have hoffset : ((ofString source dialect.lookup).after (k + 1)).reader.offset =
        token.span.stop := congrArg Span.stop hspan
    rw [hoffset, hstop, document_after] at hsize
    refine byteSize_eq_zero.mp ?_
    have hsame : (ofString source dialect.lookup).reader.document.size =
        (Document.ofString source).size := rfl
    omega
  obtain ⟨htake, hliteral⟩ :=
    Machine.step_of_closes (bodySound_after source dialect.lookup k) hcloses
  rw [← machine_scanHere, ← after_succ] at hliteral
  have hfinished : (ofString source dialect.lookup).eventAt (k + 1) = .finished := by
    refine Machine.step_finished_iff.mpr ⟨?_, ?_⟩
    · rw [Reader.atEnd, hrest]
      rfl
    · rw [hliteral]
      rfl
  obtain rfl : n = k + 1 := by
    rcases Nat.lt_or_ge (k + 1) n with hlt | hge
    · exact absurd hfinished (hbefore _ hlt)
    · omega
  refine ⟨k + 1, ⟨hliteral, hbody _ hend hbefore, hbefore⟩, hrest,
    blocks_of_no_notices hend hbefore hnotices, k, rfl, hcloses, ?_⟩
  obtain ⟨tail, htail⟩ := hcloser
  rw [after_succ, rest_scanHere, htake, ← htail] at hrest
  have hnil : tail = [] := by
    rw [← hrest]
    exact (List.drop_left ..).symm
  rw [← htail, hnil, List.append_nil]

-- ── behind another text ──────────────────────────────────────────────────────────

/-- The scan of the first text is that of the text alone. -/
theorem DoneAfter.inside (h : DoneAfter a dialect n) (b : String) {i : Nat} (hi : i ≤ n) :
    ((ofString a dialect.lookup).after i).Inside [] b.toList
        ((ofString (a ++ b) dialect.lookup).after i) ∧
      ∀ k < i, (ofString (a ++ b) dialect.lookup).eventAt k =
        (ofString a dialect.lookup).eventAt k := by
  have hstart : (ofString a dialect.lookup).Inside [] b.toList
      (ofString (a ++ b) dialect.lookup) := by
    refine ⟨⟨rfl, rfl, ?_⟩, rfl⟩
    show (a ++ b).toList = a.toList ++ b.toList
    exact String.toList_append
  refine hstart.after fun k hk => ?_
  obtain ⟨last, rfl, hlast⟩ := h.last
  obtain ⟨d, rfl⟩ := Nat.exists_eq_add_of_le (Nat.le_of_lt_succ (Nat.lt_of_lt_of_le hk hi))
  refine ClosesLast.enclosed (n := d) (bodySound_after a dialect.lookup k)
    (bodyNamed_after a dialect.lookup k) ⟨?_, ?_⟩ _
  · rw [← eventAt_add]
    exact hlast.closes
  · rw [← after_add]
    exact hlast.rest

/-- Behind the first text the second one is scanned by a machine that starts anew. -/
def fresh (dialect : Dialect) (a b : String) (s : Scanner Lookup) : Scanner Lookup where
  reader := s.reader.mark
  machine := (ofString b dialect.lookup).machine.moveTo (.ofString (a ++ b)) (byteSize a.toList)

/-- A new scanner of the second text is inside the joined document, behind the first text. -/
theorem DoneAfter.fresh_inside (h : DoneAfter a dialect n) (b : String) :
    (ofString b dialect.lookup).Inside a.toList []
      (fresh dialect a b ((ofString (a ++ b) dialect.lookup).after n)) := by
  obtain ⟨hinside, -⟩ := h.inside b (Nat.le_refl n)
  have hbehind : ((ofString (a ++ b) dialect.lookup).after n).reader.behind = a.toList.reverse := by
    have hwhole := Reader.behind_append_rest ((ofString a dialect.lookup).after n).reader
    rw [h.rest, List.append_nil, document_after] at hwhole
    have hchars : ((ofString a dialect.lookup).after n).reader.behind = a.toList.reverse := by
      rw [← List.reverse_reverse (Reader.behind _), hwhole]
      rfl
    rw [hinside.reader.behind, hchars]
    exact List.append_nil _
  refine ⟨⟨hbehind, rfl, ?_⟩, ?_⟩
  · show ((ofString (a ++ b) dialect.lookup).after n).reader.rest = b.toList ++ []
    rw [hinside.reader.rest, h.rest, List.nil_append, List.append_nil]
  · show _ = Machine.moveTo ((ofString (a ++ b) dialect.lookup).after n).reader.document _ _
    rw [document_after]
    rfl

/-- The scanner that is done with the first text goes on like a new one, with its numbers shifted.
    -/
theorem DoneAfter.twins (h : DoneAfter a dialect n) (b : String) :
    (fresh dialect a b ((ofString (a ++ b) dialect.lookup).after n)).Twins
      (· + ((ofString a dialect.lookup).after n).machine.nodes) False
      ((ofString (a ++ b) dialect.lookup).after n) := by
  obtain ⟨hinside, -⟩ := h.inside b (Nat.le_refl n)
  obtain ⟨-, hunflushed⟩ := follows_after a dialect h.rests.not_finished
  have hphase := h.rests.literal
  have hout : ((ofString a dialect.lookup).after n).machine.phase.inTag = false := by
    rw [hphase]
    rfl
  have hbrackets := bracketSound_after a dialect.lookup n (Or.inl hout)
  have hbare := bareOutside_after a dialect n hout
  have hdialect := dialect_after a dialect n
  refine ⟨rfl, ?_, nofun, nofun⟩
  rw [hinside.machine]
  have hbody := h.rests.no_body
  have hblocks := h.blocks
  generalize ((ofString a dialect.lookup).after n).machine = m at *
  generalize ((ofString (a ++ b) dialect.lookup).after n).reader.document = d
  refine ⟨hphase, hbody, ?_, ?_, hunflushed.flushed, ?_, ?_, fun n _ => ?_, ?_, nofun, nofun, nofun,
    ?_, nofun⟩
  · show m.brackets.moveTo 0 = _
    rw [hbrackets]
    rfl
  · show m.notices.map _ = _
    rw [hunflushed.notices]
    rfl
  · show m.blocks.map _ = _
    rw [hblocks]
    rfl
  · exact (Nat.zero_add _).symm
  · exact Nat.add_right_comm n 1 _
  · show m.grammar.bare = _
    rw [hbare, hdialect]
    rfl
  · rintro (⟨⟨⟩⟩ | ⟨⟨⟩⟩)

-- ── the scan of both ─────────────────────────────────────────────────────────────

/-- Where the pair is set the scanner is at a point where it is held. -/
theorem holdsPair_of_setsPair
    (h : ((ofString source dialect.lookup).eventAt n).setsPair = true) :
    ((ofString source dialect.lookup).after (n + 1)).machine.phase.holdsPair = true := by
  by_cases ho : (ofString source dialect.lookup).eventAt n = .token .openDelimiter
  · obtain ⟨form, -, heq⟩ := Machine.step_eq_openTag (bodySound_after source dialect.lookup n) ho
    rw [after_succ, machine_scanHere, heq]
    rfl
  · refine holdsPair_after ?_
    cases he : (ofString source dialect.lookup).eventAt n with
    | token kind =>
        rw [he] at h ho
        cases kind with
        | openDelimiter => exact absurd rfl ho
        | endTag => exact Or.inl he
        | endMarkupName => exact Or.inr he
        | _ => cases h
    | text =>
        rw [he] at h
        cases h
    | finished =>
        rw [he] at h
        cases h

/-- Only some tokens set the pair. -/
theorem pairAfter_succ (h : (s.eventAt n).setsPair = false) :
    (s.after (n + 1)).machine.pair = (s.after n).machine.pair := by
  rw [after_succ, machine_scanHere]
  exact Machine.pair_step _ _ h

/-- The scan of the first text and the second one behind it is the scan of the first text and that
    of the second one, whose places are moved and whose tags have other numbers. -/
structure Composes (dialect : Dialect) (a b : String) : Prop where
  tokens : (tokenize (a ++ b) dialect.lookup).tokens = (tokenize a dialect.lookup).tokens ++
    (tokenize b dialect.lookup).tokens.map
      (Token.moveTo (.ofString (a ++ b)) (Document.ofString a).size)
  notices : (tokenize (a ++ b) dialect.lookup).notices =
    (tokenize b dialect.lookup).notices.map
      (Notice.moveTo (.ofString (a ++ b)) (Document.ofString a).size)
  /-- The scans of the second text come after the `n` of the first one. -/
  scans : ∃ n, (ofString a dialect.lookup).eventAt n = .finished ∧
    (∀ i < n, (ofString (a ++ b) dialect.lookup).eventAt i =
        (ofString a dialect.lookup).eventAt i ∧
      (ofString (a ++ b) dialect.lookup).pairAfter (i + 1) =
        (ofString a dialect.lookup).pairAfter (i + 1)) ∧
    ∀ i, (ofString (a ++ b) dialect.lookup).eventAt (n + i) =
        (ofString b dialect.lookup).eventAt i ∧
      -- from the first tag on that opens, or element that ends, in the second text
      ((∃ k < i, ((ofString b dialect.lookup).eventAt k).setsPair = true) →
        (ofString (a ++ b) dialect.lookup).pairAfter (n + i) =
          ((ofString b dialect.lookup).pairAfter i).map
            (· + (heads (tokenize a dialect.lookup).tokens).length)) ∧
      -- and before it
      ((∀ k < i, ((ofString b dialect.lookup).eventAt k).setsPair = false) →
        (ofString (a ++ b) dialect.lookup).pairAfter (n + i) =
          (ofString a dialect.lookup).pairAfter n ∧
        (ofString b dialect.lookup).pairAfter i = none)

/-- The tokens of the first scans are those of the text alone. -/
theorem DoneAfter.tokensUpTo (h : DoneAfter a dialect n) (b : String) :
    (ofString (a ++ b) dialect.lookup).tokensUpTo n =
      (ofString a dialect.lookup).tokensUpTo n := by
  rw [Scanner.tokensUpTo, Scanner.tokensUpTo]
  refine List.filterMap_congr fun i hi => ?_
  have hlt := List.mem_range.mp hi
  obtain ⟨hlater, hevents⟩ := h.inside b (Nat.succ_le_of_lt hlt)
  rw [Scanner.tokenAt, Scanner.tokenAt, hevents i (Nat.lt_succ_self i)]
  cases (ofString a dialect.lookup).eventAt i with
  | token kind => simp only [tokenOf, hlater.reader.span_eq]
  | text => rfl
  | finished => rfl

section

variable (h : DoneAfter a dialect n) (b : String)
include h

/-- Behind the first text the same is found as in the second text alone, -/
theorem DoneAfter.eventAt_add (i : Nat) :
    (ofString (a ++ b) dialect.lookup).eventAt (n + i) =
      (ofString b dialect.lookup).eventAt i := by
  obtain ⟨-, hevents⟩ := (h.fresh_inside b).after (n := i + 1)
    fun k _ => Machine.enclosed_nil _ _
  rw [Scanner.eventAt_add, ← hevents i (Nat.lt_succ_self i)]
  exact ((h.twins b).after i).event

/-- further on. -/
theorem DoneAfter.tokenAt_add (i : Nat) :
    (ofString (a ++ b) dialect.lookup).tokenAt (n + i) =
      ((ofString b dialect.lookup).tokenAt i).map
        (Token.moveTo (.ofString (a ++ b)) (byteSize a.toList)) := by
  have hfresh := h.fresh_inside b
  obtain ⟨hlater, hevents⟩ := hfresh.after (n := i + 1) fun k _ => Machine.enclosed_nil _ _
  obtain ⟨hi, -⟩ := hfresh.after (n := i) fun k _ => Machine.enclosed_nil _ _
  have hstep := hi.step_eq (Machine.enclosed_nil _ _)
  rw [Scanner.tokenAt_add, (h.twins b).tokenAt i, hfresh.tokenAt fun k _ => Machine.enclosed_nil _ _]
  · show Option.map (Token.moveTo
      ((ofString (a ++ b) dialect.lookup).after n).reader.document _) _ = _
    rw [document_after]
    rfl
  · intro he
    rw [hevents i (Nat.lt_succ_self i)] at he
    have hne := (blockStep_after he).extent_ne_hold
    rw [hstep]
    intro hhold
    refine hne ?_
    cases hx : (((ofString b dialect.lookup).after i).machine.step
      ((ofString b dialect.lookup).after i).reader).extent with
    | hold => rfl
    | take n =>
        rw [Reply.moveTo, hx] at hhold
        cases hhold
    | takeFrom start n =>
        rw [Reply.moveTo, hx] at hhold
        cases hhold

/-- The reports behind the first text are those of the second, moved. -/
theorem DoneAfter.notices_add (i : Nat) :
    ((ofString (a ++ b) dialect.lookup).after (n + i)).machine.notices =
      ((ofString b dialect.lookup).after i).machine.notices.map
        (Notice.moveTo (.ofString (a ++ b)) (byteSize a.toList)) := by
  obtain ⟨hi, -⟩ := (h.fresh_inside b).after (n := i) fun k _ => Machine.enclosed_nil _ _
  have hdocument : ((fresh dialect a b ((ofString (a ++ b) dialect.lookup).after n)).after
      i).reader.document = .ofString (a ++ b) := by
    rw [document_after]
    show ((ofString (a ++ b) dialect.lookup).after n).reader.document = _
    rw [document_after]
    rfl
  rw [Scanner.after_add, ((h.twins b).after i).machine.notices, hi.machine, hdocument]
  rfl

/-- Until the first tag opens in the second text, the pair is that of the first text. -/
theorem DoneAfter.pair_before (i : Nat)
    (hset : ∀ k < i, ((ofString b dialect.lookup).eventAt k).setsPair = false) :
    (ofString (a ++ b) dialect.lookup).pairAfter (n + i) =
        (ofString a dialect.lookup).pairAfter n ∧
      (ofString b dialect.lookup).pairAfter i = none := by
  induction i with
  | zero =>
      obtain ⟨hinside, -⟩ := h.inside b (Nat.le_refl n)
      refine ⟨?_, rfl⟩
      rw [Nat.add_zero, Scanner.pairAfter, hinside.machine]
      rfl
  | succ i ih =>
      obtain ⟨hboth, halone⟩ := ih fun k hk => hset k (Nat.lt_succ_of_lt hk)
      have hi := hset i (Nat.lt_succ_self i)
      refine ⟨?_, ?_⟩
      · rw [← Nat.add_assoc, Scanner.pairAfter, pairAfter_succ (by rwa [h.eventAt_add b])]
        exact hboth
      · rw [Scanner.pairAfter, pairAfter_succ hi]
        exact halone

/-- From there on it is that of the second text, under the other number. -/
theorem DoneAfter.pair_behind (i : Nat)
    (hset : ∃ k < i, ((ofString b dialect.lookup).eventAt k).setsPair = true) :
    (ofString (a ++ b) dialect.lookup).pairAfter (n + i) =
      ((ofString b dialect.lookup).pairAfter i).map
        (· + ((ofString a dialect.lookup).after n).machine.nodes) := by
  induction i with
  | zero =>
      obtain ⟨k, hk, -⟩ := hset
      exact absurd hk (Nat.not_lt_zero k)
  | succ i ih =>
      cases hi : ((ofString b dialect.lookup).eventAt i).setsPair with
      | true =>
          obtain ⟨hlater, -⟩ := (h.fresh_inside b).after (n := i + 1)
            fun k _ => Machine.enclosed_nil _ _
          have hpair := (h.twins b).pairAfter i (by
            rw [hlater.machine]
            exact holdsPair_of_setsPair hi)
          rw [Scanner.pairAfter, Scanner.pairAfter, ← Scanner.after_add, hlater.machine] at hpair
          exact hpair
      | false =>
          have hearlier : ∃ k < i, ((ofString b dialect.lookup).eventAt k).setsPair = true := by
            obtain ⟨k, hk, hkset⟩ := hset
            refine ⟨k, Nat.lt_of_le_of_ne (Nat.le_of_lt_succ hk) ?_, hkset⟩
            rintro rfl
            exact absurd (hi.symm.trans hkset) (by rintro ⟨⟩)
          have hboth := ih hearlier
          rw [← Nat.add_assoc, Scanner.pairAfter, Scanner.pairAfter,
            pairAfter_succ (by rwa [h.eventAt_add b]), pairAfter_succ hi]
          exact hboth

end

/-- **Composition.**  Behind a text whose scan ends with the close delimiter of a tag, any text is
    scanned as a document of its own. -/
theorem scan_append {a : String} (h : EndsWithTag a dialect) (b : String) :
    Composes dialect a b := by
  obtain ⟨n, hdone⟩ := h.exists_done
  have hfirst := tokenize_of_finished hdone.finished hdone.rests.not_finished
  obtain ⟨k, hend, hbefore, hsecond⟩ := tokenize_eq b dialect.lookup
  have hlast : (ofString (a ++ b) dialect.lookup).eventAt (n + k) = .finished := by
    rw [hdone.eventAt_add b, hend]
  have hgoes : ∀ i < n + k, (ofString (a ++ b) dialect.lookup).eventAt i ≠ .finished := by
    intro i hi
    rcases Nat.lt_or_ge i n with hlt | hge
    · rw [(hdone.inside b (Nat.succ_le_of_lt hlt)).2 i (Nat.lt_succ_self i)]
      exact hdone.rests.not_finished i hlt
    · obtain ⟨d, rfl⟩ := Nat.exists_eq_add_of_le hge
      rw [hdone.eventAt_add b]
      exact hbefore d (by omega)
  have hboth := tokenize_of_finished hlast hgoes
  have hsize : (Document.ofString a).size = byteSize a.toList := rfl
  refine ⟨?_, ?_, n, hdone.finished, fun i hi => ?_, fun i => ?_⟩
  · have hlater : ((ofString (a ++ b) dialect.lookup).after n).tokensUpTo k =
        ((ofString b dialect.lookup).tokensUpTo k).map
          (Token.moveTo (.ofString (a ++ b)) (byteSize a.toList)) := by
      rw [tokensUpTo, tokensUpTo, List.map_filterMap]
      refine List.filterMap_congr fun i _ => ?_
      rw [← Scanner.tokenAt_add]
      exact hdone.tokenAt_add b i
    rw [hboth, hfirst, hsecond, tokensUpTo_add, hdone.tokensUpTo b, hlater, hsize]
  · rw [hboth, hsecond, Nat.add_assoc, hdone.notices_add b]
    rfl
  · obtain ⟨hlater, hevents⟩ := hdone.inside b (Nat.succ_le_of_lt hi)
    refine ⟨hevents i (Nat.lt_succ_self i), ?_⟩
    rw [Scanner.pairAfter, hlater.machine]
    rfl
  · have hnodes := nodes_after a dialect n
    rw [hfirst, ← hnodes]
    exact ⟨hdone.eventAt_add b i, hdone.pair_behind b i, hdone.pair_before b i⟩

theorem endsWithTag_block :
    EndsWithTag "\x7b%if x%\x7d\x7b%endif%\x7d" Dialect.standard := by
  obtain ⟨hend, hbefore, hbody⟩ :
      let s := ofString "\x7b%if x%\x7d\x7b%endif%\x7d" Dialect.standard.lookup
      s.eventAt 8 = .finished ∧ (∀ i < 8, s.eventAt i ≠ .finished) ∧
        (s.after 8).machine.body = none := by
    decide +kernel
  refine ⟨⟨⟨.endDelimiter, ⟨15, 17, 1, 16⟩⟩, by decide +kernel⟩, fun n hn hfirst => ?_,
    by decide +kernel⟩
  rcases Nat.lt_trichotomy n 8 with hlt | rfl | hgt
  · exact absurd hn (hbefore n hlt)
  · exact hbody
  · exact absurd hend (hfirst 8 hgt)

theorem scan_append_block :
    EndsWithTag "\x7b%if x%\x7d\x7b%endif%\x7d" Dialect.standard ∧
      Composes Dialect.standard "\x7b%if x%\x7d\x7b%endif%\x7d" "\x7b\x7by\x7d\x7d" :=
  ⟨endsWithTag_block, scan_append endsWithTag_block _⟩

/-- In text behind a block the pair is still that of its end tag, and not one of the text alone. -/
theorem pair_held_behind_block :
    let a := "\x7b%if x%\x7d\x7b%endif%\x7d"
    EndsWithTag a Dialect.standard ∧ (ofString a Dialect.standard.lookup).eventAt 8 = .finished ∧
      (ofString (a ++ "b") Dialect.standard.lookup).eventAt 8 = .text ∧
      (ofString (a ++ "b") Dialect.standard.lookup).pairAfter (8 + 1) ≠
        ((ofString "b" Dialect.standard.lookup).pairAfter 1).map
          (· + (heads (tokenize a Dialect.standard.lookup).tokens).length) := by
  intro a
  refine ⟨endsWithTag_block, ?_⟩
  decide +kernel

end Scanner

end TemplateScan
