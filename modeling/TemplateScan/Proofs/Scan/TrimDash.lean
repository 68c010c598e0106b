import TemplateScan.Proofs.Scan.Openers
import TemplateScan.Proofs.Scan.TagShape

/-! # Trim dashes — what becomes of the dash before a close delimiter

    A dash right before a close delimiter trims the text behind the tag.  Every step inside a tag
    leaves it where it is, with three exceptions: the dash right behind the open delimiter trims the
    text before the tag, a string without its end goes on up to the delimiter, and a name may end in
    a dash.

    * **`TagStep.takes_dash`** — what a step is that takes such a dash.
    * **`OpensTagOf.inTag`** — the scans between an open delimiter and the end of its tag.
    * **`dash_before_closer`** — the scan that takes such a dash, in any run. -/

namespace TemplateScan

open Text

-- ── text behind the cursor ───────────────────────────────────────────────────────

namespace Text.Reader

/-- The character that ends at the cursor is the last one behind it. -/
theorem getLast?_behind {r : Reader} {c : Char} {o : Nat} (h : r.document.OccursAt [c] o)
    (ho : o + c.utf8Size = r.offset) : r.behind.reverse.getLast? = some c := by
  obtain ⟨hbound, tail, htail⟩ := h
  obtain ⟨before, rest, hchars, hsize⟩ := isBoundary_iff.mp hbound
  rw [hchars, ← hsize, dropBytes_byteSize] at htail
  have hsplit : r.behind.reverse ++ r.rest = (before ++ [c]) ++ tail := by
    rw [behind_append_rest, hchars, ← htail, List.append_assoc]
  have hbytes : byteSize (before ++ [c]) = byteSize r.behind.reverse := by
    rw [byteSize_behind, ← ho, ← hsize, byteSize_append, byteSize_cons, byteSize_nil, Nat.add_zero]
  have hcut := splitAtByte_byteSize r.behind.reverse r.rest
  rw [hsplit, ← hbytes, splitAtByte_byteSize] at hcut
  rw [← (Prod.mk.inj hcut).1, List.getLast?_concat]

/-- In one document the rest is fixed by the cursor. -/
theorem rest_eq_of_offset_eq {r r' : Reader} (hd : r.document = r'.document)
    (ho : r.offset = r'.offset) : r.rest = r'.rest := by
  have h := dropBytes_offsetAt r 0
  have h' := dropBytes_offsetAt r' 0
  rw [offsetAt_zero, List.drop_zero] at h h'
  rw [← h, ← h', ho, hd]

end Text.Reader

/-- A move adds the text that it passes over to the text behind the cursor. -/
theorem behind_apply (e : Extent) (r : Reader) :
    (e.apply r).behind.reverse = r.behind.reverse ++ r.rest.take e.count := by
  have h := (e.apply r).behind_append_rest
  rw [rest_apply, document_apply, ← r.behind_append_rest] at h
  refine List.append_cancel_right (h.trans ?_)
  rw [List.append_assoc, List.take_append_drop]

-- ── one step ─────────────────────────────────────────────────────────────────────

namespace Machine

variable {γ : Type} [Grammar γ] {ending : Bool} {bound : Nat} {m : Machine γ} {r : Reader}
  {reply : Reply γ}

/-- A step that takes the dash right before the close delimiter is a trim dash, on either side of
    the tag, or a string without its end, or a name. -/
theorem TagStep.takes_dash (h : TagStep ending bound m r reply)
    (hd : Dashed m.tag.form reply.extent.count r.rest) :
    reply.event = .token .trimRight ∧ reply.extent = .take 1 ∨ reply.event = .token .trimLeft ∨
      reply.event = .token (.invalid .missingQuotation) ∨
      identifier? r.rest = some (r.rest.take reply.extent.count) := by
  cases h with
  | space _ _ _ _ hb =>
      have hblank := hb '-' (List.mem_of_getLast? hd.dash)
      exact absurd hblank (by decide)
  | trimLeft _ _ _ _ => exact Or.inr (Or.inl rfl)
  | trimRight _ _ _ => exact Or.inl ⟨rfl, rfl⟩
  | @startTag g name _ hn _ _ =>
      obtain ⟨kind, blocks, -, heq⟩ := takeStartTag_eq { m with grammar := g } name r.document
      rw [heq]
      refine Or.inr (Or.inr (Or.inr ?_))
      show identifier? r.rest = some (r.rest.take name.length)
      rwa [← List.prefix_iff_eq_take.mp (identifier?_eq_some hn).1]
  | @endTag g name _ _ hn _ _ =>
      refine Or.inr (Or.inr (Or.inr ?_))
      show identifier? r.rest = some (r.rest.take name.length)
      rwa [← List.prefix_iff_eq_take.mp (identifier?_eq_some hn).1]
  | part _ _ _ _ _ _ hleaves | keyPath _ _ _ _ _ _ hleaves =>
      rcases hleaves hd with rfl | hname
      · exact Or.inr (Or.inr (Or.inl rfl))
      · exact Or.inr (Or.inr (Or.inr hname))
  | outputTag _ _ _ _ | mark _ _ _ _ _ | dropBracket _ _ _ _ _ | abandoned _ _ _ =>
      exact absurd hd not_dashed_zero
  | recovered _ _ _ _ => exact absurd hd (not_dashed_recoveryEnd _ _)
  | openBracket hh _ _ _ _ | closeBracket hh _ _ _ _ _ =>
      exact absurd hd (not_dashed_of_head hh (by decide))
  | closed _ hc _ =>
      have hlast : m.tag.form.closer.getLast? = some '}' := by cases m.tag.form <;> rfl
      exact absurd hd (not_dashed_of_leading hc hlast (by decide))

/-- A close delimiter is found inside a tag only, where it comes next. -/
theorem closer_of_closes (hm : m.BodySound) (h : (m.step r).event = .token .closeDelimiter ∨
    (m.step r).event = .token .endDelimiter) :
    m.phase.inTag = true ∧ m.tag.form.closer <+: r.rest := by
  obtain ⟨kind, he, hk⟩ : ∃ kind, (m.step r).event = .token kind ∧
      (kind = .closeDelimiter ∨ kind = .endDelimiter) := by
    rcases h with h | h
    · exact ⟨_, h, Or.inl rfl⟩
    · exact ⟨_, h, Or.inr rfl⟩
  have hends : (m.step r).event.endsTag = true := by
    rw [he]
    rcases hk with rfl | rfl <;> rfl
  cases hp : m.phase.inTag with
  | false =>
      obtain ⟨hr, hne⟩ := rest_ne_nil_of_outside hp (by rw [he]; rintro ⟨⟩)
      have hopen : (m.step r).event ≠ .token .openDelimiter := by
        intro hopen
        rw [hopen] at hends
        cases hends
      have hout := (step_outside m r hp hr).isOutside hm hne hopen he
      rcases hk with rfl | rfl <;> cases hout
  | true =>
      refine ⟨rfl, ?_⟩
      cases leaves_of_endsTag hp hends with
      | closed hc _ _ _ _ => exact hc
      | abandoned _ habandoned _ _ _ =>
          rw [he] at habandoned
          rcases hk with rfl | rfl <;> cases habandoned

end Machine

-- ── runs ─────────────────────────────────────────────────────────────────────────

namespace Scanner

variable {γ : Type} [Grammar γ]

/-- From its open delimiter on, up to where it ends, the run is inside the tag. -/
theorem OpensTagOf.inTag {source : String} {grammar : γ} {i n : Nat}
    (h : (ofString source grammar).OpensTagOf i n) {k : Nat} (hik : i < k) (hkn : k ≤ n) :
    ((ofString source grammar).after k).machine.phase.inTag = true ∧
      ((ofString source grammar).after k).machine.tag =
        ((ofString source grammar).after (i + 1)).machine.tag := by
  obtain ⟨d, rfl⟩ := Nat.exists_eq_add_of_le (Nat.succ_le_of_lt hik)
  clear hik
  induction d with
  | zero => exact ⟨(opened_after h.opens).1, rfl⟩
  | succ d ih =>
      obtain ⟨hin, htag⟩ := ih (by omega)
      have hinside := (h.inside (i + 1 + d) (by omega) (by omega)).2
      rw [← Nat.add_assoc, after_succ, machine_scanHere]
      have hstay := Machine.stays_of_not_endsTag hin hinside
      exact ⟨hstay.inTag, hstay.tag_eq.trans htag⟩

/-- Scan `n` takes the close delimiter of a tag, and a dash stands right before it. -/
structure ClosesAtDash (s : Scanner γ) (n : Nat) : Prop where
  closes : s.eventAt n = .token .closeDelimiter ∨ s.eventAt n = .token .endDelimiter
  dash : ∃ o, s.reader.document.OccursAt ['-'] o ∧ o + 1 = (s.after (n + 1)).reader.start

/-- Scan `k` takes the dash that ends at the place `q`. -/
structure TakesDash (s : Scanner γ) (k q : Nat) : Prop where
  before : (s.after k).reader.offset < q
  after : (s.after (k + 1)).reader.offset = q

/-- Inside a tag a piece is the text that its scan passes over. -/
theorem piece_eq_of_inTag {source : String} {grammar : γ} {n : Nat}
    (h : ((ofString source grammar).after n).machine.phase.inTag = true) :
    (ofString source grammar).piece n = ((ofString source grammar).after n).reader.rest.take
      (((ofString source grammar).after n).machine.step
        ((ofString source grammar).after n).reader).extent.count := by
  have hevent : (ofString source grammar).eventAt n ≠ .finished := by
    obtain ⟨kind, hk, -⟩ := Machine.exists_token_of_inTag h ((ofString source grammar).after n).reader
    rw [eventAt, event_scanHere, hk]
    rintro ⟨⟩
  have hpiece := piece_append_rest hevent
  rw [after_succ, reader_scanHere, rest_apply] at hpiece
  refine List.append_cancel_right (hpiece.trans ?_)
  rw [List.take_append_drop]

/-- Behind the dash that trims the text behind a tag, the close delimiter comes next. -/
theorem trimRight_atCloser {s : Scanner γ} {n : Nat} (hin : (s.after n).machine.phase.inTag = true)
    (hb : (s.after n).machine.BracketSound) (he : s.eventAt n = .token .trimRight) :
    (s.after (n + 1)).machine.AtCloser (s.after (n + 1)).reader := by
  obtain ⟨kind, hkind, hgroup⟩ :=
    (Machine.step_inTag (s.after n).machine (s.after n).reader hin).groupStep hb
  have hk : kind = .trimRight := Event.token.inj (hkind.symm.trans he)
  rw [after_succ, machine_scanHere, reader_scanHere]
  exact hgroup.of_trimRight hk (Machine.tag_step_of_inTag hin (s.after n).reader)

/-- The open delimiter of a tag does not end in a dash. -/
theorem not_dash_behind_opener {source : String} {grammar : γ} {i : Nat}
    (h : (ofString source grammar).eventAt i = .token .openDelimiter) :
    ((ofString source grammar).after (i + 1)).reader.behind.reverse.getLast? ≠ some '-' := by
  obtain ⟨form, hpre, heq⟩ := Machine.step_eq_openTag (bodySound_after source grammar i) h
  rw [after_succ, reader_scanHere, behind_apply, heq]
  show (_ ++ List.take form.opener.length _).getLast? ≠ _
  rw [← List.prefix_iff_eq_take.mp hpre, List.getLast?_append]
  cases form <;> rintro ⟨⟩

/-- The dash before a close delimiter is taken inside the tag, and the close delimiter comes right
    behind it. -/
theorem ClosesAtDash.exists_takes {source : String} {grammar : γ} {n : Nat}
    (h : (ofString source grammar).ClosesAtDash n) :
    let s := ofString source grammar
    ∃ k < n, s.TakesDash k (s.after (n + 1)).reader.start ∧
      (s.after (k + 1)).reader.offset = (s.after n).reader.offset ∧
      (s.after k).machine.phase.inTag = true ∧
      (∀ j, k < j → j < n → (s.eventAt j).endsTag = false) ∧
      Dashed (s.after k).machine.tag.form
        ((s.after k).machine.step (s.after k).reader).extent.count (s.after k).reader.rest := by
  intro s
  obtain ⟨hcloses, o, hocc, ho⟩ := h
  obtain ⟨hin, hcloser⟩ := Machine.closer_of_closes (bodySound_after source grammar n) hcloses
  have hstart : (s.after (n + 1)).reader.start = (s.after n).reader.offset := by
    refine (start_after_scan source grammar ?_).1 ?_ <;> intro he <;> rw [he] at hcloses <;>
      rcases hcloses with ⟨⟨⟩⟩ | ⟨⟨⟩⟩
  rw [hstart] at ho ⊢
  obtain ⟨i, hi, -⟩ := opensTagOf_after hin
  obtain ⟨k, -, hle, hlt⟩ := exists_scan_of_occursAt (s := s) (p := ['-']) (List.cons_ne_nil _ _)
    hocc (Nat.zero_le o)
  have hmono : ∀ {a b : Nat}, a ≤ b → (s.after a).reader.offset ≤ (s.after b).reader.offset := by
    intro a b hab
    obtain ⟨d, rfl⟩ := Nat.exists_eq_add_of_le hab
    exact offset_le_after s a d
  have hkn : k < n := Nat.lt_of_not_le fun hnk => by
    have := hmono hnk
    omega
  have hend : (s.after (k + 1)).reader.offset = (s.after n).reader.offset := by
    have := hmono (a := k + 1) hkn
    omega
  have hbehind : ∀ j, (s.after j).reader.offset = (s.after n).reader.offset →
      (s.after j).reader.behind.reverse.getLast? = some '-' := by
    intro j hj
    refine Reader.getLast?_behind (o := o) ?_ (ho.trans hj.symm)
    rw [document_after]
    exact hocc
  have hik : i < k := Nat.lt_of_not_le fun hki => by
    have hfrom := hmono (a := k + 1) (b := i + 1) (Nat.succ_le_succ hki)
    have hto := hmono (a := i + 1) hi.lt
    exact not_dash_behind_opener hi.opens (hbehind (i + 1) (by omega))
  obtain ⟨hkin, hktag⟩ := hi.inTag hik (Nat.le_of_lt hkn)
  refine ⟨k, hkn, ⟨by omega, hend⟩, hend, hkin,
    fun j hkj hjn => (hi.inside j (Nat.lt_trans hik hkj) hjn).2, ?_, ?_⟩
  · -- some text is taken, so the last character behind the cursor is the last one of it
    have hlast := hbehind (k + 1) hend
    rw [after_succ, reader_scanHere, behind_apply, List.getLast?_append] at hlast
    rw [after_succ, reader_scanHere, offset_apply, Reader.offsetAt] at hlt
    generalize (s.after k).reader.rest.take _ = taken at hlast hlt ⊢
    cases hl : taken.getLast? with
    | some c => rwa [hl, Option.some_or] at hlast
    | none =>
        rw [List.getLast?_eq_none_iff.mp hl, byteSize_nil] at hlt
        exact absurd hlt (Nat.not_lt.mpr hle)
  · rw [hktag, ← (hi.inTag hi.lt (Nat.le_refl n)).2, ← rest_apply, ← reader_scanHere, ← after_succ]
    have hrest : (s.after (k + 1)).reader.rest = (s.after n).reader.rest := by
      refine Reader.rest_eq_of_offset_eq ?_ hend
      rw [document_after, document_after]
    rw [hrest]
    exact hcloser

/-- **Trim dashes.**  In a run from the start of any text, in any grammar, let a tag be closed with
    a dash right before its close delimiter.  One scan takes that dash.  It finds the dash that
    trims the text behind the tag, exactly that one, and the close delimiter comes next; or the dash
    is the one behind the open delimiter, or the end of a string without its end or of a name. -/
theorem dash_before_closer (source : String) (grammar : γ) {n : Nat}
    (h : (ofString source grammar).ClosesAtDash n) :
    let s := ofString source grammar
    let q := (s.after (n + 1)).reader.start
    ∃ k < n, s.TakesDash k q ∧
      (s.eventAt k = .token .trimRight ∧ k + 1 = n ∧ (s.after (k + 1)).reader.start + 1 = q ∨
        s.eventAt k = .token .trimLeft ∨
        s.eventAt k = .token (.invalid .missingQuotation) ∨
        identifier? (s.piece k) = some (s.piece k)) := by
  intro s q
  obtain ⟨k, hkn, htakes, hend, hin, hinside, hdashed⟩ := h.exists_takes
  refine ⟨k, hkn, htakes, ?_⟩
  have hstep := Machine.step_inTag (s.after k).machine (s.after k).reader hin
  have hpiece : s.piece k = (s.after k).reader.rest.take
      ((s.after k).machine.step (s.after k).reader).extent.count := piece_eq_of_inTag hin
  rcases hstep.takes_dash hdashed with ⟨he, hx⟩ | he | he | hname
  · refine Or.inl ⟨he, ?_, ?_⟩
    · -- behind the dash the close delimiter comes next, and ends the tag
      have hcloser := trimRight_atCloser hin (bracketSound_after source grammar k) he
      refine Nat.le_antisymm hkn (Nat.le_of_not_lt fun hlt => ?_)
      have hends : (s.eventAt (k + 1)).endsTag = true := by
        rcases hcloser.closed with hclosed | hclosed <;> rw [eventAt, event_scanHere, hclosed] <;>
          rfl
      exact absurd ((hinside (k + 1) (Nat.lt_succ_self k) hlt).symm.trans hends)
        Bool.false_ne_true
    · have hdash := hdashed.dash
      rw [hx] at hdash
      have hone : byteSize ((s.after k).reader.rest.take 1) = 1 := by
        cases hrest : (s.after k).reader.rest with
        | nil =>
            rw [hrest] at hdash
            cases hdash
        | cons c cs =>
            rw [hrest] at hdash
            obtain rfl : c = '-' := Option.some.inj hdash
            rfl
      have hafter := htakes.after
      rw [after_succ, reader_scanHere, hx] at hafter ⊢
      refine Eq.trans ?_ hafter
      rw [offset_apply, Reader.offsetAt]
      show ((s.after k).reader.capture 1).start + 1 = _
      rw [Reader.start_capture]
      exact congrArg ((s.after k).reader.offset + ·) hone.symm
  · exact Or.inr (Or.inl he)
  · exact Or.inr (Or.inr (Or.inl he))
  · refine Or.inr (Or.inr (Or.inr ?_))
    rw [hpiece]
    exact identifier?_self hname

theorem dash_before_closer_number :
    let s := ofString "\x7b\x7b1-\x7d\x7d" Dialect.empty.lookup
    s.ClosesAtDash 4 ∧ ∃ k < 4, s.TakesDash k 4 ∧ s.eventAt k = .token .trimRight := by
  intro s
  have hplace : (s.after (4 + 1)).reader.start = 4 := by decide
  have hcloses : s.ClosesAtDash 4 :=
    ⟨Or.inl (by decide), 3, ⟨rfl, ⟨_, rfl⟩⟩, hplace.symm⟩
  obtain ⟨k, hk, htakes, hcase⟩ :=
    dash_before_closer "\x7b\x7b1-\x7d\x7d" Dialect.empty.lookup hcloses
  rw [hplace] at htakes
  refine ⟨hcloses, k, hk, htakes, ?_⟩
  have hnone : ∀ k < 4, s.eventAt k ≠ .token .trimLeft ∧
      s.eventAt k ≠ .token (.invalid .missingQuotation) ∧
      identifier? (s.piece k) ≠ some (s.piece k) := by decide
  obtain ⟨hleft, hquotation, hname⟩ := hnone k hk
  rcases hcase with ⟨he, -⟩ | he | he | he
  · exact he
  · exact absurd he hleft
  · exact absurd he hquotation
  · exact absurd he hname

/-- A dash behind a name becomes part of it, even where the close delimiter comes next. -/
theorem dash_of_name :
    let s := ofString "\x7b\x7ba-\x7d\x7d" Dialect.empty.lookup
    s.ClosesAtDash 3 ∧ s.TakesDash 2 4 ∧ s.eventAt 2 = .token .object ∧ s.piece 2 = ['a', '-'] :=
  ⟨⟨Or.inl rfl, 3, ⟨rfl, ⟨_, rfl⟩⟩, rfl⟩, ⟨by decide, rfl⟩, rfl, rfl⟩

end Scanner

end TemplateScan
