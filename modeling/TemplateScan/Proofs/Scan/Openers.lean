import TemplateScan.Proofs.Scan.TagExtent

/-! # Open delimiters — none of them is ever passed over

    Whatever a scan takes that is neither an open delimiter nor a body holds no open delimiter, not
    even the first half of one: recovery, strings, ranges, attributes and runs of literal text all
    stop in front of it.  So a faulty tag never hides the tag that follows it.

    * **`step_avoids`** — no open delimiter begins in what a step takes.
    * **`exists_scan_of_occursAt`** — every place where something occurs is passed over by a scan.
    * **`opener_starts_tag`** — every open delimiter outside bodies opens a tag. -/

namespace TemplateScan

open Text

/-- Outside tags there is literal text and markup. -/
theorem Phase.literal_or_markup {p : Phase} (h : p.inTag = false) :
    p = .literal ∨ ∃ phase, p = .markup phase := by
  cases p with
  | literal => exact Or.inl rfl
  | markup phase => exact Or.inr ⟨phase, rfl⟩
  | _ => exact nomatch h

namespace Machine

variable {γ : Type} [Grammar γ] {m : Machine γ} {r : Reader} {reply : Reply γ}

-- ── bodies and markup ────────────────────────────────────────────────────────────

/-- While markup is scanned, no body is to be passed over. -/
def MarkupSound (m : Machine γ) : Prop :=
  ∀ phase, m.phase = .markup phase → m.body = none

theorem TextStep.markupSound (hm : m.MarkupSound) (hr : r.rest ≠ []) (h : TextStep m r reply) :
    reply.machine.MarkupSound := by
  cases h with
  | @body body _ =>
      obtain ⟨n, event, kept, heq, -, -⟩ := stepBody_eq m body hr
      rw [heq]
      rintro _ ⟨⟩
  | opens _ _ => rintro _ ⟨⟩
  | element hb _ _ =>
      rw [stepElement]
      split
      · exact fun _ _ => hb
      · rintro _ ⟨⟩
  | endElement hb _ _ =>
      rw [stepEndElement]
      split
      · exact fun _ _ => hb
      · rintro _ ⟨⟩
  | text _ _ _ | selfClose _ _ | leave _ => rintro _ ⟨⟩
  | markup _ _ _ _ hmark _ _ =>
      obtain ⟨phase, hphase⟩ := hmark
      exact fun _ _ => hm phase hphase
  | space _ _ _ _ => exact hm

/-- Every step keeps markup free of bodies. -/
theorem markupSound_step (hm : m.MarkupSound) (r : Reader) : (m.step r).machine.MarkupSound := by
  intro phase hphase
  obtain ⟨hp, hr⟩ := outside_of_markup hphase
  exact (step_outside m r hp hr).markupSound hm (List.isEmpty_eq_false_iff.mp hr) phase hphase

-- ── one step ─────────────────────────────────────────────────────────────────────

/-- In literal text a body that is to be passed over comes first. -/
theorem step_body {body : Body} (hp : m.phase = .literal) (hb : m.body = some body)
    (hr : r.atEnd = false) : m.step r = m.stepBody body r.rest := by
  have hlit : m.stepLiteral r = m.stepBody body r.rest := by rw [stepLiteral, hb]
  rw [step, hr, if_neg Bool.false_ne_true, if_pos hp, stepPhase, hp]
  exact hlit

theorem TextStep.avoids (hm : m.MarkupSound) (hp : m.phase.inTag = false)
    (hopen : reply.event ≠ .token .openDelimiter) (hbody : m.phase = .literal → m.body = none)
    (h : TextStep m r reply) : Avoids openers reply.extent.count r.rest := by
  -- the name of an element, with what stands before it
  have hname : ∀ {before name tail : List Char}, r.rest = before ++ tail → '{' ∉ before →
      identifier? tail = some name → Avoids openers (before.length + name.length) r.rest := by
    intro before name tail hrest hbefore hn
    obtain ⟨⟨last, hlast⟩, -, hall⟩ := identifier?_eq_some hn
    have hpre : before ++ name <+: r.rest := ⟨last, by rw [hrest, ← hlast, List.append_assoc]⟩
    rw [← List.length_append]
    refine avoids_word hpre fun hmem => ?_
    rcases List.mem_append.mp hmem with hmem | hmem
    · exact hbefore hmem
    · exact absurd (hall _ hmem) (by decide)
  cases h with
  | @body body hb =>
      have hnone : m.body = none := by
        rcases Phase.literal_or_markup hp with hlit | ⟨phase, hphase⟩
        · exact hbody hlit
        · exact hm phase hphase
      rw [hnone] at hb
      exact nomatch hb
  | opens _ _ => exact absurd rfl hopen
  | @element name tail _ hr hn =>
      have havoid := @hname ['<'] name tail hr (by decide) hn
      rw [stepElement]
      split
      · exact havoid
      · exact havoid
  | @endElement name tail _ hr hn =>
      have havoid := @hname ['<', '/'] name tail hr (by decide) hn
      rw [stepEndElement]
      split
      · exact havoid
      · exact havoid
  | text _ _ hc => exact hc
  | markup _ _ hc _ _ _ _ => exact hc
  | selfClose hs _ => exact avoids_word hs (by decide)
  | space _ _ hc _ => exact hc
  | leave _ => exact Avoids.zero _ _

/-- No open delimiter begins in what a step takes, be it literal text, markup or a part of a tag,
    as long as it neither opens a tag nor passes over a body. -/
theorem step_avoids (hm : m.MarkupSound) (hend : (m.step r).event ≠ .finished)
    (hopen : (m.step r).event ≠ .token .openDelimiter)
    (hbody : m.phase = .literal → m.body = none) :
    Avoids openers (m.step r).extent.count r.rest := by
  cases hp : m.phase.inTag with
  | true =>
      rcases step_stays_or_leaves hp r with hstay | hleave
      · exact hstay.clear.mono fun o ho => List.mem_cons_of_mem _ ho
      · cases hleave with
        | closed hc _ hx _ _ =>
            rw [hx]
            exact avoids_word hc (by cases m.tag.form <;> decide)
        | abandoned _ _ hx _ _ =>
            rw [hx]
            exact Avoids.zero _ _
  | false =>
      obtain ⟨hr, -⟩ := rest_ne_nil_of_outside hp hend
      exact (step_outside m r hp hr).avoids hm hp hopen hbody

end Machine

namespace Scanner

variable {γ : Type} [Grammar γ]

-- ── runs ─────────────────────────────────────────────────────────────────────────

/-- Scan `n` passes over the body of a tag. -/
def PassesBody (s : Scanner γ) (n : Nat) : Prop :=
  (s.after n).machine.phase = .literal ∧ (s.after n).machine.body ≠ none

/-- A body that is passed over is a token, unless it is empty. -/
theorem PassesBody.exists_token {s : Scanner γ} {n : Nat} (h : s.PassesBody n)
    (hlt : (s.after n).reader.offset < (s.after (n + 1)).reader.offset) :
    (∃ kind, s.eventAt n = .token kind) ∧
      (s.after (n + 1)).reader.start = (s.after n).reader.offset := by
  obtain ⟨hp, hsome⟩ := h
  obtain ⟨body, hb⟩ := Option.ne_none_iff_exists'.mp hsome
  rw [after_succ, reader_scanHere] at hlt ⊢
  rw [eventAt, event_scanHere]
  generalize s.after n = t at hp hb hlt ⊢
  cases hr : t.reader.atEnd with
  | true =>
      rw [Machine.step_atEnd (by rw [hp]; rfl) hr] at hlt
      exact absurd hlt (Nat.lt_irrefl _)
  | false =>
      have hne := List.isEmpty_eq_false_iff.mp hr
      obtain ⟨n, event, kept, heq, -, ⟨rfl, -, -⟩ | ⟨-, rfl⟩⟩ :=
        Machine.stepBody_eq t.machine body hne
      · rw [Machine.step_body hp hb hr, heq, offset_apply] at hlt
        exact absurd hlt (Nat.not_lt.mpr (Nat.le_of_eq (Reader.offsetAt_zero _)))
      · rw [Machine.step_body hp hb hr, heq]
        exact ⟨⟨_, rfl⟩, Reader.start_capture _ _⟩

theorem markupSound_after (source : String) (grammar : γ) (n : Nat) :
    ((ofString source grammar).after n).machine.MarkupSound := by
  induction n with
  | zero => exact nofun
  | succ n ih => exact Machine.markupSound_step ih _

/-- A place from the cursor on where a text occurs is passed over by exactly that scan before the
    end which starts at or before it and ends after it. -/
theorem exists_scan_of_occursAt {s : Scanner γ} {p : List Char} {o : Nat} (hp : p ≠ [])
    (hocc : s.reader.document.OccursAt p o) (ho : s.reader.offset ≤ o) :
    ∃ n, s.eventAt n ≠ .finished ∧ (s.after n).reader.offset ≤ o ∧
      o < (s.after (n + 1)).reader.offset := by
  obtain ⟨k, -, hend⟩ := exists_finished_le s
  have hpast : o < (s.after k).reader.offset := by
    refine Nat.lt_of_not_le fun hle => hp ?_
    rw [← document_after s k] at hocc
    obtain ⟨j, -, -, hpre⟩ := Reader.occursAt_iff.mp ⟨hocc, hle⟩
    have hrest : (s.after k).reader.rest = [] :=
      List.isEmpty_iff.mp (Machine.step_finished_iff.mp hend).1
    rw [hrest, List.drop_nil] at hpre
    exact List.prefix_nil.mp hpre
  have hsome : ∃ i, o < (s.after i).reader.offset := ⟨k, hpast⟩
  have hfirst := Nat.find_spec hsome
  have hbefore : ∀ i < Nat.find hsome, ¬ o < (s.after i).reader.offset :=
    fun _ => Nat.find_min hsome
  generalize Nat.find hsome = first at hfirst hbefore
  cases first with
  | zero => exact absurd hfirst (Nat.not_lt.mpr ho)
  | succ n =>
      have hle := Nat.le_of_not_lt (hbefore n (Nat.lt_succ_self n))
      refine ⟨n, fun hfin => ?_, hle, hfirst⟩
      have hsame := (scanHere_of_finished (s := s.after n) (Prod.ext hfin rfl)).2
      rw [after_succ, hsame] at hfirst
      exact absurd hfirst (Nat.not_lt.mpr hle)

/-- In a run from the start, no open delimiter begins in what a scan takes, unless it opens a tag or
    passes over a body. -/
theorem not_occursAt_opener {source : String} {grammar : γ} {n o : Nat}
    (hend : (ofString source grammar).eventAt n ≠ .finished)
    (hopen : (ofString source grammar).eventAt n ≠ .token .openDelimiter)
    (hbody : ¬ (ofString source grammar).PassesBody n)
    (hle : ((ofString source grammar).after n).reader.offset ≤ o)
    (hlt : o < ((ofString source grammar).after (n + 1)).reader.offset) (form : TagForm) :
    ¬ (ofString source grammar).reader.document.OccursAt form.opener o := by
  have hnone : ((ofString source grammar).after n).machine.phase = .literal →
      ((ofString source grammar).after n).machine.body = none := fun hp =>
    Classical.byContradiction fun hsome => hbody ⟨hp, hsome⟩
  have havoid := Machine.step_avoids (markupSound_after source grammar n) hend hopen hnone
  rw [after_succ, reader_scanHere, offset_apply] at hlt
  have hmem : form.opener ∈ openers := by cases form <;> decide
  rw [← document_after _ n]
  exact havoid.not_occursAt hmem hle hlt

/-- No open delimiter of the document is passed over in the run. -/
structure FindsOpeners (s : Scanner γ) : Prop where
  /-- Every open delimiter that shares no byte with a body that is passed over, nor with an open
      delimiter taken before it, is where a tag is opened. -/
  opens : ∀ (form : TagForm) (o : Nat), s.reader.document.OccursAt form.opener o →
    (∀ n kind, s.PassesBody n → s.eventAt n = .token kind →
      (s.after (n + 1)).reader.offset ≤ o ∨ o + 2 ≤ (s.after (n + 1)).reader.start) →
    (∀ i, s.eventAt i = .token .openDelimiter →
      ¬ ((s.after (i + 1)).reader.start < o ∧ o < (s.after (i + 1)).reader.start + 2)) →
    ∃ i, s.eventAt i = .token .openDelimiter ∧ (s.after (i + 1)).reader.start = o
  /-- Neither a run of text nor a token holds one, or the first half of one, unless it is an open
      delimiter itself or a body; an end tag, which reaches back to its own open delimiter, holds
      none in the part that is new. -/
  hides_none : ∀ n, s.eventAt n ≠ .finished → s.eventAt n ≠ .token .openDelimiter →
    ¬ s.PassesBody n →
    ∀ o, (s.after (n + 1)).reader.start ≤ o → o < (s.after (n + 1)).reader.offset →
      (s.eventAt n = .token .endTag → (s.after n).reader.offset ≤ o) →
        ∀ form : TagForm, ¬ s.reader.document.OccursAt form.opener o

/-- **No open delimiter is passed over**, in a run from the start of any text, in any grammar. -/
theorem opener_starts_tag (source : String) (grammar : γ) :
    (ofString source grammar).FindsOpeners where
  opens form o hocc hbodies hopeners := by
    have hne : form.opener ≠ [] := by cases form <;> decide
    obtain ⟨n, hend, hle, hlt⟩ := exists_scan_of_occursAt hne hocc (Nat.zero_le o)
    by_cases hopen : (ofString source grammar).eventAt n = .token .openDelimiter
    · -- the open delimiter taken there starts at the place itself, or it would overlap it
      refine ⟨n, hopen, ?_⟩
      obtain ⟨-, -, htwo⟩ := opened_after hopen
      have hstart := (start_after_scan source grammar hend).1 (by rw [hopen]; exact nofun)
      rw [← hstart] at hle
      rcases Nat.lt_or_eq_of_le hle with hlt' | heq
      · exact absurd ⟨hlt', htwo ▸ hlt⟩ (hopeners n hopen)
      · exact heq
    · have hbody : (ofString source grammar).PassesBody n := Classical.byContradiction fun hbody =>
        not_occursAt_opener hend hopen hbody hle hlt form hocc
      -- a body that is passed over there would share the first byte
      obtain ⟨⟨kind, he⟩, hstart⟩ := hbody.exists_token (Nat.lt_of_le_of_lt hle hlt)
      rcases hbodies n kind hbody he with hafter | hbefore
      · exact absurd hlt (Nat.not_lt.mpr hafter)
      · rw [hstart] at hbefore
        exact absurd hle (Nat.not_le.mpr (Nat.lt_of_lt_of_le (Nat.lt_add_of_pos_right Nat.two_pos)
          hbefore))
  hides_none n hend hopen hbody o hstart hlt htag form := by
    refine not_occursAt_opener hend hopen hbody ?_ hlt form
    by_cases he : (ofString source grammar).eventAt n = .token .endTag
    · exact htag he
    · rw [← (start_after_scan source grammar hend).1 he]
      exact hstart

-- an unterminated string does not hide the tag that follows it
example :
    let s := ofString "\x7b\x7b 'a\x7b%x%\x7d" Dialect.empty.lookup
    ((List.range 9).filter fun n => s.eventAt n = .token .openDelimiter).map
      (fun n => (s.after (n + 1)).reader.start) = [0, 5] := by
  decide

end Scanner

end TemplateScan
