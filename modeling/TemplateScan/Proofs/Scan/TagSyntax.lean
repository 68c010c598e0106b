import TemplateScan.Dialect.Standard
import TemplateScan.Proofs.Scan.Pairing
import TemplateScan.Proofs.Scan.Recognizer
import TemplateScan.Proofs.Scan.TrimDash

/-! # The syntax of tags — a tag without faults follows the grammar

    Each step inside a tag passes over blanks or begins what is expected in its phase.  So whatever
    a run finds inside a tag, read backwards from the delimiter that closes it, is what was expected
    all along, and the whole tag is a sequence of its grammar.

    * **`continues_step`** — one step.
    * **`tag_follows_grammar`** — a whole tag, in any run. -/

namespace TemplateScan

open Text

namespace Machine

variable {m : Machine Lookup} {r : Reader} {kind : TokenKind} {n : Nat}

-- ── steps ────────────────────────────────────────────────────────────────────────

/-- Each phase inside a tag begins what is expected in it. -/
theorem begins_stepPhase (hp : m.phase.inTag = true) (ht : m.Tidy) :
    (m.stepPhase r).Begins r (m.Expected r) := by
  cases h : m.phase with
  | literal | markup _ => rw [h] at hp; cases hp
  | opened =>
      simp only [stepPhase, h, Tidy] at ht ⊢
      exact begins_stepOpened h ht
  | close ending =>
      simp only [stepPhase, h, Expected]
      exact begins_close fun w hw => hw
  | outputValue =>
      simp only [stepPhase, h, Tidy, Expected, Remainder] at ht ⊢
      exact begins_expectValue rfl ht
  | unknownTag | skipRest =>
      simp only [stepPhase, h, Tidy, Expected, Remainder] at ht ⊢
      exact begins_skipRest (fun _ hw => hw) ht
  | embedded =>
      simp only [stepPhase, h, Tidy, Expected, Remainder] at ht ⊢
      exact begins_stepEmbedded ht
  | loop phase =>
      cases phase <;> simp only [stepPhase, stepLoop, h, Tidy, Expected, Remainder] at ht ⊢
      · exact begins_stepLoopVariable ht
      · exact begins_stepLoopOperator ht
      · exact begins_stepCollection ht
      · exact begins_stepParameter ht
      · exact begins_stepParameterValue ht
  | assignment phase =>
      cases phase <;> simp only [stepPhase, stepAssignment, h, Tidy, Expected, Remainder] at ht ⊢
      · exact begins_stepAssignedName ht
      · exact begins_stepAssignmentOperator ht
      · exact begins_expectValue rfl ht
  | control phase =>
      cases phase <;> simp only [stepPhase, stepControl, h, Tidy, Expected, Remainder] at ht ⊢
      · exact begins_stepControlStart ht
      · exact begins_stepCondition ht
      · exact begins_stepOperator ht
  | path phase resume =>
      cases phase <;> simp only [stepPhase, stepPath, h, Tidy, Expected, Remainder] at ht ⊢
      · exact begins_stepMember
      · exact begins_stepDot
      · exact begins_stepKey ht
      · exact begins_stepKeyEnd ht
  | filter phase =>
      cases phase <;> simp only [stepPhase, stepFilter, h, Tidy, Expected, Remainder] at ht ⊢
      · exact begins_stepPipe ht
      · exact begins_stepFilterName ht
      · exact begins_stepColon ht.1 ht.2
      · exact begins_stepArgument ht.1 ht.2
      · exact begins_stepSeparator ht

/-- Blanks may stand before whatever is expected. -/
theorem expected_of_blanks {w : List Lexeme} (hn : 0 < n) (hlen : n ≤ r.rest.length)
    (hblank : ∀ c ∈ r.rest.take n, isTagBlank c = true) (h : m.Expected (r.capture n) w) :
    m.Expected r w := by
  cases hp : m.phase with
  | opened =>
      have hoffset : r.offset < (r.capture n).offset := by
        rw [Reader.offset_capture, ← Reader.offsetAt_zero r]
        exact Reader.offsetAt_lt hn hlen
      simp only [Expected, hp] at h ⊢
      split
      · split at h
        · exact h
        · exact .of_nil (Or.inl rfl) h
      · next hbehind =>
          rwa [if_neg (by omega)] at h
  | close ending =>
      -- what comes next is blank, and so it is not the close delimiter
      have hnot : ¬ m.tag.form.closer.isPrefixOf r.rest = true := by
        intro hc
        obtain ⟨tail, htail⟩ := List.isPrefixOf_iff_prefix.mp hc
        cases hr : r.rest with
        | nil =>
            rw [hr] at hlen
            exact absurd hlen (by simp; omega)
        | cons c cs =>
            have hblank := hblank c (by
              rw [hr]
              obtain ⟨k, rfl⟩ := Nat.exists_eq_add_of_lt hn
              simp)
            rw [hr] at htail
            cases hf : m.tag.form <;> rw [hf] at htail <;>
              obtain rfl := (List.cons.inj htail).1 <;> cases hblank
      simp only [Expected, hp] at h ⊢
      rw [Closes, if_neg hnot]
      exact isClose_of_closes h
  | loop phase =>
      cases phase with
      | parameterValue =>
          simp only [Expected, Remainder, hp] at h ⊢
          rwa [afterColon_blanks fun c hc => isBlank_of_isTagBlank (hblank c hc)] at h
      | variableName | operator | collection | parameter =>
          simp only [Expected, Remainder, hp] at h ⊢
          exact h
  | literal | markup _ =>
      simp only [Expected, hp] at h ⊢
      exact h
  | outputValue | unknownTag | embedded | skipRest =>
      simp only [Expected, Remainder, hp] at h ⊢
      exact h
  | assignment phase | control phase | filter phase =>
      cases phase <;> (simp only [Expected, Remainder, hp] at h ⊢; exact h)
  | path phase _ => cases phase <;> (simp only [Expected, Remainder, hp] at h ⊢; exact h)

/-- Blanks are passed over. -/
theorem continues_blanks {p : Char → Bool} (hk : kind.isBlank = true)
    (hblank : ∀ c, p c = true → isTagBlank c = true)
    (hne : (r.rest.takeWhile p).isEmpty = false) (ht : m.Tidy) :
    (m.emit kind (r.rest.takeWhile p).length m.phase).Continues m r := by
  refine fun _ => ⟨ht, kind, rfl, fun w hw => ?_⟩
  rw [hk, if_pos rfl]
  refine expected_of_blanks ?_ (List.takeWhile_prefix p).length_le (fun c hc => ?_) hw
  · exact List.length_pos_iff.mpr (List.isEmpty_eq_false_iff.mp hne)
  · exact hblank c (of_mem_take_takeWhile hc)

/-- **Every step inside a tag** passes over blanks, or begins what is expected in its phase. -/
theorem continues_step (hp : m.phase.inTag = true) (ht : m.Tidy) : (m.step r).Continues m r := by
  have hphase : m.phase ≠ .literal := by
    intro h
    rw [h] at hp
    cases hp
  rw [step]
  split
  · -- at the end of the document a tag is left with a fault
    rw [stepEnd, if_pos hp]
    split <;> exact by rintro ⟨⟩
  · dsimp only
    by_cases hs : (r.rest.takeWhile isSpacing).isEmpty = true
    · by_cases hl : (r.rest.takeWhile isLineBreak).isEmpty = true
      · rw [hs, hl]
        intro hf
        obtain ⟨htidy, kind, he, hk, hnext⟩ := begins_stepPhase hp ht hf
        refine ⟨htidy, kind, he, fun w hw => ?_⟩
        rw [hk]
        exact hnext w hw
      · rw [Bool.not_eq_true] at hl
        rw [hs, hl]
        exact continues_blanks rfl (fun c hc => by rw [isTagBlank, hc, Bool.or_true]) hl ht
    · rw [Bool.not_eq_true] at hs
      rw [hs]
      exact continues_blanks rfl (fun c hc => by rw [isTagBlank, hc, Bool.true_or]) hs ht

end Machine

-- ── runs ─────────────────────────────────────────────────────────────────────────

namespace Scanner

/-- What a run finds inside a tag, up to where nothing more is expected, is what was expected where
    it began. -/
theorem expected_lexemes {s : Scanner Lookup} {k : Nat}
    (hin : ∀ q < k, (s.after q).machine.phase.inTag = true)
    (hclean : ∀ q < k, (s.eventAt q).fault? = none) (ht : s.machine.Tidy)
    (hend : (s.after k).machine.Expected (s.after k).reader []) :
    s.machine.Expected s.reader ((s.lexemesUpTo k).filter (!·.kind.isBlank)) := by
  induction k generalizing s with
  | zero => exact hend
  | succ k ih =>
      obtain ⟨htidy, kind, he, hnext⟩ := Machine.continues_step (r := s.reader)
        (hin 0 (Nat.succ_pos k)) ht (hclean 0 (Nat.succ_pos k))
      rw [Nat.add_comm, after_add] at hend
      have hrest := ih (s := s.after 1)
        (fun q hq => by
          rw [← after_add]
          exact hin (1 + q) (by omega))
        (fun q hq => by
          rw [← eventAt_add]
          exact hclean (1 + q) (by omega)) htidy hend
      have hfound := hnext _ hrest
      rw [Nat.add_comm, lexemesUpTo_add, lexemesUpTo_one, lexemeAt_of_token he, Option.toList_some,
        List.singleton_append, List.filter_cons]
      cases hk : kind.isBlank with
      | true =>
          rw [hk] at hfound
          exact hfound
      | false =>
          rw [hk] at hfound
          exact hfound

/-- **Tags follow the grammar.**  In a run from the start of any text, take any tag that is closed
    and in which no fault is found: its tokens without the white space between them, from its open
    delimiter to the delimiter that closes it, make up a tag of the grammar of its dialect. -/
theorem tag_follows_grammar (source : String) (dialect : Dialect) {i j : Nat}
    (ho : (ofString source dialect.lookup).OpensTagOf i j)
    (hc : (ofString source dialect.lookup).eventAt j = .token .closeDelimiter ∨
      (ofString source dialect.lookup).eventAt j = .token .endDelimiter)
    (hclean : ∀ k, i < k → k < j →
      ((ofString source dialect.lookup).eventAt k).fault? = none) :
    IsTag dialect ((((ofString source dialect.lookup).after i).lexemesUpTo (j + 1 - i)).filter
      (!·.kind.isBlank)) := by
  have hin {k : Nat} := OpensTagOf.inTag ho (k := k)
  have hbody := bodySound_after source dialect.lookup i
  have hdialect := dialect_after source dialect i
  generalize ofString source dialect.lookup = s at *
  obtain ⟨form, hpre, hstep⟩ := Machine.step_eq_openTag hbody ho.opens
  -- the delimiter that closes the tag leads back to literal text, where nothing more is expected
  have hends : (s.eventAt j).endsTag = true ∧ (s.eventAt j).fault? = none := by
    rcases hc with hc | hc <;> rw [hc] <;> exact ⟨rfl, rfl⟩
  have hout : (s.after (j + 1)).machine.phase = .literal := by
    rcases Machine.step_stays_or_leaves (hin ho.lt (Nat.le_refl j)).1 (s.after j).reader with
      hstay | hleave
    · exact absurd (hstay.not_endsTag.symm.trans hends.1) Bool.false_ne_true
    · exact hleave.phase_eq
  obtain ⟨k, rfl⟩ : ∃ k, j = i + k := Nat.exists_eq_add_of_le (Nat.le_of_lt ho.lt)
  have hfound := expected_lexemes (s := s.after (i + 1)) (k := k)
    (fun q hq => by
      rw [← after_add]
      exact (hin (by omega) (by omega)).1)
    (fun q hq => by
      rw [← eventAt_add]
      rcases Nat.lt_or_ge (i + 1 + q) (i + k) with hlt | hge
      · exact hclean _ (by omega) hlt
      · rw [show i + 1 + q = i + k by omega]
        exact hends.2)
    (by rw [after_succ, machine_scanHere, hstep]; rfl)
    (by rw [← after_add, Nat.add_right_comm, Machine.Expected, hout])
  have hlexemes : (s.after i).lexemesUpTo (i + k + 1 - i) =
      ⟨.openDelimiter, form.opener⟩ :: (s.after (i + 1)).lexemesUpTo k := by
    have htoken : (s.after (i + 1)).reader.token = form.opener := by
      rw [after_succ, reader_scanHere, hstep]
      show ((s.after i).reader.capture form.opener.length).token = _
      rw [Reader.token_capture, ← List.prefix_iff_eq_take.mp hpre]
    have hopen : (s.after i).lexemeAt 0 = some ⟨.openDelimiter, form.opener⟩ := by
      rw [← htoken]
      exact lexemeAt_of_token (s := s.after i) (n := 0) ho.opens
    rw [show i + k + 1 - i = 1 + k by omega, lexemesUpTo_add, lexemesUpTo_one, hopen, ← after_add]
    rfl
  rw [hlexemes, List.filter_cons_of_pos (by rfl)]
  refine .intro rfl rfl ?_
  rw [after_succ, machine_scanHere, reader_scanHere, hstep] at hfound
  have hfound : (if ((s.after i).reader.capture form.opener.length).offset ≤
      (s.after i).reader.offset + form.opener.length
    then Then (Maybe .trimLeft) (IsInner (s.after i).machine.grammar.dialect form)
    else IsInner (s.after i).machine.grammar.dialect form) _ := hfound
  rw [hdialect] at hfound
  split at hfound
  · exact hfound
  · exact .of_nil (Or.inl rfl) hfound

theorem tag_follows_grammar_condition :
    let s := ofString "\x7b%if a[b.c] == 'x' -%\x7d" Dialect.standard.lookup
    s.OpensTagOf 0 15 ∧ s.eventAt 15 = .token .closeDelimiter ∧
      (∀ k, 0 < k → k < 15 → (s.eventAt k).fault? = none) ∧
      (((s.after 0).lexemesUpTo 16).filter (!·.kind.isBlank)).map Lexeme.kind = [.openDelimiter, .control, .variableName, .openBracket,
        .variableName, .dot, .property, .closeBracket, .controlOperator, .string, .trimRight,
        .closeDelimiter] ∧
      IsTag Dialect.standard (((s.after 0).lexemesUpTo 16).filter (!·.kind.isBlank)) := by
  intro s
  obtain ⟨hopen, hinside, hclose, hclean, hkinds⟩ : s.eventAt 0 = .token .openDelimiter ∧
      (∀ k < 15, 0 < k → s.eventAt k ≠ .token .openDelimiter ∧ (s.eventAt k).endsTag = false) ∧
      s.eventAt 15 = .token .closeDelimiter ∧
      (∀ k < 15, 0 < k → (s.eventAt k).fault? = none) ∧
      (((s.after 0).lexemesUpTo 16).filter (!·.kind.isBlank)).map Lexeme.kind = [.openDelimiter, .control, .variableName, .openBracket,
        .variableName, .dot, .property, .closeBracket, .controlOperator, .string, .trimRight,
        .closeDelimiter] := by
    decide +kernel
  have htag : s.OpensTagOf 0 15 := ⟨by decide, hopen, fun k hk hk' => hinside k hk' hk⟩
  have hfree : ∀ k, 0 < k → k < 15 → (s.eventAt k).fault? = none :=
    fun k hk hk' => hclean k hk' hk
  exact ⟨htag, hclose, hfree, hkinds, tag_follows_grammar _ _ htag (Or.inl hclose) hfree⟩

end Scanner

end TemplateScan
