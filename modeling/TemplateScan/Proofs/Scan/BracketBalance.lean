import TemplateScan.Proofs.Scan.TagExtent

/-! # Brackets — every bracket opened in a tag is closed or reported

    The brackets of the machine are exactly the ones that the tokens of the current tag have opened
    and neither closed nor reported as missing.  The tag is left when there are none, so the three
    kinds of token balance over every tag.

    * **`TagStep.bracketStep`** — what one step does to the open brackets.
    * **`found_add_depth`** — what a run inside a tag has done to it.
    * **`brackets_balanced`** — over a whole tag, and over every beginning of it. -/

namespace TemplateScan

open Text

theorem Brackets.eq_empty_of_isEmpty {b : Brackets} (h : b.isEmpty = true) : b = ∅ := by
  obtain ⟨stack⟩ := b
  cases stack with
  | nil => rfl
  | cons _ _ => exact nomatch h

theorem Brackets.depth_eq_of_not_isEmpty {b : Brackets} (h : b.isEmpty = false) :
    b.depth = b.pop.depth + 1 := by
  obtain ⟨stack⟩ := b
  cases stack with
  | nil => exact nomatch h
  | cons _ _ => rfl

namespace Machine

variable {γ : Type} [Grammar γ] {ending : Bool} {bound : Nat} {m : Machine γ} {r : Reader}
  {reply : Reply γ}

-- ── one step ─────────────────────────────────────────────────────────────────────

/-- What a step inside a tag does to its brackets.  Before the close delimiter, where `bound` is
    one, and at the end of the document they can only be reported. -/
inductive BracketStep (ending : Bool) (bound : Nat) (m : Machine γ) (r : Reader)
    (reply : Reply γ) : Prop where
  | opens (he : reply.event = .token .openBracket)
      (hd : reply.machine.brackets.depth = m.brackets.depth + 1) (hr : r.rest ≠ [])
      (hb : 1 < bound)
  | closes (he : reply.event = .token .closeBracket)
      (hd : m.brackets.depth = reply.machine.brackets.depth + 1) (hr : r.rest ≠ [])
      (hb : 1 < bound)
  | reports (he : reply.event = .token (.invalid .missingBracket))
      (hd : m.brackets.depth = reply.machine.brackets.depth + 1) (hx : reply.extent = .take 0)
      (hl : reply.machine.phase = .close ending ∨ r.rest = [])
  | keeps (ho : reply.event ≠ .token .openBracket) (hc : reply.event ≠ .token .closeBracket)
      (hm : reply.event ≠ .token (.invalid .missingBracket))
      (hd : reply.machine.brackets.depth = m.brackets.depth)

omit [Grammar γ] in
/-- The parts of a tag leave its brackets alone. -/
theorem bracketStep_part {kind : TokenKind} (hk : kind.isPart = true)
    (he : reply.event = .token kind)
    (hd : reply.machine.brackets.depth = m.brackets.depth) :
    BracketStep ending bound m r reply := by
  refine .keeps ?_ ?_ ?_ hd
  · rw [he]
    rintro ⟨⟩
    exact nomatch hk
  · rw [he]
    rintro ⟨⟩
    exact nomatch hk
  · rw [he]
    rintro ⟨⟩
    exact nomatch hk

theorem ne_nil_of_head? {c : Char} {text : List Char} (h : text.head? = some c) : text ≠ [] := by
  rintro rfl
  exact nomatch h

/-- A step inside a tag opens a bracket, closes one, reports one, or leaves them all alone. -/
theorem TagStep.bracketStep (h : TagStep ending bound m r reply) :
    BracketStep ending bound m r reply := by
  cases h with
  | space hk _ _ => rcases hk with rfl | rfl <;> exact .keeps nofun nofun nofun rfl
  | trimLeft _ _ _ | outputTag _ _ _ | endTag _ _ _ | trimRight _ _ =>
      exact .keeps nofun nofun nofun rfl
  | @startTag g name _ _ _ =>
      obtain ⟨kind, blocks, hk, heq⟩ := takeStartTag_eq { m with grammar := g } name r.document
      rw [heq]
      exact bracketStep_part hk rfl rfl
  | part hk _ _ _ _ => exact bracketStep_part hk rfl rfl
  | @mark fault _ _ hf _ _ _ | @recovered fault _ hf _ _ =>
      have hk : (TokenKind.invalid fault).isPart = true := hf
      exact bracketStep_part hk rfl rfl
  | keyPath hk _ _ _ _ => exact bracketStep_part hk rfl (Brackets.depth_markDynamic _)
  | openBracket hh _ _ hb => exact .opens rfl (Brackets.depth_push _ _) (ne_nil_of_head? hh) hb
  | closeBracket hh hb _ _ hr =>
      exact .closes rfl (Brackets.depth_eq_of_not_isEmpty hb) (ne_nil_of_head? hh) hr
  | dropBracket hb _ _ hl => exact .reports rfl (Brackets.depth_eq_of_not_isEmpty hb) rfl hl
  | @closed g hb _ =>
      have hzero : m.brackets.depth = 0 := Brackets.isEmpty_iff_depth.mp hb
      cases ending with
      | false => exact .keeps nofun nofun nofun hzero.symm
      | true => exact .keeps nofun nofun nofun hzero.symm
  | abandoned hb _ =>
      have hzero : m.brackets.depth = 0 := Brackets.isEmpty_iff_depth.mp hb
      exact .keeps nofun nofun nofun hzero.symm

/-- Outside tags, and right after an open delimiter, no bracket is open. -/
def BracketSound (m : Machine γ) : Prop :=
  m.phase.inTag = false ∨ m.phase = .opened → m.brackets = ∅

/-- A named phase is neither outside tags nor right after an open delimiter. -/
theorem not_outside_of_isNamed {p : Phase} (h : p.isNamed = true) :
    ¬ (p.inTag = false ∨ p = .opened) := by
  rintro (hp | rfl)
  · rw [Phase.inTag_of_isNamed h] at hp
    exact nomatch hp
  · exact nomatch h

/-- Inside a tag a step opens brackets only behind the name, and leaves none open when it leaves the
    tag. -/
theorem TagStep.bracketSound (hm : m.BracketSound) (h : TagStep ending bound m r reply) :
    reply.machine.BracketSound := by
  cases h with
  | space _ _ _ => exact hm
  | trimLeft hp _ _ => exact fun _ => hm (Or.inr hp)
  | closed _ _ | abandoned _ _ => exact fun _ => rfl
  | outputTag _ _ _ | endTag _ _ _ | recovered _ _ _ | trimRight _ _ =>
      rintro (h | h) <;> exact nomatch h
  | @startTag g name _ _ _ =>
      exact fun h => absurd h (not_outside_of_isNamed (isNamed_identity { m with grammar := g }))
  | part _ _ _ hp _ | keyPath _ _ _ hp _ | closeBracket _ _ hp _ _ =>
      exact fun h => absurd h (not_outside_of_isNamed hp)
  | mark _ hp _ _ | openBracket _ hp _ _ => exact fun h => absurd h (not_outside_of_isNamed hp)
  | dropBracket hb hp _ _ =>
      rintro h
      rcases hp with rfl | rfl
      · rw [hm h] at hb
        exact nomatch hb
      · rcases h with h | h <;> exact nomatch h

/-- Outside tags brackets are left alone, or forgotten where a tag opens. -/
theorem TextStep.brackets_eq (hr : r.rest ≠ []) (h : TextStep m r reply) :
    reply.machine.brackets = m.brackets ∨ reply.machine.brackets = ∅ := by
  rcases h.opens_or_keeps hr with ⟨form, rfl⟩ | hkeeps
  · exact Or.inr rfl
  · exact Or.inl hkeeps.brackets

omit [Grammar γ] in
theorem brackets_flush (m : Machine γ) (size : Nat) : (m.flush size).brackets = m.brackets := by
  rw [flush]
  split <;> rfl

/-- No step leaves brackets open outside tags, or where a tag opens. -/
theorem bracketSound_step (hm : m.BracketSound) (r : Reader) : (m.step r).machine.BracketSound := by
  cases hp : m.phase.inTag with
  | true => exact (step_inTag m r hp).bracketSound hm
  | false =>
      intro _
      have hnone := hm (Or.inl hp)
      cases hr : r.atEnd with
      | true =>
          rw [step_atEnd hp hr, brackets_flush]
          exact hnone
      | false =>
          have hne := List.isEmpty_eq_false_iff.mp hr
          rcases (step_outside m r hp hr).brackets_eq hne with heq | heq
          · exact heq.trans hnone
          · exact heq

-- ── reported brackets ────────────────────────────────────────────────────────────

/-- The brackets are being given up: the close delimiter or the end of the document comes next. -/
def GivesUp (m : Machine γ) (r : Reader) : Prop :=
  (∃ ending, m.phase = .close ending) ∨ r.rest = []

/-- A step before the close delimiter stays there or leaves the tag. -/
theorem phase_close (m : Machine γ) (ending : Bool) (rest : List Char) :
    (m.close ending rest).machine.phase = .close ending ∨
      (m.close ending rest).machine.phase = .literal := by
  rw [close]
  split
  · exact Or.inl rfl
  · split
    · exact Or.inl rfl
    · split
      · exact Or.inl rfl
      · split
        · exact Or.inr rfl
        · split
          · exact Or.inl rfl
          · exact Or.inr rfl

/-- Before the close delimiter a step stays there, or leaves the tag. -/
theorem phase_step_close (hp : m.phase = .close ending) (r : Reader) :
    (m.step r).machine.phase = .close ending ∨ (m.step r).machine.phase = .literal := by
  rw [step]
  split
  · rw [stepEnd, if_pos (by rw [hp]; rfl)]
    split
    · exact Or.inl hp
    · exact Or.inr rfl
  · rw [if_neg (by rw [hp]; rintro ⟨⟩)]
    dsimp only
    split
    · exact Or.inl hp
    · split
      · exact Or.inl hp
      · rw [stepPhase, hp]
        exact phase_close m ending r.rest

/-- Once the brackets are being given up, none is opened or closed any more. -/
theorem no_bracket_of_givesUp (hp : m.phase.inTag = true) (h : m.GivesUp r) :
    (m.step r).event ≠ .token .openBracket ∧ (m.step r).event ≠ .token .closeBracket := by
  have hnot : r.rest ≠ [] → 1 < m.phase.rank → False := by
    intro hr hrank
    rcases h with ⟨ending, hclose⟩ | hrest
    · rw [hclose] at hrank
      exact absurd hrank (Nat.lt_irrefl 1)
    · exact hr hrest
  cases (step_inTag m r hp).bracketStep with
  | opens _ _ hr hb => exact (hnot hr hb).elim
  | closes _ _ hr hb => exact (hnot hr hb).elim
  | reports he _ _ _ =>
      rw [he]
      exact ⟨nofun, nofun⟩
  | keeps ho hc _ _ => exact ⟨ho, hc⟩

/-- Brackets that are being given up are given up until the tag is left. -/
theorem givesUp_step (h : m.GivesUp r) (hp : (m.step r).machine.phase.inTag = true) :
    (m.step r).machine.GivesUp ((m.step r).extent.apply r) := by
  rcases h with ⟨ending, hclose⟩ | hrest
  · rcases phase_step_close hclose r with hnext | hnext
    · exact Or.inl ⟨ending, hnext⟩
    · rw [hnext] at hp
      exact nomatch hp
  · refine Or.inr ?_
    rw [rest_apply, hrest, List.drop_nil]

end Machine

namespace Scanner

variable {γ : Type} [Grammar γ] {s : Scanner γ} {n : Nat}

-- ── inside a tag ─────────────────────────────────────────────────────────────────

/-- How many of the first `n` scans find a token of the given kind. -/
def found (s : Scanner γ) (kind : TokenKind) (n : Nat) : Nat :=
  (List.range n).countP fun k => s.eventAt k = .token kind

@[simp] theorem found_zero (s : Scanner γ) (kind : TokenKind) : s.found kind 0 = 0 := rfl

/-- A scan that finds the kind counts. -/
theorem found_succ_of_eq {kind : TokenKind} (h : s.eventAt n = .token kind) :
    s.found kind (n + 1) = s.found kind n + 1 := by
  rw [found, List.range_succ, List.countP_append, List.countP_singleton, h, decide_eq_true rfl,
    if_pos rfl]
  rfl

/-- Any other scan does not. -/
theorem found_succ_of_ne {kind : TokenKind} (h : s.eventAt n ≠ .token kind) :
    s.found kind (n + 1) = s.found kind n := by
  rw [found, List.range_succ, List.countP_append, List.countP_singleton, decide_eq_false h,
    if_neg Bool.false_ne_true]
  rfl

/-- The brackets open after some scans inside a tag are those opened before or since, less those
    closed and those reported. -/
theorem found_add_depth (h : ∀ i < n, (s.after i).machine.phase.inTag = true) :
    s.found .closeBracket n + s.found (.invalid .missingBracket) n +
        (s.after n).machine.brackets.depth =
      s.found .openBracket n + s.machine.brackets.depth := by
  induction n with
  | zero => simp
  | succ n ih =>
      have hold := ih fun i hi => h i (Nat.lt_succ_of_lt hi)
      have hin := h n (Nat.lt_succ_self n)
      rw [after_succ, machine_scanHere]
      cases (Machine.step_inTag _ (s.after n).reader hin).bracketStep with
      | opens he hd _ _ =>
          have he : s.eventAt n = .token .openBracket := he
          rw [found_succ_of_eq he, found_succ_of_ne (by rw [he]; exact nofun),
            found_succ_of_ne (by rw [he]; exact nofun)]
          omega
      | closes he hd _ _ =>
          have he : s.eventAt n = .token .closeBracket := he
          rw [found_succ_of_eq he, found_succ_of_ne (by rw [he]; exact nofun),
            found_succ_of_ne (by rw [he]; exact nofun)]
          omega
      | reports he hd _ _ =>
          have he : s.eventAt n = .token (.invalid .missingBracket) := he
          rw [found_succ_of_eq he, found_succ_of_ne (by rw [he]; exact nofun),
            found_succ_of_ne (by rw [he]; exact nofun)]
          omega
      | keeps ho hc hm hd =>
          rw [found_succ_of_ne ho, found_succ_of_ne hc, found_succ_of_ne hm]
          omega

/-- Once a bracket has been reported in a tag, none is opened or closed in it any more. -/
theorem no_bracket_after_report {k j : Nat}
    (h : ∀ i ≤ j, (s.after i).machine.phase.inTag = true) (hkj : k < j)
    (hk : s.eventAt k = .token (.invalid .missingBracket)) :
    s.eventAt j ≠ .token .openBracket ∧ s.eventAt j ≠ .token .closeBracket := by
  obtain ⟨i, rfl⟩ := Nat.exists_eq_add_of_le (Nat.succ_le_of_lt hkj)
  have hgives : (s.after (k + 1 + i)).machine.GivesUp (s.after (k + 1 + i)).reader := by
    induction i with
    | zero =>
        have hin := h k (by omega)
        rw [Nat.add_zero, after_succ, machine_scanHere, reader_scanHere]
        cases (Machine.step_inTag _ (s.after k).reader hin).bracketStep with
        | opens he _ _ _ => exact nomatch he.symm.trans hk
        | closes he _ _ _ => exact nomatch he.symm.trans hk
        | keeps _ _ hm _ => exact absurd hk hm
        | reports _ _ _ hl =>
            rcases hl with hclose | hrest
            · exact Or.inl ⟨_, hclose⟩
            · refine Or.inr ?_
              rw [rest_apply, hrest, List.drop_nil]
    | succ i ih =>
        have hnext := h (k + 1 + (i + 1)) (Nat.le_refl _)
        exact Machine.givesUp_step (ih (fun i' hi' => h i' (by omega)) (by omega)) hnext
  exact Machine.no_bracket_of_givesUp (h _ (Nat.le_refl _)) hgives

-- ── whole tags ───────────────────────────────────────────────────────────────────

/-- The brackets of the first `n` scans balance. -/
structure BracketsBalance (s : Scanner γ) (n : Nat) : Prop where
  /-- Every bracket opened is closed or reported as missing. -/
  settled : s.found .openBracket n =
    s.found .closeBracket n + s.found (.invalid .missingBracket) n
  /-- None is closed or reported before it is opened. -/
  sane : ∀ k ≤ n, s.found .closeBracket k + s.found (.invalid .missingBracket) k ≤
    s.found .openBracket k
  /-- The reports have no width, and come after all brackets. -/
  reported : ∀ k < n, s.eventAt k = .token (.invalid .missingBracket) →
    (s.after (k + 1)).reader.start = (s.after (k + 1)).reader.offset ∧
      ∀ j < n, s.eventAt j = .token .openBracket ∨ s.eventAt j = .token .closeBracket → j < k

/-- From a place in a tag without open brackets, the brackets of the rest of the tag balance. -/
theorem bracketsBalance_of_leave (hnone : s.machine.brackets = ∅)
    (hin : ∀ i ≤ n, (s.after i).machine.phase.inTag = true)
    (hempty : (s.after (n + 1)).machine.brackets = ∅) : s.BracketsBalance (n + 1) := by
  have hcount : ∀ k ≤ n + 1, _ := fun k hk =>
    found_add_depth (s := s) (n := k) fun i hi => hin i (by omega)
  have hzero : s.machine.brackets.depth = 0 := by rw [hnone]; rfl
  refine ⟨?_, fun k hk => ?_, fun k hk he => ⟨?_, fun j hj hbracket => ?_⟩⟩
  · have hend := hcount (n + 1) (Nat.le_refl _)
    rw [hempty, hzero] at hend
    exact hend.symm
  · have hk := hcount k hk
    omega
  · rw [after_succ, reader_scanHere]
    cases (Machine.step_inTag _ (s.after k).reader (hin k (by omega))).bracketStep with
    | opens he' _ _ _ => exact nomatch he'.symm.trans he
    | closes he' _ _ _ => exact nomatch he'.symm.trans he
    | keeps _ _ hm _ => exact absurd he hm
    | reports _ _ hx _ =>
        rw [hx, offset_apply]
        exact (Reader.start_capture _ _).trans (Reader.offsetAt_zero _).symm
  · refine Nat.lt_of_not_le fun hkj => ?_
    rcases Nat.lt_or_eq_of_le hkj with hlt | rfl
    · obtain ⟨ho, hc⟩ := no_bracket_after_report (fun i hi => hin i (by omega)) hlt he
      rcases hbracket with hbracket | hbracket
      · exact ho hbracket
      · exact hc hbracket
    · rcases hbracket with hbracket | hbracket <;> exact nomatch he.symm.trans hbracket

/-- After any number of scans no bracket is open outside tags. -/
theorem bracketSound_after (source : String) (grammar : γ) (n : Nat) :
    ((ofString source grammar).after n).machine.BracketSound := by
  induction n with
  | zero => exact fun _ => rfl
  | succ n ih => exact Machine.bracketSound_step ih _

/-- The brackets of the run balance, tag by tag. -/
structure BalancesBrackets (s : Scanner γ) : Prop where
  /-- Outside tags no bracket is open. -/
  outside : ∀ n, (s.after n).machine.phase.inTag = false → (s.after n).machine.brackets = ∅
  /-- Every tag that is opened ends, and its brackets balance. -/
  inside : ∀ i, s.eventAt i = .token .openDelimiter →
    ∃ n, ((s.after (i + 1)).eventAt n).endsTag = true ∧
      (∀ k < n, (s.after (i + 1)).eventAt k ≠ .token .openDelimiter ∧
        ((s.after (i + 1)).eventAt k).endsTag = false) ∧
      (s.after (i + 1)).BracketsBalance (n + 1)

/-- **The balance of brackets**, in a run from the start of any text, in any grammar. -/
theorem brackets_balanced (source : String) (grammar : γ) :
    (ofString source grammar).BalancesBrackets where
  outside n hn := bracketSound_after source grammar n (Or.inl hn)
  inside i hi := by
    obtain ⟨n, hin, hstays, hleaves⟩ := exists_stays_leaves (opened_after hi).1
    have hnone : ((ofString source grammar).after (i + 1)).machine.brackets = ∅ := by
      obtain ⟨form, -, heq⟩ := Machine.step_eq_openTag (bodySound_after source grammar i) hi
      rw [after_succ, machine_scanHere, heq]
      rfl
    have hempty :
        (((ofString source grammar).after (i + 1)).after (n + 1)).machine.brackets = ∅ := by
      rw [← after_add]
      refine bracketSound_after source grammar _ (Or.inl ?_)
      rw [after_add, after_succ, machine_scanHere, hleaves.phase_eq]
      rfl
    refine ⟨n, hleaves.endsTag, fun k hk => ⟨fun he => ?_, (hstays k hk).not_endsTag⟩,
      bracketsBalance_of_leave hnone hin hempty⟩
    obtain ⟨kind, hkind, hne⟩ := (hstays k hk).event
    exact hne (Event.token.inj (hkind.symm.trans he))

end Scanner

end TemplateScan
