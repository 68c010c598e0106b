import TemplateScan.Proofs.Scan.Run
import TemplateScan.Proofs.Text.Cuts

/-! # Termination — every run reaches the end of the document

    Many scans take no text: marks, faults at the cursor, an empty body, a bracket given up.  Each
    of them leads to a phase of smaller rank, uses up the body, or closes a bracket, and a character
    taken pays for whatever it makes possible.  That is one number, the `potential`:

    * **`potential_scanHere_lt`** — every scan before the end lowers it.
    * **`exists_finished_le`** — so the end is found after at most that many scans.
    * **`session_reaches_end`** — after any session, in any grammar; from the start of a text after
      at most six scans for each byte.
    * **`trace_ends`** — the bound `work`, by which `trace` is cut off, is never reached. -/

namespace TemplateScan

open Text

-- ── the potential ────────────────────────────────────────────────────────────────

/-- The body to be passed over counts once. -/
def bodyCharge : Option Body → Nat
  | none => 0
  | some _ => 1

/-- How many scans without text are possible in the state of the machine. -/
def Machine.charge {γ : Type} (m : Machine γ) : Nat :=
  m.phase.rank + bodyCharge m.body + m.brackets.depth

/-- A bound on the number of scans before the end of the document is found. -/
def Scanner.potential {γ : Type} (s : Scanner γ) : Nat :=
  6 * s.reader.rest.length + s.machine.charge

/-- The ranks of phases are bounded. -/
theorem Phase.rank_le (p : Phase) : p.rank ≤ 3 := by
  cases p with
  | path phase resume => cases phase <;> simp [Phase.rank]
  | filter phase => cases phase <;> simp [Phase.rank]
  | _ => simp [Phase.rank]

/-- Inside a tag the rank is positive, so the tag can still be left without text. -/
theorem Phase.rank_pos {p : Phase} (h : p.inTag = true) : 0 < p.rank := by
  cases p with
  | literal => exact nomatch h
  | markup phase => exact nomatch h
  | path phase resume => cases phase <;> simp [Phase.rank]
  | filter phase => cases phase <;> decide
  | _ => simp [Phase.rank]

/-- A body is paid for once. -/
theorem bodyCharge_le (body : Option Body) : bodyCharge body ≤ 1 := by
  cases body <;> simp [bodyCharge]

namespace Machine

variable {γ : Type} [Grammar γ] {ending : Bool} {bound : Nat} {m : Machine γ} {r : Reader}
  {reply : Reply γ}

/-- The answer lowers the potential. -/
def Lowers (m : Machine γ) (r : Reader) (reply : Reply γ) : Prop :=
  6 * (r.rest.length - reply.extent.count) + reply.machine.charge <
    6 * r.rest.length + m.charge

omit [Grammar γ] in
/-- A character pays for a phase, a body and a bracket. -/
theorem lowers_of_count (hn : 0 < reply.extent.count) (hr : 0 < r.rest.length)
    (hd : reply.machine.brackets.depth ≤ m.brackets.depth + 1) : Lowers m r reply := by
  have hrank := Phase.rank_le reply.machine.phase
  have hbody := bodyCharge_le reply.machine.body
  rw [Lowers, charge, charge]
  omega

omit [Grammar γ] in
/-- A step without text leads to a phase of smaller rank, and changes no body and no bracket. -/
theorem lowers_of_rank (hc : reply.machine.phase.rank < m.phase.rank)
    (hb : reply.machine.body = m.body)
    (hd : reply.machine.brackets.depth ≤ m.brackets.depth) : Lowers m r reply := by
  rw [Lowers, charge, charge, hb]
  omega

/-- Inside a tag a step takes text, gives up a bracket, or goes down in rank. -/
theorem TagStep.lowers (hp : m.phase.inTag = true)
    (h : TagStep ending m.phase.rank m r reply) : Lowers m r reply := by
  have hpos := Phase.rank_pos hp
  have hle := h.count_le
  have htaken : 0 < reply.extent.count →
      reply.machine.brackets.depth ≤ m.brackets.depth + 1 → Lowers m r reply := fun hn hd =>
    lowers_of_count hn (Nat.lt_of_lt_of_le hn hle) hd
  cases h with
  | space _ hn _ | part _ hn _ _ _ => exact htaken hn (Nat.le_succ _)
  | keyPath _ hn _ _ _ =>
      refine htaken hn ?_
      rw [Brackets.depth_markDynamic]
      exact Nat.le_succ _
  | trimLeft _ _ _ | trimRight _ _ => exact htaken Nat.one_pos (Nat.le_succ _)
  | startTag _ hn _ | endTag _ hn _ =>
      obtain ⟨-, hpos, -⟩ := identifier?_eq_some hn
      exact htaken hpos (Nat.le_succ _)
  | openBracket _ _ _ => exact htaken Nat.one_pos (Nat.le_refl _)
  | closeBracket _ _ _ _ =>
      refine htaken Nat.one_pos ?_
      rw [Brackets.depth_pop]
      omega
  | closed _ _ =>
      have hlen : 0 < m.tag.form.closer.length := by cases m.tag.form <;> decide
      exact htaken hlen (Nat.zero_le _)
  | outputTag _ _ hb | mark _ _ _ hb => exact lowers_of_rank hb rfl (Nat.le_refl _)
  | abandoned _ _ => exact lowers_of_rank hpos rfl (Nat.zero_le _)
  | recovered _ _ hb =>
      by_cases hn : recoveryEnd m.tag.form r.rest = 0
      · exact lowers_of_rank hb rfl (Nat.le_refl _)
      · exact htaken (Nat.pos_of_ne_zero hn) (Nat.le_succ _)
  | dropBracket hb _ hr =>
      -- the rank may stay, but one bracket less is open
      have hdepth : m.brackets.depth ≠ 0 := fun h0 => by
        rw [Brackets.isEmpty_iff_depth.mpr h0] at hb
        exact nomatch hb
      simp only [Lowers, charge, Brackets.depth_pop, Extent.count]
      omega

/-- Outside tags a step takes text, or uses up the charge of a body. -/
theorem TextStep.lowers (hr : r.rest ≠ []) (h : TextStep m r reply) : Lowers m r reply := by
  have hlen : 0 < r.rest.length := List.length_pos_iff.mpr hr
  cases h with
  | @body body hb =>
      obtain ⟨n, event, kept, heq, -, ⟨rfl, -, rfl⟩ | ⟨hn, -⟩⟩ := stepBody_eq m body hr
      · -- an empty body takes no text, but it is used up
        rw [heq]
        simp only [Lowers, charge, bodyCharge, Extent.count, hb, Phase.rank]
        omega
      · rw [heq]
        exact lowers_of_count hn hlen (Nat.le_succ _)
  | @opens form _ _ =>
      have hpos : 0 < form.opener.length := by cases form <;> decide
      exact lowers_of_count hpos hlen (Nat.zero_le _)
  | element _ _ _ =>
      rw [stepElement]
      split
      · exact lowers_of_count (Nat.lt_add_right _ Nat.one_pos) hlen (Nat.le_succ _)
      · exact lowers_of_count (Nat.lt_add_right _ Nat.one_pos) hlen (Nat.le_succ _)
  | endElement _ _ _ =>
      rw [stepEndElement]
      split
      · exact lowers_of_count (Nat.lt_add_right _ Nat.two_pos) hlen (Nat.le_succ _)
      · exact lowers_of_count (Nat.lt_add_right _ Nat.two_pos) hlen (Nat.le_succ _)
  | text _ hn _ | markup _ hn _ _ _ _ _ | space _ hn _ _ =>
      exact lowers_of_count hn hlen (Nat.le_succ _)
  | selfClose _ _ => exact lowers_of_count Nat.two_pos hlen (Nat.le_succ _)
  | leave hp => exact lowers_of_rank (by rw [hp]; exact Nat.one_pos) rfl (Nat.le_refl _)

/-- Every step before the end of the document lowers the potential. -/
theorem step_lowers (h : (m.step r).event ≠ .finished) : Lowers m r (m.step r) := by
  cases hp : m.phase.inTag with
  | true => exact (step_inTag m r hp).lowers hp
  | false =>
      obtain ⟨hr, hne⟩ := rest_ne_nil_of_outside hp h
      exact (step_outside m r hp hr).lowers hne

end Machine

namespace Scanner

variable {γ : Type} [Grammar γ]

-- ── the end is reached ───────────────────────────────────────────────────────────

/-- Every scan before the end lowers the potential. -/
theorem potential_scanHere_lt {s : Scanner γ} (h : s.scanHere.1 ≠ .finished) :
    s.scanHere.2.potential < s.potential := by
  have hlow := Machine.step_lowers h
  rw [potential, potential, reader_scanHere, rest_apply, List.length_drop, machine_scanHere]
  exact hlow

/-- The potential never grows before the end. -/
theorem potential_after_le {s : Scanner γ} {n : Nat} (h : ∀ i < n, s.eventAt i ≠ .finished) :
    (s.after n).potential ≤ s.potential := by
  induction n with
  | zero => exact Nat.le_refl _
  | succ n ih =>
      have hlt := potential_scanHere_lt (h n (Nat.lt_succ_self n))
      exact Nat.le_trans (Nat.le_of_lt hlt) (ih fun i hi => h i (Nat.lt_succ_of_lt hi))

/-- The end is found after at most as many scans as the potential says. -/
theorem exists_finished_le (s : Scanner γ) : ∃ n ≤ s.potential, s.eventAt n = .finished := by
  generalize hp : s.potential = p
  induction p using Nat.strongRecOn generalizing s with
  | ind p ih =>
      by_cases h : s.scanHere.1 = .finished
      · exact ⟨0, Nat.zero_le _, h⟩
      · have hlt := potential_scanHere_lt h
        obtain ⟨n, hn, hf⟩ := ih s.scanHere.2.potential (by omega) s.scanHere.2 rfl
        refine ⟨1 + n, by omega, ?_⟩
        rw [eventAt_add]
        exact hf

/-- A scanner that finds the end and stays as it is does so ever after. -/
theorem after_of_scanHere {t : Scanner γ} (h : t.scanHere = (.finished, t)) (k : Nat) :
    t.eventAt k = .finished ∧ t.after k = t := by
  have hafter : t.after k = t := by
    induction k with
    | zero => rfl
    | succ k ih => rw [after_succ, ih, h]
  exact ⟨by rw [eventAt, hafter, h], hafter⟩

-- ── bounded readings ─────────────────────────────────────────────────────────────

omit [Grammar γ] in
/-- The work allowed is more than the potential. -/
theorem potential_lt_work (s : Scanner γ) : s.potential < s.work := by
  have hrank := Phase.rank_le s.machine.phase
  have hbody := bodyCharge_le s.machine.body
  rw [potential, work, Machine.charge]
  omega

/-- The first scans, up to the one that finds the end. -/
theorem scans_eq {s : Scanner γ} {n k : Nat} (hk : n < k) (hend : s.eventAt n = .finished)
    (hbefore : ∀ i < n, s.eventAt i ≠ .finished) :
    s.scans k = (List.range (n + 1)).map fun i => (s.after i).scanHere := by
  induction n generalizing s k with
  | zero =>
      cases k with
      | zero => exact absurd hk (Nat.not_lt_zero 0)
      | succ k =>
          have h : s.scanHere.1 = .finished := hend
          rw [scans, h]
          rfl
  | succ n ih =>
      cases k with
      | zero => exact absurd hk (Nat.not_lt_zero _)
      | succ k =>
          have hfirst : s.scanHere.1 ≠ .finished := hbefore 0 (Nat.succ_pos n)
          have htail := ih (s := s.scanHere.2) (k := k) (Nat.lt_of_succ_lt_succ hk)
            (by rw [← hend, Nat.add_comm n 1, eventAt_add]; rfl)
            (fun i hi => by
              have hne := hbefore (1 + i) (by omega)
              rwa [eventAt_add] at hne)
          have hmap : (fun i => (s.scanHere.2.after i).scanHere) =
              (fun i => (s.after i).scanHere) ∘ Nat.succ := by
            funext i
            show _ = (s.after (i + 1)).scanHere
            rw [Nat.add_comm i 1, after_add]
            rfl
          rw [List.range_succ_eq_map, List.map_cons, List.map_map, ← hmap, ← htail, scans]
          cases he : s.scanHere.1 with
          | finished => exact absurd he hfirst
          | text => rfl
          | token kind => rfl

/-- **All scans.**  The bound by which `trace` is cut off is never reached: it lists the scans up to
    the one that finds the end. -/
theorem trace_ends (s : Scanner γ) :
    ∃ n, s.eventAt n = .finished ∧ (∀ i < n, s.eventAt i ≠ .finished) ∧
      s.trace = (List.range (n + 1)).map fun i => (s.after i).scanHere := by
  obtain ⟨n, hn, hend⟩ := exists_finished_le s
  have hsome : ∃ i, s.eventAt i = .finished := ⟨n, hend⟩
  have hfirst := Nat.find_min' hsome hend
  have hmin : ∀ i < Nat.find hsome, s.eventAt i ≠ .finished := fun _ => Nat.find_min hsome
  have hwork := potential_lt_work s
  exact ⟨Nat.find hsome, Nat.find_spec hsome, hmin,
    scans_eq (by omega) (Nat.find_spec hsome) hmin⟩

-- ── sessions ─────────────────────────────────────────────────────────────────────

/-- **Termination.**  After any session, in any grammar, scanning on reaches the end; a scan that
    has found it, at whatever offset, leaves a scanner that finds it ever after and never changes.
    From the start of a text the end is reached after at most six scans for each byte. -/
theorem session_reaches_end (source : String) (grammar : γ) (moves : List Move) :
    let s := (ofString source grammar).session moves
    (∃ n, s.eventAt n = .finished) ∧
      (∀ offset, (s.scan offset).1 = .finished →
        ∀ k, (s.scan offset).2.eventAt k = .finished ∧
          (s.scan offset).2.after k = (s.scan offset).2) ∧
      ∃ n ≤ 6 * (source.utf8ByteSize + 1), (ofString source grammar).eventAt n = .finished := by
  intro s
  refine ⟨?_, ?_, ?_⟩
  · obtain ⟨n, -, hn⟩ := exists_finished_le s
    exact ⟨n, hn⟩
  · intro offset h
    have hstay : ∀ t : Scanner γ, t.scanHere.1 = .finished →
        t.scanHere.2.scanHere = (.finished, t.scanHere.2) := by
      intro t ht
      exact (scanHere_of_finished (s := t) (Prod.ext ht rfl)).1
    refine after_of_scanHere ?_
    rw [scan] at h ⊢
    split at h
    · next h0 =>
        rw [if_pos h0]
        exact hstay s h
    · next h0 =>
        rw [if_neg h0]
        exact hstay { s with reader := s.reader.jump offset } h
  · obtain ⟨n, hn, hend⟩ := exists_finished_le (ofString source grammar)
    refine ⟨n, Nat.le_trans hn ?_, hend⟩
    have hlen := length_le_byteSize source.toList
    rw [byteSize_toList] at hlen
    show 6 * source.toList.length + 0 ≤ 6 * (source.utf8ByteSize + 1)
    omega

end Scanner

end TemplateScan
