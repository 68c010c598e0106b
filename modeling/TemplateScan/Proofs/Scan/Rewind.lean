import TemplateScan.Dialect.Standard
import TemplateScan.Proofs.Scan.BlockPlaces
import TemplateScan.Proofs.Scan.Pairing
import TemplateScan.Proofs.Scan.Twins

/-! # Rewinds — a scan that goes back resumes where it has been

    A rewind goes back to a place in literal text, and forgets the blocks that were opened from
    there on.  It does not bring back the blocks that have been closed since.  So the scan from
    there on is that of the run that came by, as long as the blocks open at that place are still
    open where the rewind is made; the tags only get other numbers.

    * **`RestsAt`** — a place to which a rewind may go back.
    * **`Resumes`** — a scan finds what another one finds from some scan on.
    * **`rewind_resumes`** — a rewind resumes the run, as long as no open block has been closed.
    * **`rewind_past_end_tag`** — otherwise an end tag may be left without its pair. -/

namespace TemplateScan

open Text

-- ── numbers ──────────────────────────────────────────────────────────────────────

/-- The change of numbers made by a rewind: those below `a` are kept, and those from `a` on are
    given again from `b` on. -/
def renumbering (a b n : Nat) : Nat :=
  if n < a then n else n - a + b

/-- What is found under a number in a list is found under the new number once something has been
    put in between. -/
theorem getElem?_renumbering {α : Type} (before between after : List α) (n : Nat) :
    (before ++ between ++ after)[renumbering before.length (before ++ between).length n]? =
      (before ++ after)[n]? := by
  rw [renumbering]
  split
  · next hn =>
      rw [List.append_assoc, List.getElem?_append_left hn, List.getElem?_append_left hn]
  · next hn =>
      have hle : before.length ≤ n := Nat.le_of_not_lt hn
      rw [List.getElem?_append_right (Nat.le_add_left _ _), Nat.add_sub_cancel,
        List.getElem?_append_right hle]

-- ── the lookup outside tags ──────────────────────────────────────────────────────

namespace Machine

variable {m : Machine Lookup} {r : Reader} {ending : Bool} {bound : Nat} {reply : Reply Lookup}

/-- Outside tags no filter and no object is held. -/
def BareOutside (m : Machine Lookup) : Prop :=
  m.phase.inTag = false → m.grammar.bare = m.grammar.dialect.lookup

theorem TagStep.bareOutside (hp : m.phase.inTag = true) (h : TagStep ending bound m r reply) :
    reply.machine.BareOutside := by
  have hin : ∀ {m' : Machine Lookup}, m'.phase.inTag = true → m'.BareOutside := by
    intro m' hin hout
    rw [hin] at hout
    cases hout
  cases h with
  | closed _ _ _ | abandoned _ _ _ => exact fun _ => rfl
  | @startTag g name _ _ _ _ =>
      obtain ⟨kind, blocks, -, heq⟩ := takeStartTag_eq { m with grammar := g } name r.document
      rw [heq]
      exact hin (Phase.inTag_of_isNamed (isNamed_identity _))
  | part _ _ _ hn _ _ _ | keyPath _ _ _ hn _ _ _ => exact hin (Phase.inTag_of_isNamed hn)
  | mark _ hn _ _ _ | openBracket _ hn _ _ _ | closeBracket _ _ hn _ _ _ =>
      exact hin (Phase.inTag_of_isNamed hn)
  | dropBracket _ hn _ _ _ =>
      rcases hn with rfl | rfl
      · exact hin hp
      · exact hin rfl
  | space _ _ _ _ _ => exact hin hp
  | _ => exact hin rfl

theorem bareOutside_step (h : m.BareOutside) (r : Reader) : (m.step r).machine.BareOutside := by
  cases hp : m.phase.inTag with
  | true => exact (step_inTag m r hp).bareOutside hp
  | false =>
      have hsame : ∀ {m' : Machine Lookup}, m'.grammar = m.grammar → m'.BareOutside := by
        intro m' hg _
        rw [hg]
        exact h hp
      cases hr : r.atEnd with
      | true =>
          rw [step_atEnd hp hr]
          exact hsame (grammar_flush _ _)
      | false =>
          rcases (step_outside m r hp hr).opens_or_keeps (List.isEmpty_eq_false_iff.mp hr) with
            ⟨form, heq⟩ | hkeeps
          · rw [heq]
            nofun
          · exact hsame hkeeps.grammar

end Machine

-- ── along a run ──────────────────────────────────────────────────────────────────

namespace Scanner

variable {source : String} {dialect : Dialect} {i j n : Nat}

theorem bareOutside_after (source : String) (dialect : Dialect) (n : Nat) :
    ((ofString source dialect.lookup).after n).machine.BareOutside := by
  induction n with
  | zero => exact fun _ => rfl
  | succ n ih => exact Machine.bareOutside_step ih _

theorem blockStep_after (h : (ofString source dialect.lookup).eventAt n ≠ .finished) :
    Machine.BlockStep ((ofString source dialect.lookup).after n).machine
      ((ofString source dialect.lookup).after n).reader
      (((ofString source dialect.lookup).after n).machine.step
        ((ofString source dialect.lookup).after n).reader) :=
  Machine.step_blockStep (bracketSound_after source dialect.lookup n)
    (bodySound_after source dialect.lookup n) h

/-- As many numbers have been given as tags and elements have been found. -/
theorem nodes_after (source : String) (dialect : Dialect) (n : Nat) :
    ((ofString source dialect.lookup).after n).machine.nodes =
      (heads ((ofString source dialect.lookup).tokensUpTo n)).length := by
  induction n with
  | zero => rfl
  | succ n ih =>
      by_cases he : (ofString source dialect.lookup).eventAt n = .finished
      · obtain ⟨hr, hp⟩ := Machine.step_finished_iff.mp he
        rw [tokensUpTo_succ_of_ne (by rw [he]; nofun), ← ih, after_succ, machine_scanHere,
          Machine.step_atEnd hp hr, Machine.flush]
        split <;> rfl
      · have hbefore : ∀ i < n + 1, (ofString source dialect.lookup).eventAt i ≠ .finished := by
          intro i hi
          rcases Nat.lt_succ_iff_lt_or_eq.mp hi with hi | rfl
          · exact not_finished_of_not_finished he i hi
          · exact he
        obtain ⟨hfollows, -⟩ := follows_after source dialect hbefore
        rw [hfollows.nodes]
        exact (Replay.traces_replay dialect _ _).nodes

/-- After `i` scans the cursor is at a place to which a rewind may go back: it is in literal text,
    no body is to be passed over, and the end has not been found. -/
structure RestsAt (s : Scanner Lookup) (i : Nat) : Prop where
  literal : (s.after i).machine.phase = .literal
  no_body : (s.after i).machine.body = none
  not_finished : ∀ k < i, s.eventAt k ≠ .finished

/-- Every block that is open after `i` scans is still open after `j` scans. -/
def StillOpen (s : Scanner Lookup) (i j : Nat) : Prop :=
  ∀ block ∈ (s.after i).machine.blocks.entries, block ∈ (s.after j).machine.blocks.entries

/-- An open block has a number that has been given before. -/
theorem node_lt_of_follows {m : Machine Lookup} {r : Reader} {p : Replay} {block : Block}
    (h : Follows dialect m r p) (hp : p.Sound) (hb : block ∈ m.blocks.entries) :
    block.node < m.nodes := by
  have hwaits : block ∈ p.waiting.map Opening.block := by
    rw [← h.blocks]
    exact List.mem_reverse.mpr hb
  obtain ⟨o, ho, rfl⟩ := List.mem_map.mp hwaits
  rw [h.nodes]
  exact hp.used _ (List.mem_append_right _ (List.mem_map_of_mem ho))

/-- Going back makes a twin of the scanner that has come by, as long as its blocks are open. -/
theorem twins_rewind (h : (ofString source dialect.lookup).RestsAt i) (hij : i ≤ j)
    (hopen : (ofString source dialect.lookup).StillOpen i j) :
    Twins (renumbering ((ofString source dialect.lookup).after i).machine.nodes
        ((ofString source dialect.lookup).after j).machine.nodes) False
      ((ofString source dialect.lookup).after i)
      (((ofString source dialect.lookup).after j).rewind
        ((ofString source dialect.lookup).after i).reader.offset) := by
  obtain ⟨hliteral, hbody, hbefore⟩ := h
  have hopened : ((ofString source dialect.lookup).after i).machine.phase ≠ .opened := by
    rw [hliteral]
    nofun
  have hout : ((ofString source dialect.lookup).after i).machine.phase.inTag = false := by
    rw [hliteral]
    rfl
  have hblocks := forgetFrom_after (n := j - i) hopened (by rwa [Nat.add_sub_cancel' hij])
  rw [Nat.add_sub_cancel' hij] at hblocks
  obtain ⟨hfollows, hunflushed⟩ := follows_after source dialect hbefore
  have hsound : ((ofString source dialect.lookup).replayUpTo dialect i).Sound :=
    Replay.sound_replay _ _ _
  have hbrackets := bracketSound_after source dialect.lookup i (Or.inl hout)
  have hbare := bareOutside_after source dialect i hout
  have hdocument : ((ofString source dialect.lookup).after j).reader.document =
      ((ofString source dialect.lookup).after i).reader.document := by
    rw [document_after, document_after]
  have hdialect : ((ofString source dialect.lookup).after j).machine.grammar.dialect =
      ((ofString source dialect.lookup).after i).machine.grammar.dialect := by
    rw [dialect_after, dialect_after]
  generalize (ofString source dialect.lookup).after i = s at *
  generalize (ofString source dialect.lookup).after j = t at *
  generalize (ofString source dialect.lookup).replayUpTo dialect i = p at *
  refine ⟨?_, ?_, nofun, nofun⟩
  · show (t.reader.jump s.reader.offset).mark = _
    rw [Reader.jump_offset hdocument]
    rfl
  -- the blocks open at the place keep their numbers
  have hkept : ∀ block ∈ s.machine.blocks.entries,
      renumbering s.machine.nodes t.machine.nodes block.node = block.node :=
    fun _ hb => if_pos (node_lt_of_follows hfollows hsound hb)
  have hnext : ∀ n, s.machine.nodes ≤ n →
      renumbering s.machine.nodes t.machine.nodes n = n - s.machine.nodes + t.machine.nodes :=
    fun n hn => if_neg (Nat.not_lt.mpr hn)
  refine ⟨hliteral.symm, hbody.symm, hbrackets.symm, hunflushed.notices.symm,
    hunflushed.flushed.symm, ?_, ?_, fun n hn => ?_, ?_, ?_, ?_, ?_, ?_, nofun⟩
  · show t.machine.blocks.forgetFrom s.reader.offset = _
    rw [hblocks, Blocks.renumber_eq_self hkept]
  · show t.machine.nodes = _
    rw [hnext _ (Nat.le_refl _), Nat.sub_self, Nat.zero_add]
  · rw [hnext n hn, hnext (n + 1) (Nat.le_succ_of_le hn)]
    omega
  · show ({ dialect := t.machine.grammar.dialect } : Lookup) = _
    rw [hbare, hdialect]
    rfl
  · rw [hliteral]
    nofun
  · rw [hliteral]
    nofun
  · rw [hliteral]
    nofun
  · rw [hliteral]
    rintro (⟨⟨⟩⟩ | ⟨⟨⟩⟩)

-- ── the scan that goes back ──────────────────────────────────────────────────────

/-- The token with which the tag or element begins whose number is given. -/
def headOf (tokens : List Token) (node : Option Nat) : Option Token :=
  node.bind fun n => (heads tokens)[n]?

/-- The scans of `t` find what those of `s` find from its scan `i` on, where `t` has made the first
    `j` scans of `s` before. -/
structure Resumes (s : Scanner Lookup) (i j : Nat) (t : Scanner Lookup) : Prop where
  event : ∀ n, t.eventAt n = s.eventAt (i + n)
  token : ∀ n, t.tokenAt n = s.tokenAt (i + n)
  /-- At the end of the document the same blocks are reported. -/
  notices : ∀ n, (t.after n).machine.notices = (s.after (i + n)).machine.notices
  /-- Every end is paired with the same tag or element, under the number that it has been given
      last. -/
  pair : ∀ n, s.EndsAt (i + n) →
    headOf (s.tokensUpTo j ++ t.tokensUpTo n) (t.pairAfter (n + 1)) =
      headOf (s.tokensUpTo (i + n)) (s.pairAfter (i + n + 1))
  finishes : ∃ n, t.eventAt n = .finished

/-- Twins find the same tokens. -/
theorem Twins.tokenAt {ρ : Nat → Nat} {strict : Prop} {s t : Scanner Lookup}
    (h : s.Twins ρ strict t) (n : Nat)
    (hx : s.eventAt n ≠ .finished →
      ((s.after n).machine.step (s.after n).reader).extent ≠ .hold) :
    t.tokenAt n = s.tokenAt n := by
  have hn := h.after n
  have hevent : t.eventAt n = s.eventAt n := hn.event
  rw [Scanner.tokenAt, Scanner.tokenAt, hevent]
  by_cases he : s.eventAt n = .finished
  · rw [he]
    rfl
  · have hreader : (t.after (n + 1)).reader = (s.after (n + 1)).reader := by
      rw [after_succ, after_succ, reader_scanHere, reader_scanHere, hn.matched.extent]
      exact Extent.apply_of_mark hn.place (hx he)
    simp only [tokenOf, hreader]

/-- Twins pair an end with the same tag, under its other number. -/
theorem Twins.pairAfter {ρ : Nat → Nat} {strict : Prop} {s t : Scanner Lookup}
    (h : s.Twins ρ strict t) (n : Nat)
    (hp : (s.after (n + 1)).machine.phase.holdsPair = true) :
    t.pairAfter (n + 1) = (s.pairAfter (n + 1)).map ρ :=
  (h.after (n + 1)).machine.pair (Or.inr hp)

/-- Right after an end the pair is held. -/
theorem holdsPair_after (h : (ofString source dialect.lookup).EndsAt n) :
    ((ofString source dialect.lookup).after (n + 1)).machine.phase.holdsPair = true := by
  rw [after_succ, machine_scanHere]
  rcases (blockStep_after h.not_finished).of_end h with ⟨_, _, -, -, -, heq⟩ | ⟨_, _, -, -, -, heq⟩
  · rw [heq]
    rfl
  · rw [heq]
    rfl

/-- **A rewind resumes the run.**  Let the scanner go back to a place in literal text where it has
    been before, while every block that was open there is still open.  Then it finds the tokens that
    the run finds from there on, reports the same blocks at the end, and pairs every end with the
    same tag. -/
theorem rewind_resumes (source : String) (dialect : Dialect) {i j : Nat}
    (h : (ofString source dialect.lookup).RestsAt i) (hij : i ≤ j)
    (hopen : (ofString source dialect.lookup).StillOpen i j) :
    (ofString source dialect.lookup).Resumes i j
      (((ofString source dialect.lookup).after j).rewind
        ((ofString source dialect.lookup).after i).reader.offset) := by
  have htwins := twins_rewind h hij hopen
  have hfirst := nodes_after source dialect i
  have hlast := nodes_after source dialect j
  have hextent : ∀ n, (ofString source dialect.lookup).eventAt n ≠ .finished →
      (((ofString source dialect.lookup).after n).machine.step
        ((ofString source dialect.lookup).after n).reader).extent ≠ .hold :=
    fun _ he => (blockStep_after he).extent_ne_hold
  have hholds : ∀ n, (ofString source dialect.lookup).EndsAt n →
      ((ofString source dialect.lookup).after (n + 1)).machine.phase.holdsPair = true :=
    fun _ => holdsPair_after
  generalize ofString source dialect.lookup = s at *
  generalize (s.after j).rewind (s.after i).reader.offset = t at *
  have hevent : ∀ n, t.eventAt n = s.eventAt (i + n) := fun n => by
    rw [eventAt_add]
    exact (htwins.after n).event
  have htoken : ∀ n, t.tokenAt n = (s.after i).tokenAt n := fun n => by
    refine htwins.tokenAt n ?_
    rw [← eventAt_add, ← after_add]
    exact hextent (i + n)
  obtain ⟨n, -, hend⟩ := t.exists_finished_le
  refine ⟨hevent, fun n => ?_, fun n => ?_, fun n hn => ?_, n, hend⟩
  · rw [tokenAt_add, htoken]
  · rw [after_add]
    exact (htwins.after n).machine.notices
  · have hpair : t.pairAfter (n + 1) = (s.pairAfter (i + n + 1)).map
        (renumbering (s.after i).machine.nodes (s.after j).machine.nodes) := by
      have hlater := hholds (i + n) hn
      rw [Nat.add_assoc, after_add] at hlater
      rw [htwins.pairAfter n hlater, pairAfter, pairAfter, ← after_add, Nat.add_assoc]
    have hrun : s.tokensUpTo (i + n) = s.tokensUpTo i ++ t.tokensUpTo n := by
      rw [tokensUpTo_add, tokensUpTo, tokensUpTo, tokensUpTo, funext htoken]
    have hjump := tokensUpTo_add s i (j - i)
    rw [Nat.add_sub_cancel' hij] at hjump
    rw [hjump, heads_append] at hlast
    rw [hpair, hfirst, hlast, headOf, headOf, Option.bind_map, hjump, hrun, heads_append,
      heads_append, heads_append]
    exact congrArg _ (funext fun node => getElem?_renumbering _ _ _ node)

theorem rewind_resumes_in_block :
    let s := ofString "\x7b%if x%\x7da\x7b\x7by\x7d\x7d\x7b%endif%\x7d" Dialect.standard.lookup
    s.RestsAt 5 ∧ (s.after 5).machine.blocks.entries.map Block.name = ["if"] ∧ s.StillOpen 5 10 ∧
      s.Resumes 5 10 ((s.after 10).rewind (s.after 5).reader.offset) := by
  intro s
  obtain ⟨hliteral, hbody, hbefore⟩ : (s.after 5).machine.phase = .literal ∧
      (s.after 5).machine.body = none ∧ ∀ k < 5, s.eventAt k ≠ .finished := by
    decide +kernel
  obtain ⟨hnames, hblocks⟩ : (s.after 5).machine.blocks.entries.map Block.name = ["if"] ∧
      (s.after 10).machine.blocks = (s.after 5).machine.blocks := by
    decide +kernel
  have hrests : s.RestsAt 5 := ⟨hliteral, hbody, hbefore⟩
  have hopen : s.StillOpen 5 10 := by
    intro block hblock
    rw [hblocks]
    exact hblock
  have hresumes := rewind_resumes _ Dialect.standard hrests (by decide) hopen
  exact ⟨hrests, hnames, hopen, hresumes⟩

/-- Once the block has been closed, a rewind into it does not open it again: its end tag is found
    again, and is paired with no tag. -/
theorem rewind_past_end_tag :
    let s := ofString "\x7b%if x%\x7da\x7b%endif%\x7d" Dialect.standard.lookup
    0 < (s.after 5).reader.offset ∧ s.RestsAt 5 ∧ s.eventAt 9 = .finished ∧
      ¬ s.Resumes 5 10 ((s.after 10).rewind (s.after 5).reader.offset) := by
  intro s
  obtain ⟨hoffset, hliteral, hbody, hbefore⟩ : 0 < (s.after 5).reader.offset ∧
      (s.after 5).machine.phase = .literal ∧ (s.after 5).machine.body = none ∧
        ∀ k < 5, s.eventAt k ≠ .finished := by
    decide +kernel
  obtain ⟨hend, hfinished, hpair, hpair'⟩ : s.eventAt 7 = .token .endTag ∧
      s.eventAt 9 = .finished ∧
      (headOf (s.tokensUpTo 7) (s.pairAfter 8)).map Token.kind = some .openDelimiter ∧
      ((s.after 10).rewind (s.after 5).reader.offset).pairAfter 3 = none := by
    decide +kernel
  refine ⟨hoffset, ⟨hliteral, hbody, hbefore⟩, hfinished, fun h => ?_⟩
  have hsame := h.pair 2 (Or.inl hend)
  rw [hpair'] at hsame
  rw [← hsame] at hpair
  cases hpair

end Scanner

end TemplateScan
