import TemplateScan.Proofs.Scan.Incremental
import TemplateScan.Proofs.Scan.Reset
import TemplateScan.Proofs.Text.Order

/-! # Locations — every span names the position of its start

    A span is written down when a token is found, or when a block is opened, and is handed on from
    there: a block keeps its span until it is closed, and a report takes it over when the document
    ends.  So whatever a session does, no span is ever found with a line or column that is not that
    of its own start.

    * **`BlockStep.forall_blocks`** — a step opens blocks at the cursor, or where its tag starts.
    * **`notices_step`** — nothing is reported but at the end of the document.
    * **`Located.scanHere`**, **`Located.replies`** — what a scan keeps, and a session.
    * **`positions_exact`** — the positions of a document, of its tokens and of its reports. -/

namespace TemplateScan

open Text

-- ── spans ────────────────────────────────────────────────────────────────────────

/-- The span starts at a boundary of the document, and carries the position of its start. -/
structure Text.Span.Located (d : Document) (s : Span) : Prop where
  boundary : IsBoundary s.start d.chars
  position : d.position? s.start = some s.position

/-- A span that starts at a boundary is located in the document. -/
theorem Text.Document.located_spanOf {d : Document} {start : Nat} (h : IsBoundary start d.chars)
    (stop : Nat) : (d.spanOf start stop).Located d :=
  ⟨h, (position?_of_isBoundary h).1⟩

/-- The span of a token is located in its document. -/
theorem Text.Reader.located_span (r : Reader) : r.span.Located r.document :=
  Document.located_spanOf r.isBoundary_start r.offset

/-- The spans of reports are those of blocks, with another end. -/
theorem Blocks.located_notices {d : Document} {b : Blocks}
    (h : ∀ block ∈ b.entries, block.span.Located d) (size : Nat) :
    ∀ notice ∈ b.notices size, notice.span.Located d := by
  intro notice hnotice
  obtain ⟨block, hblock, rfl⟩ := List.mem_map.mp hnotice
  exact ⟨(h block hblock).boundary, (h block hblock).position⟩

-- ── one step ─────────────────────────────────────────────────────────────────────

namespace Machine

variable {γ : Type} [Grammar γ] {m : Machine γ} {r : Reader} {reply : Reply γ}

/-- What holds of the open blocks, and of spans that start at the cursor or behind the open
    delimiter of the tag, holds of the open blocks after a step. -/
theorem BlockStep.forall_blocks {P : Span → Prop} (h : BlockStep m r reply)
    (hm : ∀ b ∈ m.blocks.entries, P b.span) (here : ∀ stop, P (r.document.spanOf r.offset stop))
    (htag : m.phase = .opened → ∀ stop, P (r.document.spanOf m.tag.start stop)) :
    ∀ b ∈ reply.machine.blocks.entries, P b.span := by
  have hsub : ∀ {b : Blocks}, b.entries.Sublist m.blocks.entries → ∀ a ∈ b.entries, P a.span :=
    fun hb a ha => hm a (hb.subset ha)
  cases h with
  | opens _ => exact hm
  | @starts name hp _ =>
      generalize Grammar.resolve (Grammar.setExpect m.grammar .tag) (String.ofList name) = g
      rcases blocks_takeStartTag { m with grammar := g } name r.document with hpush | hkeep
      · rw [hpush]
        exact forall_mem_push hm (htag hp _)
      · rw [hkeep]
        exact hm
  | ends _ _ _ | endElement _ _ _ => exact hsub (Blocks.close_sublist _ _)
  | element _ _ _ => exact forall_mem_push hm (here _)
  | selfClose _ _ => exact hsub (sublist_closeInnermost _)
  | waits _ _ _ hkeeps _ _ _ | plain _ hkeeps _ _ _ _ =>
      rw [hkeeps.blocks]
      exact hm

/-- Inside a tag no reports are made. -/
theorem TagStep.notices_eq {ending : Bool} {bound : Nat} (h : TagStep ending bound m r reply) :
    reply.machine.notices = m.notices := by
  cases h <;> rfl

/-- Before the end of the document a step leaves the reports as they are. -/
theorem notices_step (h : (m.step r).event ≠ .finished) :
    (m.step r).machine.notices = m.notices := by
  cases hp : m.phase.inTag with
  | true => exact (step_inTag m r hp).notices_eq
  | false =>
      obtain ⟨hr, hne⟩ := rest_ne_nil_of_outside hp h
      rcases (step_outside m r hp hr).opens_or_keeps hne with ⟨form, heq⟩ | hkeeps
      · rw [heq]
        rfl
      · exact hkeeps.notices

omit [Grammar γ] in
/-- What the end of the document reports has been reported before, or is a block that is open. -/
theorem mem_notices_flush {size : Nat} {notice : Notice} (h : notice ∈ (m.flush size).notices) :
    notice ∈ m.notices ∨ notice ∈ m.blocks.notices size := by
  rw [flush] at h
  split at h
  · exact Or.inl h
  · exact List.mem_append.mp h

end Machine

-- ── sessions ─────────────────────────────────────────────────────────────────────

namespace Scanner

variable {γ : Type} [Grammar γ] {s : Scanner γ} {d : Document}

/-- The scanner is at work in the document, and the spans that it keeps are located there. -/
structure Located (d : Document) (s : Scanner γ) : Prop where
  sound : s.Sound d
  brackets : s.machine.BracketSound
  blocks : ∀ b ∈ s.machine.blocks.entries, b.span.Located d
  notices : ∀ n ∈ s.machine.notices, n.span.Located d

/-- A scan keeps all that the scanner shows located. -/
theorem Located.scanHere (h : s.Located d) : s.scanHere.2.Located d := by
  refine ⟨h.sound.scanHere, Machine.bracketSound_step h.brackets s.reader, ?_, ?_⟩ <;>
    rw [machine_scanHere] <;> by_cases he : (s.machine.step s.reader).event = .finished
  · obtain ⟨hr, hp⟩ := Machine.step_finished_iff.mp he
    rw [Machine.step_atEnd hp hr]
    rcases Machine.blocks_flush { s.machine with phase := .literal } s.reader.document.size
      with hb | hb <;> rw [hb]
    · exact h.blocks
    · exact fun b hb => absurd hb List.not_mem_nil
  · refine (Machine.step_blockStep h.brackets h.sound.body he).forall_blocks h.blocks
      (fun stop => ?_) (fun hp stop => ?_) <;> rw [h.sound.document]
    · exact Document.located_spanOf (h.sound.document ▸ s.reader.isBoundary_offset) stop
    · exact Document.located_spanOf (h.sound.tag (by rw [hp]; rfl)) stop
  · obtain ⟨hr, hp⟩ := Machine.step_finished_iff.mp he
    rw [Machine.step_atEnd hp hr]
    intro notice hnotice
    rcases Machine.mem_notices_flush hnotice with hold | hnew
    · exact h.notices notice hold
    · exact Blocks.located_notices h.blocks _ notice hnew
  · rw [Machine.notices_step he]
    exact h.notices

theorem Located.scan (h : s.Located d) (offset : Nat) : (s.scan offset).2.Located d := by
  rw [Scanner.scan]
  split
  · exact h.scanHere
  · have hjump : Located d { s with reader := s.reader.jump offset } :=
      ⟨h.sound.jump offset, h.brackets, h.blocks, h.notices⟩
    exact hjump.scanHere

/-- Going back forgets blocks, and adds none. -/
theorem Located.rewind (h : s.Located d) (offset : Nat) : (s.rewind offset).Located d where
  sound := h.sound.rewind offset
  brackets _ := rfl
  blocks b hb := h.blocks b (List.mem_filter.mp hb).1
  notices := nofun

theorem Located.reset (h : s.Located d) : s.reset.Located d where
  sound := h.sound.reset
  brackets _ := rfl
  blocks := nofun
  notices := nofun

omit [Grammar γ] in
/-- A new scanner shows nothing yet. -/
theorem located_ofString (source : String) (grammar : γ) :
    (ofString source grammar).Located (.ofString source) where
  sound := ⟨rfl, nofun, nofun⟩
  brackets _ := rfl
  blocks := nofun
  notices := nofun

/-- A move keeps the spans located. -/
theorem Located.perform (h : s.Located d) (move : Move) : (s.perform move).Located d := by
  have hmoves : ∀ m ∈ [move], True := fun _ _ => trivial
  exact session_induction (P := Located d) (Q := fun _ => True) (fun _ h => h.scanHere)
    (fun _ offset _ h => h.scan offset) (fun _ offset _ h => h.rewind offset)
    (fun _ h => h.reset) h hmoves

-- ── what a session shows ─────────────────────────────────────────────────────────

/-- The tokens that an answer hands out. -/
def Answer.tokens : Answer → List Token
  | .read tokens => tokens
  | .done | .found _ => []

/-- The tokens read, the current token and the reports have the positions of their starts. -/
structure ShowsLocated (d : Document) (reply : Answer × View) : Prop where
  read : ∀ token ∈ reply.1.tokens, token.span.Located d
  token : reply.2.reader.span.Located d
  notices : ∀ notice ∈ reply.2.notices, notice.span.Located d

/-- The token that is found is located in the document. -/
theorem located_nextWithin (n : Nat) (s : Scanner γ) {token : Token}
    (h : (s.nextWithin n).1 = some token) : token.span.Located s.reader.document := by
  induction n generalizing s with
  | zero => cases h
  | succ n ih =>
      have hdocument : s.scanHere.2.reader.document = s.reader.document := document_after s 1
      rw [nextWithin] at h
      generalize s.scanHere = found at h hdocument
      obtain ⟨event, next⟩ := found
      rw [← hdocument]
      cases event with
      | text => exact ih next h
      | finished => cases h
      | token kind =>
          obtain rfl := Option.some.inj h
          exact next.reader.located_span

/-- The tokens that are read are located in the document. -/
theorem located_take (n : Nat) (s : Scanner γ) :
    ∀ token ∈ (s.take n).1, token.span.Located s.reader.document := by
  induction n generalizing s with
  | zero => exact fun _ h => absurd h List.not_mem_nil
  | succ n ih =>
      have hdocument : s.next.2.reader.document = s.reader.document := by
        obtain ⟨k, hk⟩ := nextWithin_eq_after s.work s
        rw [next, hk, document_after]
      have hfirst : ∀ {token}, s.next.1 = some token → token.span.Located s.reader.document :=
        located_nextWithin s.work s
      intro token htoken
      rw [take] at htoken
      generalize s.next = found at htoken hdocument hfirst
      obtain ⟨first, next⟩ := found
      cases first with
      | none => exact absurd htoken List.not_mem_nil
      | some first =>
          rcases List.mem_cons.mp htoken with rfl | hlater
          · exact hfirst rfl
          · rw [← hdocument]
            exact ih next token hlater

/-- Whatever a move answers or shows is located. -/
theorem Located.showsLocated (h : s.Located d) (move : Move) :
    ShowsLocated d (s.answer move, (s.perform move).view) where
  read := by
    cases move with
    | tokens count =>
        have hread := located_take count s
        rwa [h.sound.document] at hread
    | scan _ | rewind _ | reset => exact fun _ hmem => absurd hmem List.not_mem_nil
  token := by
    have hspan := (s.perform move).reader.located_span
    rwa [(h.perform move).sound.document] at hspan
  notices := (h.perform move).notices

/-- Every move of a session shows spans that are located. -/
theorem Located.replies (h : s.Located d) (moves : List Move) :
    ∀ reply ∈ s.replies moves, ShowsLocated d reply := by
  induction moves generalizing s with
  | nil => exact fun _ hmem => absurd hmem List.not_mem_nil
  | cons move moves ih =>
      intro reply hmem
      rcases List.mem_cons.mp hmem with rfl | hlater
      · exact h.showsLocated move
      · exact ih (h.perform move) reply hlater

/-- After any number of scans the scanner is located. -/
theorem Located.after (h : s.Located d) (n : Nat) : (s.after n).Located d := by
  induction n with
  | zero => exact h
  | succ n ih => exact ih.scanHere

end Scanner

-- ── whole documents ──────────────────────────────────────────────────────────────

/-- The tokens and the reports of a document have the positions of their starts. -/
structure Lexed.Located (d : Document) (lexed : Lexed) : Prop where
  tokens : ∀ token ∈ lexed.tokens, token.span.Located d
  notices : ∀ notice ∈ lexed.notices, notice.span.Located d

/-- All tokens and notices of a text are located in it. -/
theorem located_tokenize {γ : Type} [Grammar γ] (source : String) (grammar : γ) :
    (tokenize source grammar).Located (.ofString source) := by
  obtain ⟨n, -, -, heq⟩ := Scanner.tokenize_eq source grammar
  have hstart := Scanner.located_ofString source grammar
  rw [heq]
  refine ⟨fun token htoken => ?_, (hstart.after (n + 1)).notices⟩
  obtain ⟨i, -, hi⟩ := List.mem_filterMap.mp htoken
  have hspan := ((Scanner.ofString source grammar).after (i + 1)).reader.located_span
  rw [(hstart.after (i + 1)).sound.document] at hspan
  rw [Scanner.tokenAt] at hi
  cases he : (Scanner.ofString source grammar).eventAt i with
  | token kind =>
      rw [he] at hi
      obtain rfl := Option.some.inj hi
      exact hspan
  | text | finished =>
      rw [he] at hi
      cases hi

/-- **Positions.**  The positions of a text are the ones that are counted in it, and they tell its
    places apart, in their order.  The tokens and reports of the whole text carry them, and so does
    everything that any session on it shows, in any grammar. -/
theorem positions_exact {γ : Type} [Grammar γ] (source : String) (grammar : γ)
    (moves : List Scanner.Move) :
    (Document.ofString source).PositionsCount ∧
      (tokenize source grammar).Located (.ofString source) ∧
      ∀ reply ∈ (Scanner.ofString source grammar).replies moves,
        Scanner.ShowsLocated (.ofString source) reply :=
  ⟨Document.positionsCount _, located_tokenize source grammar,
    (Scanner.located_ofString source grammar).replies moves⟩

end TemplateScan
