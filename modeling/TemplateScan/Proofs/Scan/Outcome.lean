import TemplateScan.Proofs.Scan.TagPhases
import TemplateScan.Proofs.Scan.TextStep

/-! # Outcomes — what one step does to the tag, the body and the cursor

    The consequences of `TagStep` and `TextStep` that the theorems about runs rest on:

    * **`rest_apply`**, **`offset_apply`** — a step moves the cursor over `Extent.count`
      characters and nothing else.
    * **`TagStep.stays_or_leaves`** — a step inside a tag stays there and takes clear text, or takes
      the close delimiter, or finds that there is none.
    * **`TextStep.opens_or_stays`** — a step outside tags enters one exactly when it finds an open
      delimiter.
    * **`step_tag`** — the tag stays the same, or one opens at the cursor.
    * **`step_bodyMove`**, **`bodySound_step`** — the body to be passed over, which becomes a token of
      a kind for bodies.
    * **`step_moves`** — the grammar moves, and is never exchanged for another one.
    * **`unflushed_step`** — nothing is reported before the end of the document.
    * **`step_finished_iff`** — where the end of the document is found. -/

namespace TemplateScan

open Text

-- ── how far a scan goes ──────────────────────────────────────────────────────────

/-- The number of characters that the cursor passes over. -/
def Extent.count : Extent → Nat
  | .hold => 0
  | .take n | .takeFrom _ n => n

@[simp] theorem document_apply (e : Extent) (r : Reader) : (e.apply r).document = r.document := by
  cases e <;> rfl

@[simp] theorem rest_apply (e : Extent) (r : Reader) :
    (e.apply r).rest = r.rest.drop e.count := by
  cases e <;> rfl

@[simp] theorem offset_apply (e : Extent) (r : Reader) :
    (e.apply r).offset = r.offsetAt e.count := by
  cases e with
  | hold =>
      show r.offset = r.offset + byteSize (r.rest.take 0)
      rw [List.take_zero, byteSize_nil, Nat.add_zero]
  | take n => exact Reader.offset_capture n r
  | takeFrom start n =>
      show ((r.capture n).rewindStart start).offset = r.offsetAt n
      rw [Reader.offset_rewindStart, Reader.offset_capture]

/-- The cursor never moves back. -/
theorem offset_le_apply (e : Extent) (r : Reader) : r.offset ≤ (e.apply r).offset := by
  rw [offset_apply]
  exact Nat.le_add_right _ _

-- ── into a tag and out of it ─────────────────────────────────────────────────────

/-- The event ends the tag in which it is found. -/
def Event.endsTag : Event → Bool
  | .token .closeDelimiter | .token .endDelimiter => true
  | .token (.invalid .missingClose) => true
  | _ => false

/-- The token is a body that has been passed over. -/
def TokenKind.isBody : TokenKind → Bool
  | .comment | .rawBody | .embeddedBody _ => true
  | _ => false

/-- A named phase is inside a tag. -/
theorem Phase.inTag_of_isNamed {p : Phase} (h : p.isNamed = true) : p.inTag = true := by
  cases p with
  | literal => exact h
  | markup phase => exact h
  | _ => rfl

/-- The parts of a tag do not end it. -/
theorem TokenKind.endsTag_of_isPart {kind : TokenKind} (h : kind.isPart = true) :
    (Event.token kind).endsTag = false := by
  cases kind with
  | closeDelimiter => exact nomatch h
  | endDelimiter => exact nomatch h
  | invalid fault => cases fault <;> first | rfl | exact nomatch h
  | _ => rfl

namespace Machine

variable {γ : Type} [Grammar γ] {ending : Bool} {bound : Nat} {m : Machine γ} {r : Reader}
  {reply : Reply γ}

/-- The token of a tag is a part of it, whatever its category. -/
theorem isPart_identity (m : Machine γ) : m.identity.1.isPart = true := by
  rw [identity]
  split
  · rfl
  · split <;> rfl

/-- Behind its name a tag is in a phase that has the name. -/
theorem isNamed_identity (m : Machine γ) : m.identity.2.isNamed = true := by
  rw [identity]
  split
  · rfl
  · split
    all_goals first | rfl | (dsimp only; split <;> rfl)

/-- The name of a tag becomes a token of the kind that its category has, or a fault. -/
theorem takeStartTag_eq (m : Machine γ) (name : List Char) (d : Document) :
    ∃ kind blocks, kind.isPart = true ∧ m.takeStartTag name d =
      ⟨.token kind, .take name.length, { m with
        blocks, phase := m.identity.2, body := (m.bodyKind?.map (Body.mk name)).or m.body }⟩ := by
  refine ⟨_, _, ?_, rfl⟩
  split
  · rfl
  · exact isPart_identity m

/-- The answer stays inside the tag, and the text taken holds no delimiter. -/
structure Stays (m : Machine γ) (r : Reader) (reply : Reply γ) : Prop where
  inTag : reply.machine.phase.inTag = true
  event : ∃ kind, reply.event = .token kind ∧ kind ≠ .openDelimiter
  not_endsTag : reply.event.endsTag = false
  tag_eq : reply.machine.tag = m.tag
  clear : Clear m.tag.form reply.extent.count r.rest

/-- The answer leaves the tag. -/
inductive Leaves (m : Machine γ) (r : Reader) (reply : Reply γ) : Prop where
  /-- With the close delimiter. -/
  | closed {ending : Bool} (hc : m.tag.form.closer <+: r.rest)
      (he : reply.event = .token (if ending then .endDelimiter else .closeDelimiter))
      (hx : reply.extent = .take m.tag.form.closer.length)
      (hp : reply.machine.phase = .literal) (ht : reply.machine.tag = m.tag)
  /-- Because the close delimiter does not come before another tag opens. -/
  | abandoned (hn : tagEnd? m.tag.form r.rest = none)
      (he : reply.event = .token (.invalid .missingClose)) (hx : reply.extent = .take 0)
      (hp : reply.machine.phase = .literal) (ht : reply.machine.tag = m.tag)

omit [Grammar γ] in
/-- A tag that is left leads to literal text. -/
theorem Leaves.phase_eq (h : Leaves m r reply) : reply.machine.phase = .literal := by
  cases h with
  | closed _ _ _ hp _ => exact hp
  | abandoned _ _ _ hp _ => exact hp

omit [Grammar γ] in
/-- The tag that is left is still known as the latest. -/
theorem Leaves.tag_eq (h : Leaves m r reply) : reply.machine.tag = m.tag := by
  cases h with
  | closed _ _ _ _ ht => exact ht
  | abandoned _ _ _ _ ht => exact ht

omit [Grammar γ] in
/-- A tag is left with a token, which opens no other tag. -/
theorem Leaves.event (h : Leaves m r reply) :
    ∃ kind, reply.event = .token kind ∧ kind ≠ .openDelimiter := by
  cases h with
  | @closed ending _ he _ _ _ => exact ⟨_, he, by cases ending <;> decide⟩
  | abandoned _ he _ _ _ => exact ⟨_, he, nofun⟩

omit [Grammar γ] in
/-- The token with which a tag is left says so. -/
theorem Leaves.endsTag (h : Leaves m r reply) : reply.event.endsTag = true := by
  cases h with
  | @closed ending _ he _ _ _ =>
      rw [he]
      cases ending <;> rfl
  | abandoned _ he _ _ _ =>
      rw [he]
      rfl

/-- A step inside a tag stays there, or leaves the tag. -/
theorem TagStep.stays_or_leaves (hp : m.phase.inTag = true) (h : TagStep ending bound m r reply) :
    Stays m r reply ∨ Leaves m r reply := by
  have hpart : ∀ {kind : TokenKind}, kind.isPart = true → kind ≠ .openDelimiter := by
    rintro kind hk rfl
    exact nomatch hk
  cases h with
  | closed _ hc => exact Or.inr (.closed hc rfl rfl rfl rfl)
  | abandoned _ hn => exact Or.inr (.abandoned hn rfl rfl rfl rfl)
  | space hk _ hc =>
      refine Or.inl ⟨hp, ⟨_, rfl, ?_⟩, ?_, rfl, hc⟩
      · rcases hk with rfl | rfl <;> exact nofun
      · rcases hk with rfl | rfl <;> rfl
  | @startTag g name _ hn _ =>
      obtain ⟨kind, blocks, hk, heq⟩ := takeStartTag_eq { m with grammar := g } name r.document
      rw [heq]
      exact Or.inl ⟨Phase.inTag_of_isNamed (isNamed_identity _), ⟨kind, rfl, hpart hk⟩,
        TokenKind.endsTag_of_isPart hk, rfl, clear_identifier hn⟩
  | part hk _ hc hn _ | keyPath hk _ hc hn _ =>
      exact Or.inl ⟨Phase.inTag_of_isNamed hn, ⟨_, rfl, hpart hk⟩,
        TokenKind.endsTag_of_isPart hk, rfl, hc⟩
  | mark hf hn _ _ =>
      exact Or.inl ⟨Phase.inTag_of_isNamed hn, ⟨_, rfl, nofun⟩, TokenKind.endsTag_of_isPart hf,
        rfl, Avoids.zero _ _⟩
  | recovered hf _ _ =>
      exact Or.inl ⟨rfl, ⟨_, rfl, nofun⟩, TokenKind.endsTag_of_isPart hf, rfl,
        clear_recoveryEnd _ _⟩
  | openBracket hh hn _ | closeBracket hh _ hn _ =>
      exact Or.inl ⟨Phase.inTag_of_isNamed hn, ⟨_, rfl, nofun⟩, rfl, rfl, Clear.of_head hh rfl⟩
  | dropBracket _ hn _ =>
      refine Or.inl ⟨?_, ⟨_, rfl, nofun⟩, rfl, rfl, Avoids.zero _ _⟩
      rcases hn with rfl | rfl
      · exact hp
      · rfl
  | trimLeft _ _ hh => exact Or.inl ⟨rfl, ⟨_, rfl, nofun⟩, rfl, rfl, Clear.of_head hh rfl⟩
  | trimRight _ hd =>
      obtain ⟨tail, htail⟩ := hd
      exact Or.inl ⟨rfl, ⟨_, rfl, nofun⟩, rfl, rfl, Clear.of_head (by rw [← htail]; rfl) rfl⟩
  | outputTag _ _ _ => exact Or.inl ⟨rfl, ⟨_, rfl, nofun⟩, rfl, rfl, Avoids.zero _ _⟩
  | endTag _ hn _ => exact Or.inl ⟨rfl, ⟨_, rfl, nofun⟩, rfl, rfl, clear_identifier hn⟩

/-- Inside a tag a step stays in it or leaves it. -/
theorem step_stays_or_leaves (hp : m.phase.inTag = true) (r : Reader) :
    Stays m r (m.step r) ∨ Leaves m r (m.step r) :=
  (step_inTag m r hp).stays_or_leaves hp

/-- A step inside a tag leaves the tag if it ends it, -/
theorem leaves_of_endsTag (hp : m.phase.inTag = true) (h : (m.step r).event.endsTag = true) :
    Leaves m r (m.step r) := by
  rcases step_stays_or_leaves hp r with hstay | hleave
  · exact absurd (hstay.not_endsTag.symm.trans h) Bool.false_ne_true
  · exact hleave

/-- and stays there if it does not. -/
theorem stays_of_not_endsTag (hp : m.phase.inTag = true) (h : (m.step r).event.endsTag = false) :
    Stays m r (m.step r) := by
  rcases step_stays_or_leaves hp r with hstay | hleave
  · exact hstay
  · exact absurd (h.symm.trans hleave.endsTag) Bool.false_ne_true

/-- Either way the tag is the same. -/
theorem tag_step_of_inTag (hp : m.phase.inTag = true) (r : Reader) :
    (m.step r).machine.tag = m.tag := by
  rcases step_stays_or_leaves hp r with hstay | hleave
  · exact hstay.tag_eq
  · exact hleave.tag_eq

/-- Inside a tag every step finds a token, and never an open delimiter. -/
theorem exists_token_of_inTag (hp : m.phase.inTag = true) (r : Reader) :
    ∃ kind, (m.step r).event = .token kind ∧ kind ≠ .openDelimiter := by
  rcases step_stays_or_leaves hp r with hstay | hleave
  · exact hstay.event
  · exact hleave.event

theorem length_pos_of_head? {text : List Char} {c : Char} (h : text.head? = some c) :
    0 < text.length := by
  obtain ⟨cs, rfl⟩ := List.head?_eq_some_iff.mp h
  exact Nat.succ_pos _

/-- Inside a tag no more characters are taken than there are. -/
theorem TagStep.count_le (h : TagStep ending bound m r reply) :
    reply.extent.count ≤ r.rest.length := by
  cases h with
  | space _ _ hc | part _ _ hc _ _ | keyPath _ _ hc _ _ => exact hc.le_length
  | trimLeft _ _ hh | openBracket hh _ _ | closeBracket hh _ _ _ => exact length_pos_of_head? hh
  | startTag _ hn _ | endTag _ hn _ => exact (identifier?_eq_some hn).1.length_le
  | recovered _ _ _ => exact (clear_recoveryEnd _ _).le_length
  | trimRight _ hd => exact Nat.lt_of_lt_of_le (Nat.succ_pos _) hd.length_le
  | closed _ hc => exact hc.length_le
  | outputTag _ _ _ | mark _ _ _ _ | dropBracket _ _ _ | abandoned _ _ => exact Nat.zero_le _

omit [Grammar γ] in
/-- What a body is passed over as: at least one character, or no token. -/
theorem stepBody_eq (m : Machine γ) (body : Body) {rest : List Char} (hr : rest ≠ []) :
    ∃ n event kept, m.stepBody body rest =
        ⟨event, .take n, { m with phase := .literal, body := kept }⟩ ∧
      (kept = none ∨ kept = m.body) ∧
      (n = 0 ∧ event = .text ∧ kept = none ∨ 0 < n ∧ event = .token body.kind) := by
  rw [stepBody]
  split
  · next n _ =>
      refine ⟨n, _, none, rfl, Or.inl rfl, ?_⟩
      by_cases hn : n = 0
      · exact Or.inl ⟨hn, if_pos hn, rfl⟩
      · exact Or.inr ⟨Nat.pos_of_ne_zero hn, if_neg hn⟩
  · exact ⟨rest.length, _, m.body, rfl, Or.inr rfl, Or.inr ⟨List.length_pos_iff.mpr hr, rfl⟩⟩

/-- The body to be passed over, if there is one, becomes a token of a kind for bodies. -/
def BodySound (m : Machine γ) : Prop :=
  ∀ body, m.body = some body → body.kind.isBody = true

/-- A step outside tags either finds an open delimiter or stays outside. -/
theorem TextStep.opens_or_stays (hr : r.rest ≠ []) (h : TextStep m r reply) :
    (∃ form, form.opener <+: r.rest ∧ reply = m.openTag form r.offset) ∨
      reply.event ≠ .finished ∧ reply.machine.phase.inTag = false ∧ reply.machine.tag = m.tag ∧
        (m.BodySound → reply.event ≠ .token .openDelimiter) := by
  cases h with
  | @body body hb =>
      right
      obtain ⟨n, event, kept, heq, -, hcase⟩ := stepBody_eq m body hr
      rw [heq]
      rcases hcase with ⟨-, rfl, -⟩ | ⟨-, rfl⟩
      · exact ⟨nofun, rfl, rfl, fun _ => nofun⟩
      · refine ⟨nofun, rfl, rfl, fun hm he => ?_⟩
        have hkind := hm body hb
        rw [Event.token.inj he] at hkind
        exact nomatch hkind
  | @opens form hb hf => exact Or.inl ⟨form, hf, rfl⟩
  | element _ _ _ =>
      right
      rw [stepElement]
      split
      · exact ⟨nofun, rfl, rfl, fun _ => nofun⟩
      · exact ⟨nofun, rfl, rfl, fun _ => nofun⟩
  | endElement _ _ _ =>
      right
      rw [stepEndElement]
      split
      · exact ⟨nofun, rfl, rfl, fun _ => nofun⟩
      · exact ⟨nofun, rfl, rfl, fun _ => nofun⟩
  | text _ _ _ => exact Or.inr ⟨nofun, rfl, rfl, fun _ => nofun⟩
  | markup hk _ _ hp _ =>
      refine Or.inr ⟨nofun, hp, rfl, fun _ he => ?_⟩
      rw [Event.token.inj he] at hk
      exact nomatch hk
  | selfClose _ _ => exact Or.inr ⟨nofun, rfl, rfl, fun _ => nofun⟩
  | space hk _ _ hp =>
      refine Or.inr ⟨nofun, by rw [hp]; rfl, rfl, fun _ => ?_⟩
      rcases hk with rfl | rfl <;> exact nofun
  | leave _ => exact Or.inr ⟨nofun, rfl, rfl, fun _ => nofun⟩

/-- Outside tags a step opens one, or stays outside and keeps the latest tag. -/
theorem step_opens_or_stays (hp : m.phase.inTag = false) (hr : r.atEnd = false) :
    (∃ form, form.opener <+: r.rest ∧ m.step r = m.openTag form r.offset) ∨
      (m.step r).event ≠ .finished ∧ (m.step r).machine.phase.inTag = false ∧
        (m.step r).machine.tag = m.tag ∧
          (m.BodySound → (m.step r).event ≠ .token .openDelimiter) :=
  (step_outside m r hp hr).opens_or_stays (List.isEmpty_eq_false_iff.mp hr)

-- ── bodies ───────────────────────────────────────────────────────────────────────

/-- The body of a tag is passed over as one of the kinds for bodies. -/
theorem isBody_bodyKind? {m : Machine γ} {kind : TokenKind} (h : m.bodyKind? = some kind) :
    kind.isBody = true := by
  rw [bodyKind?] at h
  split at h
  · exact nomatch h
  · split at h
    · obtain rfl := Option.some.inj h
      rfl
    · obtain rfl := Option.some.inj h
      rfl
    · obtain rfl := Option.some.inj h
      rfl
    · exact nomatch h

/-- What a step does to the body that is to be passed over. -/
inductive BodyMove (m : Machine γ) (r : Reader) (reply : Reply γ) : Prop where
  | keeps (hb : reply.machine.body = m.body)
  /-- The body has been passed over. -/
  | passed (hb : reply.machine.body = none)
  /-- The name of a tag has been taken, and its body is the next to be passed over. -/
  | waits {grammar : γ} {name : List Char} {kind : TokenKind} (hn : identifier? r.rest = some name)
      (hk : bodyKind? { m with grammar } = some kind)
      (hb : reply.machine.body = some ⟨name, kind⟩)

/-- Inside a tag a body is set where its tag begins, and not touched again. -/
theorem TagStep.bodyMove (h : TagStep ending bound m r reply) : BodyMove m r reply := by
  cases h with
  | @startTag grammar name _ hn _ _ =>
      have hbody : (takeStartTag { m with grammar } name r.document).machine.body =
          ((bodyKind? { m with grammar }).map (Body.mk name)).or m.body := rfl
      cases hk : bodyKind? { m with grammar } with
      | none =>
          rw [hk] at hbody
          exact .keeps hbody
      | some kind =>
          rw [hk] at hbody
          exact .waits hn hk hbody
  | _ => exact .keeps rfl

/-- Outside tags a body is given up where it ends. -/
theorem TextStep.bodyMove (hr : r.rest ≠ []) (h : TextStep m r reply) : BodyMove m r reply := by
  cases h with
  | @body body _ =>
      obtain ⟨n, event, kept, heq, hkept, -⟩ := stepBody_eq m body hr
      rw [heq]
      rcases hkept with rfl | rfl
      · exact .passed rfl
      · exact .keeps rfl
  | element _ _ _ =>
      rw [stepElement]
      split <;> exact .keeps rfl
  | endElement _ _ _ =>
      rw [stepEndElement]
      split <;> exact .keeps rfl
  | _ => exact .keeps rfl

-- ── the end of the document ──────────────────────────────────────────────────────

/-- At the end of the document nothing is left but reports. -/
theorem step_atEnd (h : m.phase.inTag = false) (hr : r.atEnd = true) :
    m.step r = ⟨.finished, .hold, { m with phase := .literal }.flush r.document.size⟩ := by
  rw [step, if_pos hr, stepEnd, if_neg (by rw [h]; decide)]

/-- A scan finds the end exactly when no text and no open tag is left. -/
theorem step_finished_iff :
    (m.step r).event = .finished ↔ r.atEnd = true ∧ m.phase.inTag = false := by
  constructor
  · intro h
    cases hp : m.phase.inTag with
    | true =>
        obtain ⟨kind, hk, -⟩ := exists_token_of_inTag hp r
        rw [hk] at h
        exact nomatch h
    | false =>
        cases hr : r.atEnd with
        | true => exact ⟨rfl, rfl⟩
        | false =>
            rcases step_opens_or_stays hp hr with ⟨form, -, heq⟩ | ⟨hne, -, -, -⟩
            · rw [heq] at h
              exact nomatch h
            · exact absurd h hne
  · rintro ⟨hr, hp⟩
    rw [step_atEnd hp hr]

/-- Outside tags, a step that does not find the end has text before it. -/
theorem rest_ne_nil_of_outside (hp : m.phase.inTag = false) (h : (m.step r).event ≠ .finished) :
    r.atEnd = false ∧ r.rest ≠ [] := by
  have hr : r.atEnd = false := by
    cases hr : r.atEnd with
    | false => rfl
    | true => exact absurd (step_finished_iff.mpr ⟨hr, hp⟩) h
  exact ⟨hr, List.isEmpty_eq_false_iff.mp hr⟩

/-- A step finds an open delimiter only where one comes, and then it opens its tag. -/
theorem step_eq_openTag (hm : m.BodySound) (h : (m.step r).event = .token .openDelimiter) :
    ∃ form, form.opener <+: r.rest ∧ m.step r = m.openTag form r.offset := by
  cases hp : m.phase.inTag with
  | true =>
      obtain ⟨kind, hk, hne⟩ := exists_token_of_inTag hp r
      exact absurd (Event.token.inj (hk.symm.trans h)) hne
  | false =>
      obtain ⟨hr, -⟩ := rest_ne_nil_of_outside hp (by rw [h]; decide)
      rcases step_opens_or_stays hp hr with hopens | ⟨-, -, -, hopen⟩
      · exact hopens
      · exact absurd h (hopen hm)

omit [Grammar γ] in
/-- Reports are made once. -/
theorem flush_of_flushed {size : Nat} (h : m.flushed = true) : m.flush size = m :=
  if_pos h

omit [Grammar γ] in
theorem flushed_flush (m : Machine γ) (size : Nat) : (m.flush size).flushed = true := by
  by_cases h : m.flushed = true
  · rw [flush_of_flushed h]
    exact h
  · rw [flush, if_neg h]

omit [Grammar γ] in
theorem phase_flush (m : Machine γ) (size : Nat) : (m.flush size).phase = m.phase := by
  rw [flush]
  split <;> rfl

omit [Grammar γ] in
theorem body_flush (m : Machine γ) (size : Nat) : (m.flush size).body = m.body := by
  rw [flush]
  split <;> rfl

omit [Grammar γ] in
theorem tag_flush (m : Machine γ) (size : Nat) : (m.flush size).tag = m.tag := by
  rw [flush]
  split <;> rfl

-- ── what steps keep ──────────────────────────────────────────────────────────────

/-- Inside a tag the grammar goes from one question to the next. -/
theorem TagStep.moves (h : TagStep ending bound m r reply) :
    Grammar.Moves m.grammar reply.machine.grammar := by
  cases h with
  | closed _ _ hg | abandoned _ _ hg => exact .releaseObject (.resetFilter hg)
  | @startTag g name _ _ _ hg => exact hg
  | space _ _ _ hg | trimLeft _ _ _ hg | outputTag _ _ _ hg | endTag _ _ _ hg => exact hg
  | part _ _ _ _ _ hg | keyPath _ _ _ _ _ hg | closeBracket _ _ _ _ _ hg => exact hg
  | mark _ _ _ _ hg | openBracket _ _ _ _ hg | dropBracket _ _ _ _ hg => exact hg
  | recovered _ _ _ hg | trimRight _ _ hg => exact hg

/-- The two differ at most in what belongs to bodies, blocks and markup. -/
structure KeepsFrame (m m' : Machine γ) : Prop where
  grammar : m'.grammar = m.grammar
  brackets : m'.brackets = m.brackets
  flushed : m'.flushed = m.flushed
  notices : m'.notices = m.notices

/-- A step outside tags opens one, or touches nothing but bodies, blocks and markup. -/
theorem TextStep.opens_or_keeps (hr : r.rest ≠ []) (h : TextStep m r reply) :
    (∃ form, reply = m.openTag form r.offset) ∨ m.KeepsFrame reply.machine := by
  cases h with
  | @opens form _ _ => exact Or.inl ⟨form, rfl⟩
  | @body body _ =>
      obtain ⟨n, event, kept, heq, -, -⟩ := stepBody_eq m body hr
      rw [heq]
      exact Or.inr ⟨rfl, rfl, rfl, rfl⟩
  | element _ _ _ =>
      rw [stepElement]
      split <;> exact Or.inr ⟨rfl, rfl, rfl, rfl⟩
  | endElement _ _ _ =>
      rw [stepEndElement]
      split <;> exact Or.inr ⟨rfl, rfl, rfl, rfl⟩
  | _ => exact Or.inr ⟨rfl, rfl, rfl, rfl⟩

/-- Outside tags the grammar is made ready for the next tag. -/
theorem TextStep.moves (hr : r.rest ≠ []) (h : TextStep m r reply) :
    Grammar.Moves m.grammar reply.machine.grammar := by
  rcases h.opens_or_keeps hr with ⟨form, rfl⟩ | hkeeps
  · exact .setExpect (.resetFilter .refl) _
  · rw [hkeeps.grammar]
    exact .refl

omit [Grammar γ] in
theorem grammar_flush (m : Machine γ) (size : Nat) : (m.flush size).grammar = m.grammar := by
  rw [flush]
  split <;> rfl

/-- A step only moves in the grammar. -/
theorem step_moves (m : Machine γ) (r : Reader) :
    Grammar.Moves m.grammar (m.step r).machine.grammar := by
  cases hp : m.phase.inTag with
  | true => exact (step_inTag m r hp).moves
  | false =>
      cases hr : r.atEnd with
      | false => exact (step_outside m r hp hr).moves (List.isEmpty_eq_false_iff.mp hr)
      | true =>
          rw [step_atEnd hp hr, grammar_flush]
          exact .refl

/-- Before the end of the document nothing is reported. -/
structure Unflushed (m : Machine γ) : Prop where
  flushed : m.flushed = false
  notices : m.notices = []

/-- Inside a tag no reports are made. -/
theorem TagStep.unflushed (hm : m.Unflushed) (h : TagStep ending bound m r reply) :
    reply.machine.Unflushed := by
  cases h <;> exact ⟨hm.flushed, hm.notices⟩

/-- Outside tags no reports are made before the end. -/
theorem TextStep.unflushed (hm : m.Unflushed) (hr : r.rest ≠ []) (h : TextStep m r reply) :
    reply.machine.Unflushed := by
  rcases h.opens_or_keeps hr with ⟨form, rfl⟩ | hkeeps
  · exact ⟨hm.flushed, hm.notices⟩
  · exact ⟨hkeeps.flushed.trans hm.flushed, hkeeps.notices.trans hm.notices⟩

/-- Before the end of the document no reports are made. -/
theorem unflushed_step (hm : m.Unflushed) (h : (m.step r).event ≠ .finished) :
    (m.step r).machine.Unflushed := by
  cases hp : m.phase.inTag with
  | true => exact (step_inTag m r hp).unflushed hm
  | false =>
      obtain ⟨hr, hne⟩ := rest_ne_nil_of_outside hp h
      exact (step_outside m r hp hr).unflushed hm hne

/-- A step that enters a tag has found its open delimiter. -/
theorem step_enters (hp : m.phase.inTag = false) (h : (m.step r).machine.phase.inTag = true) :
    ∃ form, form.opener <+: r.rest ∧ m.step r = m.openTag form r.offset := by
  cases hr : r.atEnd with
  | true =>
      rw [step_atEnd hp hr, phase_flush] at h
      exact nomatch h
  | false =>
      rcases step_opens_or_stays hp hr with hopens | ⟨-, hout, -, -⟩
      · exact hopens
      · rw [hout] at h
        exact nomatch h

/-- A step that leads to markup is made outside tags, and not at the end of the document. -/
theorem outside_of_markup {phase : MarkupPhase} (h : (m.step r).machine.phase = .markup phase) :
    m.phase.inTag = false ∧ r.atEnd = false := by
  cases hp : m.phase.inTag with
  | true =>
      rcases step_stays_or_leaves hp r with hstay | hleave
      · have hin := hstay.inTag
        rw [h] at hin
        exact nomatch hin
      · exact nomatch h.symm.trans hleave.phase_eq
  | false =>
      cases hr : r.atEnd with
      | true =>
          rw [step_atEnd hp hr, phase_flush] at h
          exact nomatch h
      | false => exact ⟨rfl, rfl⟩

/-- A step keeps the tag, and does not enter it, or opens a tag at the cursor. -/
theorem step_tag (m : Machine γ) (r : Reader) :
    (m.step r).machine.tag = m.tag ∧
        ((m.step r).machine.phase.inTag = true → m.phase.inTag = true) ∨
      (m.step r).machine.tag.start = r.offset := by
  cases hp : m.phase.inTag with
  | true =>
      exact Or.inl ⟨tag_step_of_inTag hp r, fun _ => rfl⟩
  | false =>
      cases hr : r.atEnd with
      | true =>
          left
          rw [step_atEnd hp hr]
          refine ⟨tag_flush _ _, fun h => ?_⟩
          rw [phase_flush] at h
          exact nomatch h
      | false =>
          rcases step_opens_or_stays hp hr with ⟨form, -, heq⟩ | ⟨-, hout, htag, -⟩
          · right
            rw [heq]
            rfl
          · left
            refine ⟨htag, fun h => ?_⟩
            rw [hout] at h
            exact nomatch h

/-- Every step does one of these things to the body. -/
theorem step_bodyMove (m : Machine γ) (r : Reader) : BodyMove m r (m.step r) := by
  cases hp : m.phase.inTag with
  | true => exact (step_inTag m r hp).bodyMove
  | false =>
      cases hr : r.atEnd with
      | false => exact (step_outside m r hp hr).bodyMove (List.isEmpty_eq_false_iff.mp hr)
      | true =>
          rw [step_atEnd hp hr]
          exact .keeps (body_flush _ _)

/-- What holds of the body, and of every body that a tag can have, holds after a step. -/
theorem forall_body_step {P : Body → Prop} (hm : ∀ body, m.body = some body → P body)
    (hwaits : ∀ {grammar : γ} {name kind}, identifier? r.rest = some name →
      bodyKind? { m with grammar } = some kind → P ⟨name, kind⟩) :
    ∀ body, (m.step r).machine.body = some body → P body := by
  intro body hbody
  cases step_bodyMove m r with
  | keeps hb => exact hm body (hb.symm.trans hbody)
  | passed hb =>
      rw [hb] at hbody
      exact nomatch hbody
  | waits hn hk hb =>
      obtain rfl := Option.some.inj (hb.symm.trans hbody)
      exact hwaits hn hk

/-- Every step keeps the body sound. -/
theorem bodySound_step (hm : m.BodySound) (r : Reader) : (m.step r).machine.BodySound :=
  forall_body_step hm fun _ hk => isBody_bodyKind? hk

/-- A machine that has reported the end stays as it is. -/
theorem step_atEnd_of_flushed (hp : m.phase = .literal) (hr : r.atEnd = true)
    (hf : m.flushed = true) : m.step r = ⟨.finished, .hold, m⟩ := by
  have hm : { m with phase := .literal } = m := by
    rw [← hp]
  rw [step_atEnd (by rw [hp]; rfl) hr, hm, flush_of_flushed hf]

end Machine

end TemplateScan
