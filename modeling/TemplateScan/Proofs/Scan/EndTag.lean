import TemplateScan.Proofs.Scan.Follows

/-! # End tags — where the scanner sees one

    A body that is passed over is searched for its end tag without scanning it: the search lets any
    number of dashes and any blanks stand before the name (`startsEndTag`).  The scanner itself takes
    one dash, right behind the open delimiter, and then spaces, tabs and line breaks
    (`startsScannedEndTag`).

    * **`startsEndTag_iff`**, **`startsScannedEndTag_iff`** — both, in terms of the dashes and
      blanks that stand in the text.
    * **`misspeltEndTag_iff`** — where the search stops and the scanner sees nothing.
    * **`exists_name_place`** — from an open delimiter the scans lead to the place of the name.
    * **`seesEndTag_iff`** — the scanner sees an end tag exactly where the text begins with one. -/

namespace TemplateScan

open Text

-- ── texts ────────────────────────────────────────────────────────────────────────

/-- The text without the dash that it may begin with. -/
def afterTrim : List Char → List Char
  | '-' :: tail => tail
  | text => text

/-- The text begins with an end tag of the given name as the scanner takes it: behind the open
    delimiter at most one dash, then white space, then the name. -/
def startsScannedEndTag (name text : List Char) : Bool :=
  (TagForm.opener .statement).isPrefixOf text &&
    startsWithWord ("end".toList ++ name) ((afterTrim (text.drop 2)).dropWhile isTagBlank)

/-- A text that begins with no dash stays as it is. -/
theorem afterTrim_of_head {text : List Char} (h : text.head? ≠ some '-') :
    afterTrim text = text := by
  unfold afterTrim
  split
  · exact absurd rfl h
  · rfl

/-- At most one dash is left out. -/
theorem exists_dash (text : List Char) :
    ∃ dash, text = dash ++ afterTrim text ∧ (∀ c ∈ dash, c = '-') ∧ dash.length ≤ 1 := by
  unfold afterTrim
  split
  · exact ⟨['-'], rfl, fun c hc => List.mem_singleton.mp hc, Nat.le_refl 1⟩
  · exact ⟨[], rfl, fun c hc => absurd hc List.not_mem_nil, Nat.zero_le 1⟩

/-- White space inside tags is blank. -/
theorem isBlank_of_isTagBlank {c : Char} (h : isTagBlank c = true) : isBlank c = true := by
  rw [isTagBlank, Bool.or_eq_true] at h
  rcases h with h | h
  · exact isBlank_of_isSpacing h
  · exact isBlank_of_isLineBreak h

/-- A character is not white space inside tags when it is of a class that has none of that. -/
theorem isTagBlank_eq_false {p : Char → Bool} (hs : p ' ' = false) (ht : p '\t' = false)
    (hl : p '\n' = false) (hr : p '\r' = false) {c : Char} (h : p c = true) :
    isTagBlank c = false := by
  cases hb : isTagBlank c with
  | false => rfl
  | true =>
      have hnot : p c = false := by
        simp only [isTagBlank, isSpacing, isLineBreak, Bool.or_eq_true, beq_iff_eq] at hb
        rcases hb with (rfl | rfl) | (rfl | rfl) <;> assumption
      exact absurd (hnot.symm.trans h) Bool.false_ne_true

/-- A run is dropped up to the first character that is none of its class. -/
theorem dropWhile_append_of_head {p : Char → Bool} {run rest : List Char} {c : Char}
    (hrun : ∀ c ∈ run, p c = true) (hrest : rest.head? = some c) (hc : p c = false) :
    (run ++ rest).dropWhile p = rest := by
  obtain ⟨tail, rfl⟩ := List.head?_eq_some_iff.mp hrest
  rw [List.dropWhile_append_of_pos hrun,
    List.dropWhile_cons_of_neg (by rw [hc]; exact Bool.false_ne_true)]

variable {name text : List Char}

/-- The text begins with an end tag of the given name, with the given dashes and then the given
    blanks between its open delimiter and its name. -/
structure SpellsEndTag (name dashes blanks text : List Char) : Prop where
  dash : ∀ c ∈ dashes, c = '-'
  blank : ∀ c ∈ blanks, isBlank c = true
  /-- Nothing that could belong to the name follows it. -/
  text : ∃ tail, continuesIdentifier tail = false ∧
    text = TagForm.opener .statement ++ (dashes ++ (blanks ++ ("end".toList ++ name ++ tail)))

/-- The text begins with an end tag of the given name, but not as the scanner takes it: more than
    one dash stands before the name, or a blank that is no white space inside tags. -/
def MisspeltEndTag (name text : List Char) : Prop :=
  ∃ dashes blanks, SpellsEndTag name dashes blanks text ∧
    (1 < dashes.length ∨ ∃ c ∈ blanks, isTagBlank c = false)

/-- A word stands at the start of a text when nothing that could belong to it follows. -/
theorem startsWithWord_iff_exists {word : List Char} :
    startsWithWord word text = true ↔
      ∃ tail, continuesIdentifier tail = false ∧ text = word ++ tail := by
  rw [startsWithWord, Bool.and_eq_true, List.isPrefixOf_iff_prefix, Bool.not_eq_true']
  constructor
  · rintro ⟨⟨tail, rfl⟩, hends⟩
    rw [List.drop_left] at hends
    exact ⟨tail, hends, rfl⟩
  · rintro ⟨tail, hends, rfl⟩
    rw [List.drop_left]
    exact ⟨List.prefix_append .., hends⟩

namespace SpellsEndTag

variable {dashes blanks : List Char}

/-- Behind the open delimiter the dashes are followed by the blanks, and these by the name. -/
theorem exists_word (h : SpellsEndTag name dashes blanks text) :
    ∃ word, text.drop 2 = dashes ++ (blanks ++ word) ∧ word.head? = some 'e' ∧
      startsWithWord ("end".toList ++ name) word = true := by
  obtain ⟨tail, hends, rfl⟩ := h.text
  exact ⟨"end".toList ++ name ++ tail, rfl, rfl, startsWithWord_iff_exists.mpr ⟨tail, hends, rfl⟩⟩

/-- What follows the dashes is none. -/
theorem exists_head {word : List Char} (hblank : ∀ c ∈ blanks, isBlank c = true)
    (hword : word.head? = some 'e') :
    ∃ c, (blanks ++ word).head? = some c ∧ (c == '-') = false := by
  cases blanks with
  | nil => exact ⟨'e', hword, rfl⟩
  | cons c cs =>
      refine ⟨c, rfl, beq_eq_false_iff_ne.mpr ?_⟩
      rintro rfl
      exact absurd (hblank '-' (List.mem_cons_self ..)) (by decide)

/-- The dashes are dropped up to the blanks. -/
theorem dropWhile_dash (h : SpellsEndTag name dashes blanks text) {word : List Char}
    (hdrop : text.drop 2 = dashes ++ (blanks ++ word)) (hword : word.head? = some 'e') :
    (text.drop 2).dropWhile (· == '-') = blanks ++ word := by
  obtain ⟨c, hc, hdash⟩ := exists_head h.blank hword
  rw [hdrop]
  exact dropWhile_append_of_head (fun c hc => beq_iff_eq.mpr (h.dash c hc)) hc hdash

/-- The text determines the dashes and the blanks. -/
theorem unique {dashes' blanks' : List Char} (h : SpellsEndTag name dashes blanks text)
    (h' : SpellsEndTag name dashes' blanks' text) : dashes' = dashes ∧ blanks' = blanks := by
  obtain ⟨word, hdrop, hword, -⟩ := h.exists_word
  obtain ⟨word', hdrop', hword', -⟩ := h'.exists_word
  have hrest : blanks' ++ word' = blanks ++ word := by
    rw [← h'.dropWhile_dash hdrop' hword', h.dropWhile_dash hdrop hword]
  have hsame : word' = word := by
    rw [← dropWhile_append_of_head h'.blank hword' (by decide), hrest,
      dropWhile_append_of_head h.blank hword (by decide)]
  have hblanks : blanks' = blanks := List.append_cancel_right (hsame ▸ hrest)
  rw [hdrop', hrest] at hdrop
  exact ⟨List.append_cancel_right hdrop, hblanks⟩

end SpellsEndTag

/-- The search stops at every end tag, whatever dashes and blanks are in it. -/
theorem startsEndTag_iff : Machine.startsEndTag name text = true ↔
    ∃ dashes blanks, SpellsEndTag name dashes blanks text := by
  rw [Machine.startsEndTag, Bool.and_eq_true, List.isPrefixOf_iff_prefix]
  constructor
  · rintro ⟨⟨inner, rfl⟩, hword⟩
    obtain ⟨tail, hends, htail⟩ := startsWithWord_iff_exists.mp hword
    rw [List.drop_left] at htail
    refine ⟨inner.takeWhile (· == '-'), (inner.dropWhile (· == '-')).takeWhile isBlank,
      fun c hc => beq_iff_eq.mp (List.all_eq_true.mp List.all_takeWhile c hc),
      List.all_eq_true.mp List.all_takeWhile, tail, hends, ?_⟩
    rw [← htail, trimStart, List.takeWhile_append_dropWhile, List.takeWhile_append_dropWhile]
  · rintro ⟨dashes, blanks, h⟩
    obtain ⟨word, hdrop, hword, hstarts⟩ := h.exists_word
    obtain ⟨tail, -, htext⟩ := h.text
    refine ⟨⟨_, htext.symm⟩, ?_⟩
    show startsWithWord _ (trimStart ((text.drop 2).dropWhile (· == '-'))) = true
    rw [h.dropWhile_dash hdrop hword, trimStart,
      dropWhile_append_of_head h.blank hword (by decide)]
    exact hstarts

/-- The scanner takes an end tag with at most one dash, and with white space as it stands inside
    tags. -/
theorem startsScannedEndTag_iff :
    startsScannedEndTag name text = true ↔ ∃ dashes blanks, SpellsEndTag name dashes blanks text ∧
      dashes.length ≤ 1 ∧ ∀ c ∈ blanks, isTagBlank c = true := by
  rw [startsScannedEndTag, Bool.and_eq_true, List.isPrefixOf_iff_prefix]
  constructor
  · rintro ⟨⟨inner, rfl⟩, hword⟩
    obtain ⟨tail, hends, htail⟩ := startsWithWord_iff_exists.mp hword
    rw [show (TagForm.opener .statement ++ inner).drop 2 = inner from rfl] at htail
    obtain ⟨dashes, hinner, hdashes, hlength⟩ := exists_dash inner
    have hblanks : ∀ c ∈ (afterTrim inner).takeWhile isTagBlank, isTagBlank c = true :=
      List.all_eq_true.mp List.all_takeWhile
    refine ⟨dashes, (afterTrim inner).takeWhile isTagBlank,
      ⟨hdashes, fun c hc => isBlank_of_isTagBlank (hblanks c hc), tail, hends, ?_⟩, hlength,
      hblanks⟩
    rw [← htail, List.takeWhile_append_dropWhile, ← hinner]
  · rintro ⟨dashes, blanks, h, hlength, hblanks⟩
    obtain ⟨word, hdrop, hword, hstarts⟩ := h.exists_word
    obtain ⟨tail, -, htext⟩ := h.text
    refine ⟨⟨_, htext.symm⟩, ?_⟩
    have htrim : afterTrim (text.drop 2) = blanks ++ word := by
      rw [hdrop]
      cases dashes with
      | nil =>
          obtain ⟨c, hc, hdash⟩ := SpellsEndTag.exists_head h.blank hword
          refine afterTrim_of_head fun hhead => ?_
          obtain rfl := Option.some.inj (hc.symm.trans hhead)
          exact absurd hdash (by decide)
      | cons c cs =>
          obtain rfl : c = '-' := h.dash c (List.mem_cons_self ..)
          obtain rfl : cs = [] :=
            List.length_eq_zero_iff.mp (Nat.le_zero.mp (Nat.le_of_succ_le_succ hlength))
          rfl
    rw [htrim, dropWhile_append_of_head hblanks hword (by decide)]
    exact hstarts

/-- The search for an end tag stops wherever the scanner sees one. -/
theorem startsEndTag_of_scanned (h : startsScannedEndTag name text = true) :
    Machine.startsEndTag name text = true := by
  obtain ⟨dashes, blanks, hspells, -, -⟩ := startsScannedEndTag_iff.mp h
  exact startsEndTag_iff.mpr ⟨dashes, blanks, hspells⟩

/-- Where it stops and the scanner sees none, the end tag is misspelt, and only there. -/
theorem misspeltEndTag_iff : MisspeltEndTag name text ↔
    Machine.startsEndTag name text = true ∧ startsScannedEndTag name text = false := by
  constructor
  · rintro ⟨dashes, blanks, h, hwrong⟩
    refine ⟨startsEndTag_iff.mpr ⟨dashes, blanks, h⟩, Bool.eq_false_iff.mpr fun hscanned => ?_⟩
    obtain ⟨dashes', blanks', h', hlength, hblanks⟩ := startsScannedEndTag_iff.mp hscanned
    obtain ⟨rfl, rfl⟩ := h.unique h'
    rcases hwrong with hmany | ⟨c, hc, hother⟩
    · exact absurd hlength (Nat.not_le.mpr hmany)
    · exact absurd ((hblanks c hc).symm.trans hother) nofun
  · rintro ⟨hstarts, hscanned⟩
    obtain ⟨dashes, blanks, h⟩ := startsEndTag_iff.mp hstarts
    refine ⟨dashes, blanks, h, ?_⟩
    refine Classical.byContradiction fun hright => ?_
    rw [not_or, not_exists] at hright
    refine Bool.eq_false_iff.mp hscanned (startsScannedEndTag_iff.mpr
      ⟨dashes, blanks, h, Nat.le_of_not_lt hright.1, fun c hc => ?_⟩)
    exact eq_true_of_ne_false fun hother => hright.2 c ⟨hc, hother⟩

/-- Unless a misspelt end tag begins the text, search and scanner agree about it. -/
theorem startsEndTag_eq_scanned (h : ¬ MisspeltEndTag name text) :
    Machine.startsEndTag name text = startsScannedEndTag name text := by
  rw [misspeltEndTag_iff, not_and, Bool.not_eq_false] at h
  exact Bool.eq_iff_iff.mpr ⟨h, startsEndTag_of_scanned⟩

/-- An end tag begins before the end of the text. -/
theorem lt_length_of_startsEndTag {n : Nat}
    (h : Machine.startsEndTag name (text.drop n) = true) : n < text.length := by
  refine Nat.lt_of_not_le fun hle => ?_
  rw [List.drop_eq_nil_of_le hle] at h
  cases h

-- ── one step ─────────────────────────────────────────────────────────────────────

/-- A dash or white space between an open delimiter and the name of its tag. -/
def Event.isFiller : Event → Bool
  | .token .trimLeft | .token .spacing | .token .lineBreak => true
  | _ => false

namespace Machine

variable {γ : Type} [Grammar γ] {ending : Bool} {bound : Nat} {m : Machine γ} {r : Reader}
  {reply : Reply γ}

/-- Outside bodies an open delimiter opens its tag. -/
theorem step_opens {form : TagForm} (hp : m.phase = .literal) (hb : m.body = none)
    (hf : form.opener <+: r.rest) : m.step r = m.openTag form r.offset := by
  have hend : r.atEnd = false := by
    obtain ⟨tail, htail⟩ := hf
    rw [Reader.atEnd, ← htail]
    cases form <;> rfl
  have hnext : r.isNext form.opener = true := List.isPrefixOf_iff_prefix.mpr hf
  rw [step, hend, if_neg Bool.false_ne_true, if_pos hp, stepPhase, hp]
  show m.stepLiteral r = _
  rw [stepLiteral, hb]
  cases form with
  | output => exact if_pos hnext
  | statement =>
      have hother : r.isNext (TagForm.opener .output) = false := by
        obtain ⟨tail, htail⟩ := hf
        rw [Reader.isNext, ← htail]
        rfl
      dsimp only
      rw [hother, if_neg Bool.false_ne_true, if_pos hnext]

/-- White space behind an open delimiter is taken, and changes nothing. -/
theorem step_blank {c : Char} (hp : m.phase = .opened) (hh : r.rest.head? = some c)
    (hc : isTagBlank c = true) :
    ∃ kind n, (Event.token kind).isFiller = true ∧ 0 < n ∧
      m.step r = ⟨.token kind, .take n, m⟩ ∧ ∀ c ∈ r.rest.take n, isTagBlank c = true := by
  obtain ⟨tail, hrest⟩ := List.head?_eq_some_iff.mp hh
  have hend : r.atEnd = false := by rw [Reader.atEnd, hrest]; rfl
  have hsame : { m with phase := m.phase } = m := rfl
  rw [step, hend, if_neg Bool.false_ne_true, if_neg (by rw [hp]; rintro ⟨⟩)]
  dsimp only
  cases hs : isSpacing c with
  | true =>
      have hrun : (r.rest.takeWhile isSpacing).isEmpty = false := by
        rw [hrest, List.takeWhile_cons_of_pos hs]
        rfl
      rw [hrun]
      refine ⟨.spacing, _, rfl, List.length_pos_iff.mpr (List.isEmpty_eq_false_iff.mp hrun), rfl,
        fun c hc => ?_⟩
      rw [isTagBlank, of_mem_take_takeWhile hc, Bool.true_or]
  | false =>
      have hl : isLineBreak c = true := by rwa [isTagBlank, hs, Bool.false_or] at hc
      have hnone : (r.rest.takeWhile isSpacing).isEmpty = true := by
        rw [hrest, List.takeWhile_cons_of_neg (by rw [hs]; exact Bool.false_ne_true)]
        rfl
      have hrun : (r.rest.takeWhile isLineBreak).isEmpty = false := by
        rw [hrest, List.takeWhile_cons_of_pos hl]
        rfl
      rw [hnone, hrun]
      refine ⟨.lineBreak, _, rfl, List.length_pos_iff.mpr (List.isEmpty_eq_false_iff.mp hrun), rfl,
        fun c hc => ?_⟩
      rw [isTagBlank, of_mem_take_takeWhile hc, Bool.or_true]

/-- Anything but white space is left to the phase. -/
theorem step_eq_stepPhase {c : Char} (hp : m.phase ≠ .literal) (hh : r.rest.head? = some c)
    (hc : isTagBlank c = false) : m.step r = m.stepPhase r := by
  obtain ⟨tail, hrest⟩ := List.head?_eq_some_iff.mp hh
  obtain ⟨hspacing, hbreak⟩ := Bool.or_eq_false_iff.mp hc
  have hend : r.atEnd = false := by rw [Reader.atEnd, hrest]; rfl
  have hnone : ∀ {p : Char → Bool}, p c = false → (r.rest.takeWhile p).isEmpty = true := by
    intro p hpc
    rw [hrest, List.takeWhile_cons_of_neg (by rw [hpc]; exact Bool.false_ne_true)]
    rfl
  rw [step, hend, if_neg Bool.false_ne_true, if_neg hp]
  dsimp only
  rw [hnone hspacing, hnone hbreak]
  rfl

/-- Behind an open delimiter that phase waits for the name. -/
theorem step_eq_stepOpened {c : Char} (hp : m.phase = .opened) (hh : r.rest.head? = some c)
    (hc : isTagBlank c = false) : m.step r = m.stepOpened r := by
  rw [step_eq_stepPhase (by rw [hp]; nofun) hh hc, stepPhase, hp]

/-- The dash right behind the open delimiter is taken, and changes nothing. -/
theorem step_trimLeft (hp : m.phase = .opened)
    (ho : r.offset = m.tag.start + m.tag.form.opener.length) (hd : r.rest.head? = some '-') :
    m.step r = ⟨.token .trimLeft, .take 1, m⟩ := by
  rw [step_eq_stepOpened hp hd rfl, stepOpened, if_pos ⟨ho, hd⟩, emit, ← hp]

/-- Nothing else is found there without ending the wait for the name. -/
theorem TagStep.of_isFiller (h : TagStep ending bound m r reply)
    (hf : reply.event.isFiller = true) :
    (r.offset = m.tag.start + m.tag.form.opener.length ∧ r.rest.head? = some '-') ∨
      ∃ c, r.rest.head? = some c ∧ isTagBlank c = true := by
  have hpart : ∀ {kind : TokenKind}, kind.isPart = true → (Event.token kind).isFiller = false := by
    intro kind hk
    cases kind <;> first | rfl | cases hk
  cases h with
  | trimLeft _ ho hd _ => exact Or.inl ⟨ho, hd⟩
  | @space _ n _ _ hn hc _ hb =>
      right
      have hle := hc.le_length
      cases hrest : r.rest with
      | nil =>
          rw [hrest] at hle
          exact absurd hle (Nat.not_le.mpr hn)
      | cons c cs =>
          obtain ⟨k, rfl⟩ := Nat.exists_eq_succ_of_ne_zero (Nat.ne_of_gt hn)
          rw [hrest] at hb
          exact ⟨c, rfl, hb c (List.mem_cons_self ..)⟩
  | @startTag g name _ _ _ _ =>
      obtain ⟨kind, blocks, hk, heq⟩ := takeStartTag_eq { m with grammar := g } name r.document
      rw [heq] at hf
      exact absurd ((hpart hk).symm.trans hf) Bool.false_ne_true
  | part hk _ _ _ _ _ _ | keyPath hk _ _ _ _ _ _ =>
      exact absurd ((hpart hk).symm.trans hf) Bool.false_ne_true
  | closed _ _ _ => cases ending <;> cases hf
  | _ => cases hf

/-- Only the name of an end tag becomes an end tag. -/
theorem TagStep.of_endTag (h : TagStep ending bound m r reply)
    (he : reply.event = .token .endTag) :
    ∃ name, identifier? r.rest = some name ∧ m.tag.form = .statement ∧
      reply.extent.count = name.length := by
  have hpart : ∀ {kind : TokenKind}, kind.isPart = true → Event.token kind ≠ .token .endTag := by
    rintro kind hk ⟨⟩
    cases hk
  cases h with
  | @endTag g name block _ hn _ _ hf => exact ⟨name, hn, hf, rfl⟩
  | @startTag g name _ _ _ _ =>
      obtain ⟨kind, blocks, hk, heq⟩ := takeStartTag_eq { m with grammar := g } name r.document
      rw [heq] at he
      exact absurd he (hpart hk)
  | part hk _ _ _ _ _ _ | keyPath hk _ _ _ _ _ _ => exact absurd he (hpart hk)
  | space hk _ _ _ _ => rcases hk with rfl | rfl <;> cases he
  | closed _ _ _ => cases ending <;> cases he
  | _ => cases he

/-- Where a name comes next behind the open delimiter of a statement, it decides the step. -/
theorem step_named {name : List Char} (hp : m.phase = .opened) (hf : m.tag.form = .statement)
    (hn : identifier? r.rest = some name) :
    m.step r = match closedName? name with
      | some block => m.takeEndTag name block
      | none => m.stepTagName r := by
  obtain ⟨c, hh, hc⟩ := exists_head_of_identifier? hn
  have hblank := isTagBlank_eq_false rfl rfl rfl rfl hc
  have hno : ¬ (r.offset = m.tag.start + m.tag.form.opener.length ∧ r.rest.head? = some '-') := by
    rintro ⟨-, hd⟩
    obtain rfl := Option.some.inj (hh.symm.trans hd)
    cases hc
  rw [step_eq_stepOpened hp hh hblank, stepOpened, if_neg hno]
  cases hclosed : closedName? name with
  | none => simp only [hf, hn, hclosed]
  | some block => simp only [hf, hn, hclosed]

end Machine

-- ── runs ─────────────────────────────────────────────────────────────────────────

namespace Scanner

variable {γ : Type} [Grammar γ] {s : Scanner γ} {k : Nat}

/-- The scanner after a scan that takes some text. -/
theorem after_one_of_take {event : Event} {n : Nat} {m : Machine γ}
    (h : s.machine.step s.reader = ⟨event, .take n, m⟩) :
    (s.after 1).reader = s.reader.capture n ∧ (s.after 1).machine = m := by
  rw [after_succ, after_zero, reader_scanHere, machine_scanHere, h]
  exact ⟨rfl, rfl⟩

/-- The next `k` scans take dashes and white space and change nothing else; the text that is left
    begins with something else. -/
structure WaitsFor (s : Scanner γ) (k : Nat) (text : List Char) : Prop where
  filler : ∀ j < k, (s.eventAt j).isFiller = true
  stops : (s.eventAt k).isFiller = false
  machine : (s.after k).machine = s.machine
  rest : (s.after k).reader.rest = text

theorem WaitsFor.cons {kind : TokenKind} {n : Nat}
    (hstep : s.machine.step s.reader = ⟨.token kind, .take n, s.machine⟩)
    (hk : (Event.token kind).isFiller = true) (h : (s.after 1).WaitsFor k text) :
    s.WaitsFor (1 + k) text where
  filler j hj := by
    cases j with
    | zero => rwa [eventAt, after_zero, event_scanHere, hstep]
    | succ j =>
        rw [Nat.add_comm j 1, eventAt_add]
        exact h.filler j (by omega)
  stops := by
    rw [eventAt_add]
    exact h.stops
  machine := by
    rw [after_add, h.machine, (after_one_of_take hstep).2]
  rest := by
    rw [after_add]
    exact h.rest

/-- Where no dash trims the text before the tag, only white space is passed over. -/
theorem exists_waits_blank (hp : s.machine.phase = .opened)
    (ho : s.machine.tag.start + s.machine.tag.form.opener.length ≤ s.reader.offset)
    (hd : s.reader.offset = s.machine.tag.start + s.machine.tag.form.opener.length →
      s.reader.rest.head? ≠ some '-') :
    ∃ k, s.WaitsFor k (s.reader.rest.dropWhile isTagBlank) := by
  generalize hlen : s.reader.rest.length = len
  induction len using Nat.strongRecOn generalizing s with
  | ind len ih =>
      by_cases hblank : ∃ c, s.reader.rest.head? = some c ∧ isTagBlank c = true
      · obtain ⟨c, hh, hc⟩ := hblank
        obtain ⟨kind, n, hk, hn, hstep, hall⟩ := Machine.step_blank hp hh hc
        obtain ⟨hreader, hmachine⟩ := after_one_of_take hstep
        have hpos := Machine.length_pos_of_head? hh
        have hle : n ≤ s.reader.rest.length := by
          have hin : s.machine.phase.inTag = true := by rw [hp]; rfl
          have hcount := (Machine.step_inTag s.machine s.reader hin).count_le
          rwa [hstep] at hcount
        have hmove : s.reader.offset < (s.after 1).reader.offset := by
          rw [hreader, Reader.offset_capture, ← Reader.offsetAt_zero]
          exact Reader.offsetAt_lt hn hle
        obtain ⟨k, hwaits⟩ := ih (s.after 1).reader.rest.length
          (by rw [hreader, Reader.rest_capture, List.length_drop]; omega)
          (by rw [hmachine, hp]) (by rw [hmachine]; omega) (by rw [hmachine]; omega) rfl
        refine ⟨1 + k, WaitsFor.cons hstep hk ?_⟩
        have hrest : s.reader.rest.dropWhile isTagBlank =
            (s.after 1).reader.rest.dropWhile isTagBlank := by
          rw [hreader, Reader.rest_capture]
          calc s.reader.rest.dropWhile isTagBlank
              = (s.reader.rest.take n ++ s.reader.rest.drop n).dropWhile isTagBlank := by
                rw [List.take_append_drop]
            _ = (s.reader.rest.drop n).dropWhile isTagBlank :=
                List.dropWhile_append_of_pos hall
        rwa [hrest]
      · refine ⟨0, fun j hj => absurd hj (Nat.not_lt_zero j), ?_, rfl, ?_⟩
        · cases hf : (s.eventAt 0).isFiller with
          | false => rfl
          | true =>
              have hin : s.machine.phase.inTag = true := by rw [hp]; rfl
              rcases (Machine.step_inTag s.machine s.reader hin).of_isFiller hf with
                ⟨hoff, hdash⟩ | hhead
              · exact absurd hdash (hd hoff)
              · exact absurd hhead hblank
        · show s.reader.rest = _
          cases hrest : s.reader.rest with
          | nil => rfl
          | cons c cs =>
              rw [hrest] at hblank
              exact (List.dropWhile_cons_of_neg fun hc => hblank ⟨c, rfl, hc⟩).symm

/-- **The way to the name.**  Right behind an open delimiter the scans take a dash, if one stands
    there, and then white space, up to something else. -/
theorem exists_name_place (hp : s.machine.phase = .opened)
    (ho : s.reader.offset = s.machine.tag.start + s.machine.tag.form.opener.length) :
    ∃ k, s.WaitsFor k ((afterTrim s.reader.rest).dropWhile isTagBlank) := by
  by_cases hd : s.reader.rest.head? = some '-'
  · have hstep := Machine.step_trimLeft hp ho hd
    obtain ⟨hreader, hmachine⟩ := after_one_of_take hstep
    have hmove : s.reader.offset < (s.after 1).reader.offset := by
      rw [hreader, Reader.offset_capture, ← Reader.offsetAt_zero]
      exact Reader.offsetAt_lt Nat.one_pos (Machine.length_pos_of_head? hd)
    obtain ⟨k, hwaits⟩ := exists_waits_blank (s := s.after 1) (by rw [hmachine, hp])
      (by rw [hmachine]; omega) (by rw [hmachine]; omega)
    refine ⟨1 + k, WaitsFor.cons hstep rfl ?_⟩
    have htrim : afterTrim s.reader.rest = (s.after 1).reader.rest := by
      obtain ⟨tail, hrest⟩ := List.head?_eq_some_iff.mp hd
      rw [hreader, Reader.rest_capture, hrest]
      rfl
    rwa [htrim]
  · rw [afterTrim_of_head hd]
    exact exists_waits_blank hp (Nat.le_of_eq ho.symm) fun _ => hd

-- ── the end tag ──────────────────────────────────────────────────────────────────

/-- The scans from here on open a tag, take dash and white space, and with the scan after `k` of
    those find an end tag of the given name. -/
structure FindsEndTag (s : Scanner γ) (k : Nat) (name : List Char) : Prop where
  opens : s.eventAt 0 = .token .openDelimiter
  filler : ∀ j < k, (s.eventAt (1 + j)).isFiller = true
  ends : s.eventAt (1 + k) = .token .endTag
  text : (s.after (1 + k)).reader.rest =
    ("end".toList ++ name) ++ (s.after (1 + k + 1)).reader.rest

/-- Scanning on from here, the first tag is an end tag of the given name, and begins at once. -/
def SeesEndTag (s : Scanner γ) (name : List Char) : Prop :=
  ∃ k, s.FindsEndTag k name

variable {name : List Char}

/-- The scanner behind an open delimiter. -/
theorem after_one_of_opens {form : TagForm}
    (h : s.machine.step s.reader = s.machine.openTag form s.reader.offset) :
    (s.after 1).reader = s.reader.capture form.opener.length ∧
      (s.after 1).machine = (s.machine.openTag form s.reader.offset).machine :=
  after_one_of_take h

theorem offset_capture_opener {r : Reader} {form : TagForm} (h : form.opener <+: r.rest) :
    (r.capture form.opener.length).offset = r.offset + form.opener.length := by
  have hsize : byteSize form.opener = form.opener.length := by cases form <;> decide
  rw [Reader.offset_capture, Reader.offsetAt_length h, hsize]

/-- The word `end` and a name are the name of an end tag. -/
theorem identifier?_end (hn : identifier? name = some name) :
    identifier? ("end".toList ++ name) = some ("end".toList ++ name) ∧
      Machine.closedName? ("end".toList ++ name) = some name := by
  obtain ⟨-, hpos, hall⟩ := identifier?_eq_some hn
  have hself : name.takeWhile isIdentifierChar = name := by
    have happend := @List.takeWhile_append_of_pos _ isIdentifierChar name [] hall
    rwa [List.append_nil, List.takeWhile_nil, List.append_nil] at happend
  constructor
  · show some ('e' :: 'n' :: 'd' :: name.takeWhile isIdentifierChar) = _
    rw [hself]
    rfl
  · show (if name.isEmpty then none else some name) = some name
    rw [if_neg (by rw [List.isEmpty_iff]; rintro rfl; cases hpos)]

/-- Where the text begins with an end tag, the scans find it. -/
theorem exists_findsEndTag (hp : s.machine.phase = .literal) (hb : s.machine.body = none)
    (hn : identifier? name = some name) (h : startsScannedEndTag name s.reader.rest = true) :
    ∃ k, s.FindsEndTag k name ∧
      (s.after (1 + k)).machine = (s.machine.openTag .statement s.reader.offset).machine ∧
      (s.after (1 + k)).machine.step (s.after (1 + k)).reader =
        (s.after (1 + k)).machine.takeEndTag ("end".toList ++ name) name := by
  rw [startsScannedEndTag, Bool.and_eq_true] at h
  obtain ⟨hopen, hword⟩ := h
  have hpre := List.isPrefixOf_iff_prefix.mp hopen
  have hstep := Machine.step_opens hp hb hpre
  obtain ⟨hreader, hmachine⟩ := after_one_of_opens hstep
  obtain ⟨k, hwaits⟩ := exists_name_place (s := s.after 1) (by rw [hmachine]; rfl)
    (by rw [hreader, hmachine, offset_capture_opener hpre]; rfl)
  have hrest : (s.after 1).reader.rest = s.reader.rest.drop 2 := by rw [hreader]; rfl
  obtain ⟨hend, hclosed⟩ := identifier?_end hn
  have hname : identifier? (s.after (1 + k)).reader.rest = some ("end".toList ++ name) := by
    rw [after_add, hwaits.rest, hrest]
    exact (startsWithWord_iff hend).mp hword
  have hsame : (s.after (1 + k)).machine =
      (s.machine.openTag .statement s.reader.offset).machine := by
    rw [after_add, hwaits.machine, hmachine]
  have htake : (s.after (1 + k)).machine.step (s.after (1 + k)).reader =
      (s.after (1 + k)).machine.takeEndTag ("end".toList ++ name) name := by
    rw [Machine.step_named (by rw [hsame]; rfl) (by rw [hsame]; rfl) hname, hclosed]
  refine ⟨k, ⟨?_, fun j hj => ?_, ?_, ?_⟩, hsame, htake⟩
  · rw [eventAt, after_zero, event_scanHere, hstep]
    rfl
  · rw [eventAt_add]
    exact hwaits.filler j hj
  · rw [eventAt, event_scanHere, htake]
    rfl
  · obtain ⟨tail, htail⟩ := (identifier?_eq_some hname).1
    rw [after_succ, reader_scanHere, rest_apply, htake]
    show _ = _ ++ List.drop ("end".toList ++ name).length _
    rw [← htail, List.drop_left]

/-- **Where the scanner sees an end tag**: outside bodies, exactly where the text begins with one. -/
theorem seesEndTag_iff (hp : s.machine.phase = .literal) (hb : s.machine.body = none)
    (hn : identifier? name = some name) :
    s.SeesEndTag name ↔ startsScannedEndTag name s.reader.rest = true := by
  constructor
  · rintro ⟨k, hopens, hfiller, hends, htext⟩
    have hbody : s.machine.BodySound := by
      intro body hsome
      rw [hb] at hsome
      cases hsome
    obtain ⟨form, hpre, hstep⟩ : ∃ form : TagForm, form.opener <+: s.reader.rest ∧
        s.machine.step s.reader = s.machine.openTag form s.reader.offset :=
      Machine.step_eq_openTag hbody hopens
    obtain ⟨hreader, hmachine⟩ := after_one_of_opens hstep
    obtain ⟨k', hwaits⟩ := exists_name_place (s := s.after 1) (by rw [hmachine]; rfl)
      (by rw [hreader, hmachine, offset_capture_opener hpre]; rfl)
    -- both waits end with the first scan that takes something else
    have hsame : k' = k := by
      rcases Nat.lt_trichotomy k' k with hlt | heq | hgt
      · have hfill := hfiller k' hlt
        rw [eventAt_add, hwaits.stops] at hfill
        cases hfill
      · exact heq
      · have hfill := hwaits.filler k hgt
        rw [← eventAt_add, hends] at hfill
        cases hfill
    subst hsame
    have hrest : (s.after (1 + k')).reader.rest =
        (afterTrim (s.reader.rest.drop form.opener.length)).dropWhile isTagBlank := by
      rw [after_add, hwaits.rest, hreader]
      rfl
    have hin : (s.after (1 + k')).machine.phase.inTag = true := by
      rw [after_add, hwaits.machine, hmachine]
      rfl
    obtain ⟨found, hfound, hform, hcount⟩ :=
      (Machine.step_inTag (s.after (1 + k')).machine (s.after (1 + k')).reader hin).of_endTag hends
    obtain rfl : form = .statement := by
      rw [after_add, hwaits.machine, hmachine] at hform
      exact hform
    obtain rfl : found = "end".toList ++ name := by
      obtain ⟨tail, htail⟩ := (identifier?_eq_some hfound).1
      rw [after_succ, reader_scanHere, rest_apply, hcount, ← htail, List.drop_left] at htext
      exact List.append_cancel_right htext
    rw [startsScannedEndTag, Bool.and_eq_true]
    refine ⟨List.isPrefixOf_iff_prefix.mpr hpre, ?_⟩
    rw [hrest] at hfound
    exact (startsWithWord_iff (identifier?_end hn).1).mpr hfound
  · intro h
    obtain ⟨k, hfinds, -⟩ := exists_findsEndTag hp hb hn h
    exact ⟨k, hfinds⟩

end Scanner

end TemplateScan
