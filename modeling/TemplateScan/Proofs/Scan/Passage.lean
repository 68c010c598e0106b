import TemplateScan.Proofs.Scan.EndTag
import TemplateScan.Proofs.Scan.Lexemes

/-! # Passages — what a run makes of a text that it passes over

    A passage leads from one scanner to a later one: over a text, and over the tokens found in it.
    Spaces are not counted among the tokens.  Passages are put together one behind another, and a
    single scan is the shortest one.

    * **`Passes`** — a passage; **`Passes.trans`** — two of them.
    * **`passes_token`** — a token of the text that comes next.
    * **`passes_space`** — a space inside a tag, which changes nothing.
    * **`passes_opener`**, **`passes_closer`** — the delimiters of a tag.
    * **`PassesIn.findsWords`** — a passage over a whole document. -/

namespace TemplateScan

open Text

-- ── steps ────────────────────────────────────────────────────────────────────────

namespace Machine

variable {γ : Type} [Grammar γ] {m : Machine γ} {r : Reader}

/-- A single space inside a tag is taken, and changes nothing. -/
theorem step_space {c : Char} {tail : List Char} (hp : m.phase ≠ .literal)
    (hr : r.rest = ' ' :: c :: tail) (hc : isSpacing c = false) :
    m.step r = ⟨.token .spacing, .take 1, m⟩ := by
  have hend : r.atEnd = false := by rw [Reader.atEnd, hr]; rfl
  have hrun : r.rest.takeWhile isSpacing = [' '] := by
    rw [hr, List.takeWhile_cons_of_pos rfl,
      List.takeWhile_cons_of_neg (by rw [hc]; exact Bool.false_ne_true)]
  rw [step, hend, if_neg Bool.false_ne_true, if_neg hp]
  dsimp only
  rw [hrun]
  rfl

/-- Where the close delimiter comes, a tag without open brackets is closed. -/
theorem close_closer (ending : Bool) {rest : List Char} (hb : m.brackets.isEmpty = true)
    (hc : m.tag.form.closer <+: rest) :
    m.close ending rest = m.leaveTag.emit (if ending then .endDelimiter else .closeDelimiter)
      m.tag.form.closer.length .literal := by
  have hcloser := List.isPrefixOf_iff_prefix.mpr hc
  have hdash : ('-' :: m.tag.form.closer).isPrefixOf rest = false := by
    rw [Bool.eq_false_iff, ne_eq, List.isPrefixOf_iff_prefix]
    rintro ⟨tail, rfl⟩
    cases hf : m.tag.form <;> rw [hf] at hc <;> cases (List.cons_prefix_cons.mp hc).1
  have hspaced : spacedDash? m.tag.form rest = none := by
    obtain ⟨tail, rfl⟩ := hc
    cases m.tag.form <;> rfl
  unfold close
  dsimp only
  rw [hb, hdash, hspaced, hcloser]
  rfl

/-- A close delimiter ends a tag. -/
theorem atClose_closer {form : TagForm} {text : List Char} (h : form.closer <+: text) :
    atClose form text = true := by
  unfold atClose
  rw [List.isPrefixOf_iff_prefix.mpr h, Bool.true_or]

end Machine

-- ── passages ─────────────────────────────────────────────────────────────────────

namespace Scanner

variable {γ : Type} [Grammar γ] {s t u : Scanner γ} {a b : List Char} {v w : List Lexeme}

/-- The first `n` scans lead to `t`, over the given text and the given tokens. -/
structure PassesIn (n : Nat) (s : Scanner γ) (text : List Char) (words : List Lexeme)
    (t : Scanner γ) : Prop where
  leads : s.after n = t
  goesOn : ∀ i < n, s.eventAt i ≠ .finished
  rest : s.reader.rest = text ++ t.reader.rest
  words : (s.lexemesUpTo n).filter (·.kind != .spacing) = words

/-- Some scans lead to `t`, over the given text and the given tokens. -/
def Passes (s : Scanner γ) (text : List Char) (words : List Lexeme) (t : Scanner γ) : Prop :=
  ∃ n, PassesIn n s text words t

theorem Passes.refl (s : Scanner γ) : s.Passes [] [] s :=
  ⟨0, rfl, nofun, rfl, rfl⟩

/-- One passage behind another. -/
theorem PassesIn.trans {n k : Nat} (h : PassesIn n s a v t) (h' : PassesIn k t b w u) :
    PassesIn (n + k) s (a ++ b) (v ++ w) u := by
  refine ⟨?_, fun i hi => ?_, ?_, ?_⟩
  · rw [after_add, h.leads, h'.leads]
  · rcases Nat.lt_or_ge i n with hlt | hge
    · exact h.goesOn i hlt
    · obtain ⟨d, rfl⟩ := Nat.exists_eq_add_of_le hge
      rw [eventAt_add, h.leads]
      exact h'.goesOn d (by omega)
  · rw [h.rest, h'.rest, List.append_assoc]
  · rw [lexemesUpTo_add, List.filter_append, h.words, h.leads, h'.words]

/-- The faults of a passage are those of its tokens, since no space is one. -/
theorem PassesIn.faults {n : Nat} (h : PassesIn n s a v t) :
    (s.lexemesUpTo n).filterMap Lexeme.fault? = v.filterMap Lexeme.fault? := by
  rw [← h.words, List.filterMap_filter]
  congr 1
  funext l
  cases hspace : l.kind != .spacing with
  | true => rfl
  | false =>
      rw [bne_eq_false_iff_eq] at hspace
      rw [Lexeme.fault?, hspace]
      rfl

theorem Passes.trans (h : s.Passes a v t) (h' : t.Passes b w u) :
    s.Passes (a ++ b) (v ++ w) u := by
  obtain ⟨n, h⟩ := h
  obtain ⟨k, h'⟩ := h'
  exact ⟨n + k, h.trans h'⟩

/-- A single scan that takes the text that comes next. -/
theorem passes_step (text : List Char) {event : Event} {m : Machine γ} {k : List Char}
    (hr : s.reader.rest = text ++ k)
    (hstep : s.machine.step s.reader = ⟨event, .take text.length, m⟩) (he : event ≠ .finished) :
    ∃ t, s.Passes text ((s.lexemesUpTo 1).filter (·.kind != .spacing)) t ∧ t.machine = m ∧
      t.reader.rest = k ∧ t.reader = s.reader.capture text.length := by
  obtain ⟨hreader, hmachine⟩ := after_one_of_take hstep
  have hrest : (s.after 1).reader.rest = k := by
    rw [hreader, Reader.rest_capture, hr, List.drop_left]
  refine ⟨s.after 1, ⟨1, rfl, fun i hi => ?_, ?_, rfl⟩, hmachine, hrest, hreader⟩
  · obtain rfl : i = 0 := by omega
    rw [eventAt, after_zero, event_scanHere, hstep]
    exact he
  · rw [hrest, hr]

/-- A single scan that finds a token, wherever the token starts. -/
theorem passesIn_one {kind : TokenKind} (hevent : (s.machine.step s.reader).event = .token kind)
    (hk : kind ≠ .spacing) (hr : s.reader.rest = a ++ (s.after 1).reader.rest) :
    PassesIn 1 s a [⟨kind, (s.after 1).reader.token⟩] (s.after 1) := by
  have hevent : s.eventAt 0 = .token kind := hevent
  refine ⟨rfl, fun i hi => ?_, hr, ?_⟩
  · obtain rfl : i = 0 := by omega
    rw [hevent]
    nofun
  · rw [lexemesUpTo_one, lexemeAt_of_token hevent, Option.toList_some,
      List.filter_cons_of_pos (by simpa using hk), List.filter_nil]

/-- A token of the text that comes next. -/
theorem passes_token (text : List Char) {kind : TokenKind} {m : Machine γ} {k : List Char}
    (hr : s.reader.rest = text ++ k)
    (hstep : s.machine.step s.reader = ⟨.token kind, .take text.length, m⟩)
    (hk : kind ≠ .spacing) :
    ∃ t, s.Passes text [⟨kind, text⟩] t ∧ t.machine = m ∧ t.reader.rest = k ∧
      t.reader = s.reader.capture text.length := by
  obtain ⟨hreader, hmachine⟩ := after_one_of_take hstep
  have hrest : (s.after 1).reader.rest = k := by
    rw [hreader, Reader.rest_capture, hr, List.drop_left]
  have htext : (s.after 1).reader.token = text := by
    rw [hreader, Reader.token_capture, hr, List.take_left]
  have hone := passesIn_one (a := text) (congrArg Reply.event hstep) hk (by rw [hrest, hr])
  rw [htext] at hone
  exact ⟨s.after 1, ⟨1, hone⟩, hmachine, hrest, hreader⟩

/-- Text that is no token. -/
theorem passes_text {m : Machine γ} {text k : List Char} (hr : s.reader.rest = text ++ k)
    (hstep : s.machine.step s.reader = ⟨.text, .take text.length, m⟩) :
    ∃ t, s.Passes text [] t ∧ t.machine = m ∧ t.reader.rest = k := by
  have hwords : (s.lexemesUpTo 1).filter (·.kind != .spacing) = [] := by
    have hevent : s.eventAt 0 = .text := congrArg Reply.event hstep
    rw [lexemesUpTo_one, lexemeAt, hevent]
    rfl
  obtain ⟨t, hpass, hmachine, hrest, -⟩ := passes_step text hr hstep (by rintro ⟨⟩)
  rw [hwords] at hpass
  exact ⟨t, hpass, hmachine, hrest⟩

/-- A space inside a tag. -/
theorem passes_space {c : Char} {k : List Char} (hp : s.machine.phase ≠ .literal)
    (hr : s.reader.rest = ' ' :: c :: k) (hc : isSpacing c = false) :
    ∃ t, s.Passes [' '] [] t ∧ t.machine = s.machine ∧ t.reader.rest = c :: k ∧
      t.reader = s.reader.capture 1 := by
  have hstep := Machine.step_space hp hr hc
  have hwords : (s.lexemesUpTo 1).filter (·.kind != .spacing) = [] := by
    have hevent : s.eventAt 0 = .token .spacing := congrArg Reply.event hstep
    rw [lexemesUpTo_one, lexemeAt_of_token hevent]
    rfl
  rw [← hwords]
  exact passes_step [' '] hr hstep nofun

/-- An open delimiter and the space behind it. -/
theorem passes_openTag {form : TagForm} {c : Char} {k : List Char}
    (hstep : s.machine.step s.reader = s.machine.openTag form s.reader.offset)
    (hr : s.reader.rest = form.opener ++ ' ' :: c :: k) (hc : isSpacing c = false) :
    ∃ t, s.Passes (form.opener ++ [' ']) [⟨.openDelimiter, form.opener⟩] t ∧
      t.machine = (s.machine.openTag form s.reader.offset).machine ∧ t.reader.rest = c :: k ∧
      s.reader.offset + form.opener.length < t.reader.offset := by
  have hopens : form.opener <+: s.reader.rest := by
    rw [hr]
    exact List.prefix_append ..
  obtain ⟨t, ht, hm, hrest, hreader⟩ := passes_token _ hr hstep nofun
  obtain ⟨u, hu, hm', hrest', hreader'⟩ := passes_space (by rw [hm]; nofun) hrest hc
  refine ⟨u, ht.trans hu, hm'.trans hm, hrest', ?_⟩
  have hsize : byteSize [' '] = 1 := by decide
  have hspace : [' '] <+: t.reader.rest := ⟨c :: k, hrest.symm⟩
  rw [hreader', Reader.offset_capture, show 1 = [' '].length from rfl,
    Reader.offsetAt_length hspace, hsize, hreader, offset_capture_opener hopens]
  exact Nat.lt_succ_self _

/-- An open delimiter that stands where neither a tag nor a body is open. -/
theorem passes_opener {form : TagForm} {c : Char} {k : List Char}
    (hp : s.machine.phase = .literal) (hb : s.machine.body = none)
    (hr : s.reader.rest = form.opener ++ ' ' :: c :: k) (hc : isSpacing c = false) :
    ∃ t, s.Passes (form.opener ++ [' ']) [⟨.openDelimiter, form.opener⟩] t ∧
      t.machine = (s.machine.openTag form s.reader.offset).machine ∧ t.reader.rest = c :: k ∧
      s.reader.offset + form.opener.length < t.reader.offset :=
  passes_openTag (Machine.step_opens hp hb (hr ▸ List.prefix_append ..)) hr hc

/-- The close delimiter and the space before it. -/
theorem passes_closer {form : TagForm} {ending : Bool} {m : Machine γ} {k : List Char}
    (hp : s.machine.phase ≠ .literal) (hr : s.reader.rest = ' ' :: (form.closer ++ k))
    (hstep : ∀ r : Reader, form.closer <+: r.rest → s.machine.step r = m.close ending r.rest)
    (hf : m.tag.form = form) (hb : m.brackets.isEmpty = true) :
    ∃ t, s.Passes (' ' :: form.closer)
        [⟨if ending then .endDelimiter else .closeDelimiter, form.closer⟩] t ∧
      t.machine = m.leaveTag ∧ t.reader.rest = k := by
  obtain ⟨c, cs, hcloser, hspacing⟩ :
      ∃ c cs, form.closer = c :: cs ∧ isSpacing c = false := by
    cases form <;> exact ⟨_, _, rfl, rfl⟩
  obtain ⟨t, ht, hm, hrest, -⟩ := passes_space hp (by rw [hr, hcloser]; rfl) hspacing
  have hrest : t.reader.rest = form.closer ++ k := by rw [hrest, hcloser]; rfl
  have hpre : form.closer <+: t.reader.rest := ⟨k, hrest.symm⟩
  have hends : m.tag.form.closer <+: t.reader.rest := by
    rw [hf]
    exact hpre
  have hclose := Machine.close_closer ending hb hends
  rw [hf, ← hstep _ hpre, ← hm] at hclose
  obtain ⟨u, hu, hm', hrest', -⟩ := passes_token _ hrest hclose (by cases ending <;> nofun)
  exact ⟨u, ht.trans hu, hm', hrest'⟩

end Scanner

-- ── whole documents ──────────────────────────────────────────────────────────────

/-- The tokens of a document apart from spaces, each with its text. -/
def Lexed.words (lexed : Lexed) (d : Document) : List (TokenKind × Option (List Char)) :=
  (lexed.tokens.filter (·.kind != .spacing)).map fun t => (t.kind, t.text? d)

/-- What a whole document is passed over with is what is found in it. -/
structure FindsWords {γ : Type} [Grammar γ] (source : String) (grammar : γ) (words : List Lexeme) :
    Prop where
  tokens : (tokenize source grammar).words (.ofString source) =
    words.map fun l => (l.kind, some l.text)
  /-- None of the other tokens is a fault. -/
  faults : (∀ l ∈ words, l.kind.fault? = none) → (tokenize source grammar).faults = []

/-- Any kind of token but spaces is found as often as it is passed over. -/
theorem FindsWords.count {γ : Type} [Grammar γ] {source : String} {grammar : γ}
    {words : List Lexeme} (h : FindsWords source grammar words) {kind : TokenKind}
    (hk : kind ≠ .spacing) :
    (tokenize source grammar).kinds.count kind = (words.map Lexeme.kind).count kind := by
  have hkinds := congrArg (List.map Prod.fst) h.tokens
  rw [Lexed.words, List.map_map, List.map_map] at hkinds
  have hfilter : (tokenize source grammar).kinds.filter (· != .spacing) =
      words.map Lexeme.kind := by
    rw [Lexed.kinds, List.filter_map]
    exact hkinds
  rw [← hfilter, List.count_filter (by simpa using hk)]

namespace Scanner

variable {γ : Type} [Grammar γ] {source : String} {grammar : γ} {t : Scanner γ} {n : Nat}
  {text : List Char} {words : List Lexeme}

/-- Behind a passage over a whole document comes the scan that finds its end. -/
theorem PassesIn.finished (h : PassesIn n (ofString source grammar) text words t)
    (hrest : t.reader.rest = []) (hp : t.machine.phase = .literal) :
    (ofString source grammar).eventAt n = .finished := by
  have hend : t.reader.atEnd = true := by rw [Reader.atEnd, hrest]; rfl
  rw [eventAt, h.leads, event_scanHere, Machine.step_atEnd (by rw [hp]; rfl) hend]

theorem PassesIn.tokenize (h : PassesIn n (ofString source grammar) text words t)
    (hrest : t.reader.rest = []) (hp : t.machine.phase = .literal) :
    TemplateScan.tokenize source grammar = ⟨(ofString source grammar).tokensUpTo n,
      (t.machine.flush (Document.ofString source).size).notices⟩ := by
  have hend : t.reader.atEnd = true := by rw [Reader.atEnd, hrest]; rfl
  have hdocument : t.reader.document = .ofString source := by
    rw [← h.leads, document_after]
    rfl
  have hsame : { t.machine with phase := .literal } = t.machine := by rw [← hp]
  rw [tokenize_of_finished (h.finished hrest hp) h.goesOn, after_succ, h.leads, machine_scanHere,
    Machine.step_atEnd (by rw [hp]; rfl) hend, hsame, hdocument]

theorem PassesIn.findsWords (h : PassesIn n (ofString source grammar) text words t)
    (hrest : t.reader.rest = []) (hp : t.machine.phase = .literal) :
    FindsWords source grammar words := by
  have htokens := h.tokenize hrest hp
  have hwords : (TemplateScan.tokenize source grammar).words (.ofString source) =
      words.map fun l => (l.kind, some l.text) := by
    have hmap := tokensUpTo_map (ofString source grammar) n
    have hfilter := congrArg (List.filter (·.1 != TokenKind.spacing)) hmap
    rw [List.filter_map, List.filter_map] at hfilter
    rw [htokens, ← h.words]
    exact hfilter
  refine ⟨hwords, fun hfaults => ?_⟩
  rw [Lexed.faults, List.filterMap_eq_nil_iff]
  intro token htoken
  cases hspace : token.kind != .spacing with
  | false =>
      rw [bne_eq_false_iff_eq] at hspace
      rw [Token.fault?, hspace]
      rfl
  | true =>
      have hmem : (token.kind, token.text? (.ofString source)) ∈
          (TemplateScan.tokenize source grammar).words (.ofString source) :=
        List.mem_map.mpr ⟨token, List.mem_filter.mpr ⟨htoken, hspace⟩, rfl⟩
      rw [hwords] at hmem
      obtain ⟨l, hl, heq⟩ := List.mem_map.mp hmem
      have hkind : l.kind = token.kind := congrArg Prod.fst heq
      rw [Token.fault?, ← hkind]
      exact hfaults l hl

end Scanner

end TemplateScan
