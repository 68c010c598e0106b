import TemplateScan.Proofs.Scan.TagSyntax

/-! # The syntax of loops — the tokens of an iteration tag

    An iteration tag names its variable, then the operator, then the collection; each of its
    modifiers is declared by the rule of the tag, and one that takes a value is followed by a colon
    and the value.  The scanner is content with any number of colons there, where the grammar wants
    a single one.

    * **`IsModifiers`** — modifiers with a single colon before each value.
    * **`IsLoopTag`** — an iteration tag, with modifiers of a given language.
    * **`IsLoopTag.modifiers_iff`** — doubled colons are all that sets the two languages apart.
    * **`loop_follows_grammar`** — an iteration tag without faults, in any run. -/

namespace TemplateScan

open Text

-- ── modifiers ────────────────────────────────────────────────────────────────────

/-- The modifiers of a loop as its rule declares them, with one colon before each value. -/
inductive IsModifiers (rule : TagRule) : List Lexeme → Prop where
  | none : IsModifiers rule []
  | flag {name : Lexeme} {w : List Lexeme} (hn : name.kind = .parameter)
      (hr : rule.parameter? name.name = some false) (hw : IsModifiers rule w) :
      IsModifiers rule (name :: w)
  | valued {name colon : Lexeme} {v w : List Lexeme} (hn : name.kind = .parameter)
      (hr : rule.parameter? name.name = some true) (hc : colon.kind = .colon)
      (hv : IsOperand .parameterValue v) (hw : IsModifiers rule w) :
      IsModifiers rule (name :: colon :: (v ++ w))

/-- Two colons follow one another. -/
def HasDoubledColon (w : List Lexeme) : Prop :=
  [.colon, .colon] <:+: w.map Lexeme.kind

theorem HasDoubledColon.behind {w : List Lexeme} (h : HasDoubledColon w) (u : List Lexeme) :
    HasDoubledColon (u ++ w) := by
  rw [HasDoubledColon, List.map_append]
  exact h.trans (List.suffix_append _ _).isInfix

theorem HasDoubledColon.before {w : List Lexeme} (h : HasDoubledColon w) (u : List Lexeme) :
    HasDoubledColon (w ++ u) := by
  rw [HasDoubledColon, List.map_append]
  exact h.trans (List.prefix_append _ _).isInfix

/-- Where no colon comes, none are doubled. -/
theorem HasDoubledColon.of_append {u w : List Lexeme} (h : HasDoubledColon (u ++ w))
    (hu : ∀ l ∈ u, l.kind ≠ .colon) : HasDoubledColon w := by
  induction u with
  | nil => exact h
  | cons l u ih =>
      obtain ⟨hl, hu⟩ := List.forall_mem_cons.mp hu
      refine ih ?_ hu
      rw [HasDoubledColon, List.cons_append, List.map_cons, List.infix_cons_iff] at h
      rcases h with hhere | hlater
      · exact absurd (List.cons_prefix_cons.mp hhere).1.symm hl
      · exact hlater

theorem not_hasDoubledColon_nil : ¬ HasDoubledColon [] := by
  rintro ⟨u, v, h⟩
  simp at h

theorem Maybe.kind_ne_colon {kind : TokenKind} {w : List Lexeme} (h : Maybe kind w)
    (hk : kind ≠ .colon) : ∀ l ∈ w, l.kind ≠ .colon := by
  rcases h with rfl | ⟨l, rfl, hl⟩
  · nofun
  · exact List.forall_mem_singleton.mpr (hl ▸ hk)

theorem IsPath.kind_ne_colon {p : List Lexeme} (h : IsPath p) : ∀ l ∈ p, l.kind ≠ .colon := by
  induction h with
  | nil => nofun
  | property hd hn _ ih =>
      simp only [List.forall_mem_cons, hd, hn]
      exact ⟨nofun, nofun, ih⟩
  | key hb hk hc _ ih =>
      simp only [List.forall_mem_cons, hb, hc]
      refine ⟨nofun, ?_, nofun, ih⟩
      rcases hk with hk | hk <;> rw [hk] <;> nofun
  | path hb hh _ hc _ ihp ihw =>
      simp only [List.forall_mem_cons, List.forall_mem_append, hb, hc]
      refine ⟨nofun, ?_, ihp, nofun, ihw⟩
      rcases hh with hh | hh <;> rw [hh] <;> nofun

theorem IsOperand.kind_ne_colon {kind : TokenKind} {v : List Lexeme} (h : IsOperand kind v)
    (hk : kind ≠ .colon) : ∀ l ∈ v, l.kind ≠ .colon := by
  cases h with
  | plain hl => exact List.forall_mem_singleton.mpr (hl ▸ hk)
  | path hl _ hp => exact List.forall_mem_cons.mpr ⟨hl ▸ hk, hp.kind_ne_colon⟩

theorem IsOperand.ne_nil {kind : TokenKind} {v : List Lexeme} (h : IsOperand kind v) : v ≠ [] := by
  cases h <;> exact List.cons_ne_nil _ _

/-- Modifiers with one colon before each value have no doubled colons, whatever follows. -/
theorem IsModifiers.not_hasDoubledColon {rule : TagRule} {w u : List Lexeme}
    (h : IsModifiers rule w) (hu : ∀ l ∈ u, l.kind ≠ .colon) : ¬ HasDoubledColon (w ++ u) := by
  induction h with
  | none =>
      intro hdouble
      rw [List.nil_append, ← List.append_nil u] at hdouble
      exact not_hasDoubledColon_nil (hdouble.of_append hu)
  | @flag name w hn _ _ ih =>
      intro hdouble
      refine ih (hdouble.of_append (u := [name]) ?_)
      exact List.forall_mem_singleton.mpr (by rw [hn]; nofun)
  | @valued name colon v w hn _ hc hv _ ih =>
      intro hdouble
      have hvalue := hv.kind_ne_colon nofun
      have hcolon : HasDoubledColon (colon :: (v ++ (w ++ u))) := by
        rw [← List.append_assoc]
        exact hdouble.of_append (u := [name]) (List.forall_mem_singleton.mpr (by rw [hn]; nofun))
      rw [HasDoubledColon, List.map_cons, List.infix_cons_iff] at hcolon
      rcases hcolon with hhere | hlater
      · -- what stands behind the colon is the value
        obtain ⟨l, v, rfl⟩ := List.exists_cons_of_ne_nil hv.ne_nil
        have hsecond := (List.cons_prefix_cons.mp hhere).2
        exact hvalue l List.mem_cons_self (List.cons_prefix_cons.mp hsecond).1.symm
      · exact ih (HasDoubledColon.of_append (u := v) hlater hvalue)

/-- Modifiers without doubled colons have one colon before each value. -/
theorem IsParameters.modifiers {rule : TagRule} {w : List Lexeme} (h : IsParameters rule w)
    (hw : ¬ HasDoubledColon w) : IsModifiers rule w := by
  induction h with
  | none => exact .none
  | @flag name w hn hr _ ih =>
      exact .flag hn hr (ih fun hdouble => hw (hdouble.behind [name]))
  | @valued name colons v w hn hr hne hc hv _ ih =>
      cases colons with
      | nil => exact absurd rfl hne
      | cons colon more =>
          cases more with
          | nil =>
              show IsModifiers rule (name :: colon :: (v ++ w))
              refine .valued hn hr (hc colon List.mem_cons_self) hv (ih fun hdouble => hw ?_)
              simpa using hdouble.behind (name :: colon :: v)
          | cons another more =>
              -- the second colon stands right behind the first one
              have hkinds : [colon, another].map Lexeme.kind = [.colon, .colon] := by
                simp [hc]
              have hdouble : HasDoubledColon [colon, another] := ⟨[], [], hkinds.symm⟩
              exact absurd ((hdouble.before (more ++ (v ++ w))).behind [name]) hw

-- ── iteration tags ───────────────────────────────────────────────────────────────

/-- An iteration tag of the dialect from its open delimiter to the delimiter that closes it, with
    modifiers of the given language. -/
inductive IsLoopTag (dialect : Dialect) (modifiers : TagRule → List Lexeme → Prop) :
    List Lexeme → Prop where
  | intro {opener name element operator : Lexeme} {rule : TagRule}
      {dash collection w close : List Lexeme} (ho : opener.kind = .openDelimiter)
      (ht : opener.text = TagForm.statement.opener) (hd : Maybe .trimLeft dash)
      (hn : name.kind = .iteration) (hr : dialect.tags.get? name.name = some rule)
      (hk : rule.kind = .iteration) (hv : element.kind = .loopVariable)
      (hi : operator.kind = .loopOperator) (hc : IsOperand .collection collection)
      (hw : modifiers rule w) (he : IsClose .closeDelimiter close) :
      IsLoopTag dialect modifiers
        (opener :: (dash ++ name :: element :: operator :: (collection ++ (w ++ close))))

/-- The first token behind the open delimiter and its trim dash. -/
def tagName? (w : List Lexeme) : Option Lexeme :=
  (w.dropWhile fun l => l.kind == .openDelimiter || l.kind == .trimLeft).head?

variable {dialect : Dialect} {form : TagForm} {opener name : Lexeme} {dash w : List Lexeme}

/-- What begins the inside of a tag is its name. -/
theorem tagName?_eq (ho : opener.kind = .openDelimiter) (hd : Maybe .trimLeft dash)
    (hopen : name.kind ≠ .openDelimiter) (htrim : name.kind ≠ .trimLeft) :
    tagName? (opener :: (dash ++ name :: w)) = some name := by
  have hname : tagName? (name :: w) = some name := by
    rw [tagName?, List.dropWhile_cons_of_neg (by simp [hopen, htrim])]
    rfl
  rw [tagName?, List.dropWhile_cons_of_pos (by simp [ho])]
  rcases hd with rfl | ⟨l, rfl, hl⟩
  · exact hname
  · rw [List.singleton_append, List.dropWhile_cons_of_pos (by simp [hl])]
    exact hname

/-- The inside of a tag begins with a token that is neither an open delimiter nor a dash. -/
theorem IsInner.exists_name (h : IsInner dialect form w) :
    ∃ name v, w = name :: v ∧ name.kind ≠ .openDelimiter ∧ name.kind ≠ .trimLeft := by
  cases h with
  | @output mark v hm _ => exact ⟨mark, v, rfl, by rw [hm]; nofun, by rw [hm]; nofun⟩
  | @ending name v hn _ => exact ⟨name, v, rfl, by rw [hn]; nofun, by rw [hn]; nofun⟩
  | statement hw =>
      obtain ⟨u, v, rfl, hu, -⟩ := hw
      cases hu with
      | @note text hk _ => exact ⟨text, v, rfl, by rw [hk]; nofun, by rw [hk]; nofun⟩
      | @unknown name u hk _ _ => exact ⟨name, u ++ v, rfl, by rw [hk]; nofun, by rw [hk]; nofun⟩
      | @known name rule u _ hcall =>
          refine ⟨name, u ++ v, rfl, ?_, ?_⟩ <;> intro hk <;> rw [hk] at hcall <;> cases hcall

/-- Behind the name of an iteration tag comes a loop. -/
theorem IsInner.loop (h : IsInner dialect form (name :: w)) (hn : name.kind = .iteration) :
    form = .statement ∧ ∃ rule, dialect.tags.get? name.name = some rule ∧
      rule.kind = .iteration ∧ Then (IsLoop rule) (IsClose .closeDelimiter) w := by
  cases h with
  | output hm _ => exact nomatch hn.symm.trans hm
  | ending hk _ => exact nomatch hn.symm.trans hk
  | statement hw =>
      obtain ⟨u, v, heq, hu, hv⟩ := hw
      refine ⟨rfl, ?_⟩
      cases hu with
      | note hk _ =>
          obtain ⟨rfl, -⟩ := List.cons.inj heq
          exact nomatch hn.symm.trans hk
      | unknown hk _ _ =>
          obtain ⟨rfl, -⟩ := List.cons.inj heq
          exact nomatch hn.symm.trans hk
      | @known _ rule u hr hcall =>
          obtain ⟨rfl, rfl⟩ := List.cons.inj heq
          rw [hn] at hcall
          cases hcall with
          | iteration _ hk hloop => exact ⟨rule, hr, hk, u, v, rfl, hloop, hv⟩

/-- A tag whose name is that of an iteration is an iteration tag. -/
theorem isLoopTag_of_inner (ho : opener.kind = .openDelimiter) (ht : opener.text = form.opener)
    (h : Then (Maybe .trimLeft) (IsInner dialect form) w)
    (hname : tagName? (opener :: w) = some name) (hn : name.kind = .iteration) :
    IsLoopTag dialect IsParameters (opener :: w) := by
  obtain ⟨dash, inner, rfl, hd, hinner⟩ := h
  obtain ⟨first, v, rfl, hopen, htrim⟩ := hinner.exists_name
  obtain rfl : first = name := by
    rw [tagName?_eq ho hd hopen htrim] at hname
    exact Option.some.inj hname
  obtain ⟨rfl, rule, hr, hk, u, close, rfl, hloop, hclose⟩ := hinner.loop hn
  cases hloop with
  | @intro element operator collection parameters hv hi hc hw =>
      have htag : IsLoopTag dialect IsParameters (opener :: (dash ++ first :: element ::
          operator :: (collection ++ (parameters ++ close)))) :=
        .intro ho ht hd hn hr hk hv hi hc hw hclose
      simpa using htag

theorem IsClose.kind_ne_colon {closing : TokenKind} (h : IsClose closing w)
    (hk : closing ≠ .colon) : ∀ l ∈ w, l.kind ≠ .colon := by
  obtain ⟨u, v, rfl, hu, l, rfl, hl⟩ := h
  exact List.forall_mem_append.mpr
    ⟨hu.kind_ne_colon nofun, List.forall_mem_singleton.mpr (hl ▸ hk)⟩

theorem IsLoopTag.not_hasDoubledColon (h : IsLoopTag dialect IsModifiers w) :
    ¬ HasDoubledColon w := by
  intro hdouble
  cases h with
  | @intro opener name element operator rule dash collection modifiers close
      ho ht hd hn hr hk hv hi hc hw he =>
      have hfront : ∀ l ∈ opener :: (dash ++ name :: element :: operator :: collection),
          l.kind ≠ .colon := by
        simp only [List.forall_mem_cons, List.forall_mem_append, ho, hn, hv, hi]
        exact ⟨nofun, hd.kind_ne_colon nofun, nofun, nofun, nofun, hc.kind_ne_colon nofun⟩
      refine hw.not_hasDoubledColon (he.kind_ne_colon nofun) ?_
      exact HasDoubledColon.of_append (by simpa using hdouble) hfront

/-- The modifiers of an iteration tag have one colon before each value when no colon is doubled in
    the tag. -/
theorem IsLoopTag.modifiers_iff (h : IsLoopTag dialect IsParameters w) :
    IsLoopTag dialect IsModifiers w ↔ ¬ HasDoubledColon w := by
  refine ⟨IsLoopTag.not_hasDoubledColon, fun hsingle => ?_⟩
  cases h with
  | @intro opener name element operator rule dash collection parameters close
      ho ht hd hn hr hk hv hi hc hw he =>
      refine .intro ho ht hd hn hr hk hv hi hc (hw.modifiers fun hdouble => hsingle ?_) he
      simpa using (hdouble.before close).behind
        (opener :: (dash ++ name :: element :: operator :: collection))

-- ── runs ─────────────────────────────────────────────────────────────────────────

/-- What may follow the open delimiter of a tag is the inside of a tag, with the trim dash or
    without. -/
theorem Machine.expected_openTag {m : Machine Lookup} {r : Reader}
    (h : (m.openTag form r.offset).machine.Expected
      ((m.openTag form r.offset).extent.apply r) w) :
    Then (Maybe .trimLeft) (IsInner m.grammar.dialect form) w := by
  have h : (if (r.capture form.opener.length).offset ≤ r.offset + form.opener.length
    then Then (Maybe .trimLeft) (IsInner m.grammar.dialect form)
    else IsInner m.grammar.dialect form) w := h
  split at h
  · exact h
  · exact .of_nil (Or.inl rfl) h

namespace Scanner

/-- The tokens from scan `i` to scan `j`, without the white space between them. -/
def tagWords {γ : Type} [Grammar γ] (s : Scanner γ) (i j : Nat) : List Lexeme :=
  ((s.after i).lexemesUpTo (j + 1 - i)).filter (!·.kind.isBlank)

/-- What is found first is in front of what is found behind it. -/
theorem tagWords_add {γ : Type} [Grammar γ] {s : Scanner γ} {l : Lexeme} {i k : Nat}
    (h : s.lexemeAt i = some l) (hl : l.kind.isBlank = false) :
    s.tagWords i (i + k) = l :: ((s.after (i + 1)).lexemesUpTo k).filter (!·.kind.isBlank) := by
  rw [tagWords, show i + k + 1 - i = 1 + k by omega, lexemesUpTo_add, lexemesUpTo_one,
    ← lexemeAt_add, Nat.add_zero, h, ← after_add]
  exact List.filter_cons_of_pos (by rw [hl]; rfl)

variable {source : String} {i j : Nat}

/-- Behind a delimiter that closes a tag nothing more is expected of it. -/
theorem OpensTagOf.expected_nil (h : (ofString source dialect.lookup).OpensTagOf i j)
    (hc : ((ofString source dialect.lookup).eventAt j).endsTag = true) :
    ((ofString source dialect.lookup).after (j + 1)).machine.Expected
      ((ofString source dialect.lookup).after (j + 1)).reader [] := by
  have hout : ((ofString source dialect.lookup).after (j + 1)).machine.phase = .literal :=
    (Machine.leaves_of_endsTag (h.inTag h.lt (Nat.le_refl j)).1 hc).phase_eq
  rw [Machine.Expected, hout]

/-- A tag that is closed, and in which no fault is found: its open delimiter, and the inside of a
    tag behind it. -/
theorem OpensTagOf.tagWords_eq (h : (ofString source dialect.lookup).OpensTagOf i j)
    (hc : (ofString source dialect.lookup).eventAt j = .token .closeDelimiter ∨
      (ofString source dialect.lookup).eventAt j = .token .endDelimiter)
    (hclean : ∀ k, i < k → k < j →
      ((ofString source dialect.lookup).eventAt k).fault? = none) :
    ∃ (form : TagForm) (w : List Lexeme),
      (ofString source dialect.lookup).tagWords i j = ⟨.openDelimiter, form.opener⟩ :: w ∧
        Then (Maybe .trimLeft) (IsInner dialect form) w := by
  have hends : ((ofString source dialect.lookup).eventAt j).endsTag = true ∧
      ((ofString source dialect.lookup).eventAt j).fault? = none := by
    rcases hc with hc | hc <;> rw [hc] <;> exact ⟨rfl, rfl⟩
  have hlast := h.expected_nil hends.1
  have hin {k : Nat} := h.inTag (k := k)
  have hdialect := dialect_after source dialect i
  obtain ⟨form, hpre, hstep⟩ := Machine.step_eq_openTag (bodySound_after source dialect.lookup i)
    h.opens
  have hlt := h.lt
  have hopens := h.opens
  generalize ofString source dialect.lookup = s at *
  have hopen : s.lexemeAt i = some ⟨.openDelimiter, form.opener⟩ := by
    rw [lexemeAt_of_token hopens, after_succ, reader_scanHere, hstep]
    show some (Lexeme.mk _ ((s.after i).reader.capture form.opener.length).token) = _
    rw [Reader.token_capture, ← List.prefix_iff_eq_take.mp hpre]
  obtain ⟨k, rfl⟩ : ∃ k, j = i + k := Nat.exists_eq_add_of_le (Nat.le_of_lt hlt)
  have hfound := expected_lexemes (s := s.after (i + 1)) (k := k)
    (fun q hq => by
      rw [← after_add]
      exact (hin (by omega) (by omega)).1)
    (fun q hq => by
      rw [← eventAt_add]
      rcases Nat.lt_or_ge (i + 1 + q) (i + k) with hbefore | hat
      · exact hclean _ (by omega) hbefore
      · rw [show i + 1 + q = i + k by omega]
        exact hends.2)
    (by rw [after_succ, machine_scanHere, hstep]; rfl)
    (by rw [← after_add, Nat.add_right_comm]; exact hlast)
  refine ⟨form, _, tagWords_add hopen rfl, ?_⟩
  rw [after_succ, machine_scanHere, reader_scanHere, hstep] at hfound
  rw [← hdialect]
  exact Machine.expected_openTag hfound

/-- **Iteration tags follow the grammar.**  In a run from the start of any text, take any iteration
    tag that is closed and in which no fault is found: without the white space its tokens make up
    an iteration tag of the dialect.  Each of its modifiers that takes a value has a single colon
    exactly when no two colons follow one another. -/
theorem loop_follows_grammar (source : String) (dialect : Dialect) {i j : Nat} {name : Lexeme}
    (ho : (ofString source dialect.lookup).OpensTagOf i j)
    (hc : (ofString source dialect.lookup).eventAt j = .token .closeDelimiter ∨
      (ofString source dialect.lookup).eventAt j = .token .endDelimiter)
    (hclean : ∀ k, i < k → k < j →
      ((ofString source dialect.lookup).eventAt k).fault? = none)
    (hname : tagName? ((ofString source dialect.lookup).tagWords i j) = some name)
    (hn : name.kind = .iteration) :
    IsLoopTag dialect IsParameters ((ofString source dialect.lookup).tagWords i j) ∧
      (IsLoopTag dialect IsModifiers ((ofString source dialect.lookup).tagWords i j) ↔
        ¬ HasDoubledColon ((ofString source dialect.lookup).tagWords i j)) := by
  obtain ⟨form, w, hwords, hinner⟩ := ho.tagWords_eq hc hclean
  rw [hwords] at hname ⊢
  have hloop := isLoopTag_of_inner rfl rfl hinner hname hn
  exact ⟨hloop, hloop.modifiers_iff⟩

theorem loop_follows_grammar_modifiers :
    let s := ofString "\x7b%for x in a.b reversed limit: 2 -%\x7d" Dialect.standard.lookup
    s.OpensTagOf 0 19 ∧ s.eventAt 19 = .token .closeDelimiter ∧
      (∀ k, 0 < k → k < 19 → (s.eventAt k).fault? = none) ∧
      tagName? (s.tagWords 0 19) = some ⟨.iteration, "for".toList⟩ ∧
      (s.tagWords 0 19).map Lexeme.kind = [.openDelimiter, .iteration, .loopVariable,
        .loopOperator, .collection, .dot, .property, .parameter, .parameter, .colon,
        .parameterValue, .trimRight, .closeDelimiter] ∧
      IsLoopTag Dialect.standard IsModifiers (s.tagWords 0 19) := by
  intro s
  obtain ⟨hopen, hinside, hclose, hclean, hname, hkinds⟩ :
      s.eventAt 0 = .token .openDelimiter ∧
      (∀ k < 19, 0 < k → s.eventAt k ≠ .token .openDelimiter ∧ (s.eventAt k).endsTag = false) ∧
      s.eventAt 19 = .token .closeDelimiter ∧
      (∀ k < 19, 0 < k → (s.eventAt k).fault? = none) ∧
      tagName? (s.tagWords 0 19) = some ⟨.iteration, "for".toList⟩ ∧
      (s.tagWords 0 19).map Lexeme.kind = [.openDelimiter, .iteration, .loopVariable,
        .loopOperator, .collection, .dot, .property, .parameter, .parameter, .colon,
        .parameterValue, .trimRight, .closeDelimiter] := by
    decide +kernel
  have htag : s.OpensTagOf 0 19 := ⟨by decide, hopen, fun k hk hk' => hinside k hk' hk⟩
  have hfree : ∀ k, 0 < k → k < 19 → (s.eventAt k).fault? = none :=
    fun k hk hk' => hclean k hk' hk
  have hsingle : ¬ HasDoubledColon (s.tagWords 0 19) := by
    rw [HasDoubledColon, hkinds]
    decide
  exact ⟨htag, hclose, hfree, hname, hkinds,
    (loop_follows_grammar _ _ htag (Or.inl hclose) hfree hname rfl).2.mpr hsingle⟩

/-- Several colons may stand before the value of a modifier, and nothing is reported. -/
theorem modifier_of_doubled_colon :
    let s := ofString "\x7b%for x in y limit::5%\x7d" Dialect.standard.lookup
    s.OpensTagOf 0 13 ∧ s.eventAt 13 = .token .closeDelimiter ∧
      (∀ k < 13, 0 < k → (s.eventAt k).fault? = none) ∧
      tagName? (s.tagWords 0 13) = some ⟨.iteration, "for".toList⟩ ∧
      ¬ IsLoopTag Dialect.standard IsModifiers (s.tagWords 0 13) := by
  intro s
  obtain ⟨hopen, hinside, hclose, hclean, hname, hkinds⟩ :
      s.eventAt 0 = .token .openDelimiter ∧
      (∀ k < 13, 0 < k → s.eventAt k ≠ .token .openDelimiter ∧ (s.eventAt k).endsTag = false) ∧
      s.eventAt 13 = .token .closeDelimiter ∧
      (∀ k < 13, 0 < k → (s.eventAt k).fault? = none) ∧
      tagName? (s.tagWords 0 13) = some ⟨.iteration, "for".toList⟩ ∧
      (s.tagWords 0 13).map Lexeme.kind = [.openDelimiter, .iteration, .loopVariable,
        .loopOperator, .collection, .parameter, .colon, .colon, .parameterValue,
        .closeDelimiter] := by
    decide +kernel
  refine ⟨⟨by decide, hopen, fun k hk hk' => hinside k hk' hk⟩, hclose, hclean, hname,
    fun hstrict => hstrict.not_hasDoubledColon ?_⟩
  rw [HasDoubledColon, hkinds]
  decide

end Scanner

end TemplateScan
