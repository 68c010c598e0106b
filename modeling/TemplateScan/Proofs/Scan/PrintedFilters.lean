import TemplateScan.Proofs.Scan.PrintedPaths
import TemplateScan.Proofs.Scan.Recognizer

/-! # Printed filters — a list of filters written down is scanned back

    A value is passed over with its tokens, and then it depends on what comes next how things go on.
    Behind an argument that may be a comma: the argument reached in the rule of the filter then
    moves on with the comma, so that each value is compared with the argument declared in its place.

    * **`WalksValue`** — a value; **`walks_value`**.
    * **`PassesValue`** — a value where no object is known; **`passes_argument`**.
    * **`passes_arguments`** — arguments with commas between them.
    * **`passes_call`** — a filter with its arguments.
    * **`passes_calls`** — filters one behind another. -/

namespace TemplateScan

open Text

-- ── reading values ───────────────────────────────────────────────────────────────

/-- A number is read as nothing else. -/
theorem Numeral.read (n : Numeral) (stops : List (List Char)) {k : List Char}
    (hk : continuesNumber k = false) :
    quoted? stops (n.text ++ k) = none ∧ number? (n.text ++ k) = some (n.form, n.text) :=
  ⟨quoted?_of_number n.isNumber, number?_append n.isNumber hk⟩

/-- A name is read as neither a string nor a number. -/
theorem read_of_identifier (stops : List (List Char)) {text name : List Char}
    (h : identifier? text = some name) : quoted? stops text = none ∧ number? text = none := by
  obtain ⟨c, cs, rfl, -, hquote, hdigit, hdash⟩ := startsValue_of_identifier h
  exact ⟨quoted?_of_head hquote, number?_of_head hdigit hdash⟩

/-- Where a value is printed, a value begins. -/
theorem Value.begins (v : Value) {k : List Char} (hk : continuesIdentifier k = false) :
    BeginsValue (v.print ++ k) := by
  cases v with
  | string s => exact .of_start (by rw [startsValue, s.isQuote, Bool.true_or, Bool.true_or])
  | number n => exact .of_number n.isNumber
  | boolean b => exact Ident.begins ⟨_, Machine.isName_boolText b⟩ hk
  | path head _ p =>
      rw [Value.print, List.append_assoc]
      exact head.begins (Scanner.continuesIdentifier_print p hk)

-- ── behind a value ───────────────────────────────────────────────────────────────

namespace Machine

variable {m m' : Machine Lookup} {r : Reader} {resume : Resume} {c : Char} {tail : List Char}

/-- A value has just been taken, perhaps with a path. -/
def AfterValue (m : Machine Lookup) (resume : Resume) : Prop :=
  m.phase = resume.phase ∨ m.phase = .path .member resume

theorem AfterValue.phase_ne (h : m.AfterValue resume) : m.phase ≠ .literal := by
  rcases h with h | h <;> rw [h] <;> cases resume <;> rintro ⟨⟩

/-- Where neither the path nor a bracket goes on, the step is left to what follows the value; behind
    a path the object reached is forgotten. -/
theorem AfterValue.exists_step (h : m.AfterValue resume) (hb : m.brackets.isEmpty = true) :
    ∃ object, (object = none ∨ object = m.grammar.object) ∧
      ∀ {r : Reader} {c : Char} {tail : List Char}, r.rest = c :: tail → isTagBlank c = false →
        c ∉ ['.', '[', ']'] →
        m.step r = (m.reaching m.grammar.expect object).stepResume resume r.rest := by
  rcases h with h | h
  · refine ⟨m.grammar.object, Or.inr rfl, fun hr hblank _ => ?_⟩
    have hliteral : m.phase ≠ .literal := by rw [h]; cases resume <;> rintro ⟨⟩
    rw [step_eq_stepPhase hliteral (by rw [hr]; rfl) hblank, stepPhase, h]
    cases resume <;> rfl
  · refine ⟨none, Or.inl rfl, fun {r c tail} hr hblank hc => ?_⟩
    simp only [List.mem_cons, List.not_mem_nil, or_false, not_or] at hc
    rw [step_eq_stepPhase (by rw [h]; rintro ⟨⟩) (by rw [hr]; rfl) hblank, stepPhase, h]
    show m.stepMember resume r = _
    rw [stepMember_other hr hc.1 hc.2.1, hb, if_neg (by decide),
      if_neg (by rw [hr]; simpa using hc.2.2), releaseObject_eq]

theorem AfterValue.step (h : m.AfterValue resume) (hu : m.Unchecked)
    (hb : m.brackets.isEmpty = true) (hr : r.rest = c :: tail) (hblank : isTagBlank c = false)
    (hc : c ∉ ['.', '[', ']']) : m.step r = m.stepResume resume r.rest := by
  obtain ⟨object, hobject, hstep⟩ := h.exists_step hb
  obtain rfl : object = none := by
    rcases hobject with h | h
    · exact h
    · rw [h, hu.object]
  rw [hstep hr hblank hc, hu.reaching]
  rfl

/-- Where a value begins, it decides the step. -/
theorem step_expectValue {missing : Fault} {bare : TokenKind} (hp : m.phase ≠ .literal)
    (hvalue : m.stepPhase r = m.expectValue missing bare resume r.rest)
    (hbegins : BeginsValue r.rest) :
    m.step r = (m.value? bare resume r.rest).getD (m.unexpected r.rest) := by
  obtain ⟨c, cs, hhead, hblank, -⟩ := hbegins.head
  rw [step_eq_stepPhase (c := c) hp (by rw [hhead]; rfl) hblank, hvalue, expectValue,
    hbegins.not_close, if_neg Bool.false_ne_true]

theorem value?_number (n : Numeral) {bare : TokenKind} {k : List Char}
    (hk : continuesNumber k = false) :
    m.value? bare resume (n.text ++ k) = some (m.emit .number n.text.length resume.phase) := by
  obtain ⟨hquoted, hnumber⟩ := n.read m.tag.form.stringStops hk
  rw [value?, hquoted]
  dsimp only
  rw [hnumber]

theorem value?_boolean (b : Bool) {bare : TokenKind} {k : List Char}
    (hk : continuesIdentifier k = false) :
    m.value? bare resume (boolText b ++ k) =
      some (m.emit .boolean (boolText b).length resume.phase) := by
  have hname := identifier?_append (isName_boolText b) hk
  obtain ⟨hquoted, hnumber⟩ := read_of_identifier m.tag.form.stringStops hname
  rw [value?, hquoted]
  dsimp only
  rw [hnumber]
  dsimp only
  rw [boolean?_boolText b hk]

theorem value?_name {bare : TokenKind} {text name : List Char} (h : identifier? text = some name)
    (hn : name ∉ booleans) :
    m.value? bare resume text = some (m.beginPath name (m.referenceKind name bare) resume) := by
  obtain ⟨hquoted, hnumber⟩ := read_of_identifier m.tag.form.stringStops h
  rw [value?, hquoted]
  dsimp only
  rw [hnumber]
  dsimp only
  rw [boolean?_of_name h hn, h]
  rfl

end Machine

namespace Scanner

open Machine (Unchecked)

variable {s : Scanner Lookup} {resume : Resume} {k : List Char}

/-- The text is passed over with the given tokens, and was a value; an object may have been reached,
    of which only what is given is known. -/
def WalksValue (s : Scanner Lookup) (text : List Char) (words : List Lexeme) (known : Option Shape)
    (resume : Resume) (k : List Char) : Prop :=
  ∃ t, s.Passes text words t ∧ t.reader.rest = k ∧ t.machine.AfterValue resume ∧
    ∃ expect object phase, object.map Schema.shape = known ∧
      t.machine = { s.machine.reaching expect object with phase }

theorem WalksValue.of_token {text : List Char} {kind : TokenKind} (hr : s.reader.rest = text ++ k)
    (hstep : s.machine.step s.reader = s.machine.emit kind text.length resume.phase)
    (hk : kind ≠ .spacing) : s.WalksValue text [⟨kind, text⟩] s.machine.known resume k := by
  obtain ⟨t, ht, hm, hrest, -⟩ := passes_token _ hr hstep hk
  exact ⟨t, ht, hrest, by rw [hm]; exact Or.inl rfl, s.machine.grammar.expect,
    s.machine.grammar.object, resume.phase, rfl, hm⟩

/-- A name and the path behind it are walked along from what is known of the name. -/
theorem WalksValue.of_path {head : Ident} {p : Path} {kind : TokenKind}
    (hf : s.machine.tag.form = .output) (hr : s.reader.rest = head.text ++ (p.print ++ k))
    (hstep : s.machine.step s.reader = s.machine.beginPath head.text kind resume)
    (hk : kind ≠ .spacing) (hend : continuesIdentifier k = false) :
    s.WalksValue (head.text ++ p.print)
      (⟨kind, head.text⟩ :: p.checked s.machine.grammar.dialect.objects
        (head.shapeIn s.machine.grammar.dialect.objects))
      (p.knownAtEnd (head.shapeIn s.machine.grammar.dialect.objects)) resume k := by
  rw [Machine.beginPath_eq] at hstep
  obtain ⟨t, ht, hm, hrest, -⟩ := passes_token _ hr hstep hk
  obtain ⟨u, hpass, hrest', expect, object, hobject, hm'⟩ := walks_path p (by rw [hm]; exact hf)
    (by rw [hm]) hrest hend
  rw [hm] at hpass hobject hm'
  exact ⟨u, ht.trans hpass, hrest', by rw [hm']; exact Or.inr rfl, expect, object, _, hobject, hm'⟩

/-- The text is passed over with the given tokens, and was a value. -/
def PassesValue (s : Scanner Lookup) (text : List Char) (words : List Lexeme) (resume : Resume)
    (k : List Char) : Prop :=
  ∃ t, s.Passes text words t ∧ t.reader.rest = k ∧ t.machine.AfterValue resume ∧
    ∃ expect phase, t.machine = { s.machine.expecting expect with phase }

/-- Where no object is known, none is reached. -/
theorem WalksValue.passesValue {text : List Char} {words : List Lexeme}
    (h : s.WalksValue text words none resume k) (hu : s.machine.Unchecked) :
    s.PassesValue text words resume k := by
  obtain ⟨t, ht, hrest, hafter, expect, object, phase, hobject, hm⟩ := h
  rw [Option.map_eq_none_iff] at hobject
  exact ⟨t, ht, hrest, hafter, expect, phase, by rw [hm, hobject, hu.reaching]⟩

theorem PassesValue.of_token {text : List Char} {kind : TokenKind}
    (hr : s.reader.rest = text ++ k)
    (hstep : s.machine.step s.reader = s.machine.emit kind text.length resume.phase)
    (hk : kind ≠ .spacing) : s.PassesValue text [⟨kind, text⟩] resume k := by
  obtain ⟨t, ht, hm, hrest, -⟩ := passes_token _ hr hstep hk
  exact ⟨t, ht, hrest, by rw [hm]; exact Or.inl rfl, s.machine.grammar.expect, resume.phase, hm⟩

theorem PassesValue.of_name {name : Ident} {kind : TokenKind} (hu : s.machine.Unchecked)
    (hr : s.reader.rest = name.text ++ k)
    (hstep : s.machine.step s.reader = s.machine.beginPath name.text kind resume)
    (hk : kind ≠ .spacing) : s.PassesValue name.text [⟨kind, name.text⟩] resume k := by
  rw [hu.beginPath] at hstep
  obtain ⟨t, ht, hm, hrest, -⟩ := passes_token _ hr hstep hk
  exact ⟨t, ht, hrest, by rw [hm]; exact Or.inr rfl, .object, _, hm⟩

theorem PassesValue.of_path {head : Ident} {p : Path} {kind : TokenKind} (hu : s.machine.Unchecked)
    (hf : s.machine.tag.form = .output) (hr : s.reader.rest = head.text ++ (p.print ++ k))
    (hstep : s.machine.step s.reader = s.machine.beginPath head.text kind resume)
    (hk : kind ≠ .spacing) (hend : continuesIdentifier k = false) :
    s.PassesValue (head.text ++ p.print) (⟨kind, head.text⟩ :: p.lexemes) resume k := by
  have hnone : head.shapeIn ∅ = none := rfl
  have hwalk := WalksValue.of_path hf hr hstep hk hend
  rw [hu.none_known, hnone, p.checked_empty, p.knownAtEnd_none] at hwalk
  exact hwalk.passesValue hu

/-- **A value is passed over** where one is expected; the names reported are those of its walk. -/
theorem walks_value (v : Value) {missing : Fault} {bare : TokenKind}
    (hf : s.machine.tag.form = .output) (hp : s.machine.phase ≠ .literal)
    (hvalue : s.machine.stepPhase s.reader =
      s.machine.expectValue missing bare resume s.reader.rest)
    (hbare : bare ≠ .spacing) (hr : s.reader.rest = v.print ++ k) (hk : EndsValue k) :
    s.WalksValue v.print (v.checked s.machine.grammar.dialect.objects bare)
      (v.knownAtEnd s.machine.grammar.dialect.objects s.machine.known) resume k := by
  have hstep := Machine.step_expectValue hp hvalue (hr ▸ v.begins hk.name)
  cases v with
  | string string =>
      refine .of_token hr ?_ (by rintro ⟨⟩)
      rw [hstep, hr, Machine.value?, hf, Value.print, string.read]
      rfl
  | number number =>
      refine .of_token hr ?_ (by rintro ⟨⟩)
      rw [hstep, hr, Value.print, Machine.value?_number number hk.number]
      rfl
  | boolean b =>
      refine .of_token hr ?_ (by rintro ⟨⟩)
      rw [hstep, hr, Value.print, Machine.value?_boolean b hk.name]
      rfl
  | path head hnamed p =>
      rw [Value.print, List.append_assoc] at hr
      have hkind : head.kindIn s.machine.grammar.dialect.objects bare ≠ .spacing := by
        rw [Ident.kindIn]
        split
        · rintro ⟨⟩
        · exact hbare
      refine .of_path hf hr ?_ hkind hk.name
      have hname := identifier?_append head.isName (continuesIdentifier_print p hk.name)
      rw [hstep, hr, Machine.value?_name hname hnamed, Machine.referenceKind_eq_kindIn]
      rfl

/-- Where an argument is expected and a value begins, the value is read as one. -/
theorem step_argument {m : Machine Lookup} {r : Reader} {rule : ArgumentRule}
    {left : List ArgumentRule} (hp : m.phase = .filter .argument)
    (hleft : m.grammar.argumentsLeft = rule :: left) (hkind : rule.kind = .positional)
    (hbegins : BeginsValue r.rest) : m.step r = m.stepArgumentValue r.rest := by
  obtain ⟨c, cs, hhead, hblank, -⟩ := hbegins.head
  have hargument : m.grammar.argument? = some rule := by
    rw [Lookup.argument?_eq, hleft]
    rfl
  have hpositional : Grammar.argumentKind? m.grammar = some .positional := by
    show m.grammar.argument?.map (·.kind) = _
    rw [hargument, Option.map_some, hkind]
  rw [Machine.step_eq_stepPhase (c := c) (by rw [hp]; rintro ⟨⟩) (by rw [hhead]; rfl) hblank,
    Machine.stepPhase, hp]
  show m.stepArgument r.rest = _
  rw [Machine.stepArgument, hpositional]

/-- What the current rule accepts. -/
theorem accepts_eq {m : Machine Lookup} {rule : ArgumentRule} {left : List ArgumentRule}
    (hleft : m.grammar.argumentsLeft = rule :: left) (type : ValueType) :
    Grammar.accepts m.grammar type = rule.accepts type := by
  show m.grammar.argument?.any (·.accepts type) = _
  rw [Lookup.argument?_eq, hleft, List.head?_cons, Option.any_some]

/-- A value without a path is read in full, and its type is compared with those accepted. -/
theorem stepArgumentValue_literal {m : Machine Lookup} (v : Value) (hliteral : v.isLiteral = true)
    (hf : m.tag.form = .output) (hk : EndsValue k) :
    m.stepArgumentValue (v.print ++ k) = m.acceptArgument v.type v.argumentKind v.print.length := by
  have hbegins := v.begins hk.name
  obtain ⟨c, cs, hhead, -, -, hpipe, -⟩ := hbegins.head
  rw [Machine.stepArgumentValue, hbegins.not_close, if_neg Bool.false_ne_true,
    if_neg (by rw [hhead]; simpa using hpipe)]
  cases v with
  | string string =>
      rw [hf, Value.print, string.read]
      rfl
  | number number =>
      obtain ⟨hquoted, hnumber⟩ := number.read m.tag.form.stringStops hk.number
      rw [Value.print, hquoted]
      dsimp only
      rw [hnumber, Value.type, Value.argumentKind, Numeral.argumentKind]
      cases number.form <;> rfl
  | boolean b =>
      have hname := identifier?_append (Machine.isName_boolText b) hk.name
      obtain ⟨hquoted, hnumber⟩ := read_of_identifier m.tag.form.stringStops hname
      rw [Value.print, hquoted]
      dsimp only
      rw [hnumber]
      dsimp only
      rw [Machine.boolean?_boolText b hk.name]
      rfl
  | path _ _ _ => cases hliteral

/-- **An argument is passed over** that the current rule accepts. -/
theorem passes_argument (v : Value) {rule : ArgumentRule} {left : List ArgumentRule}
    (hu : s.machine.Unchecked) (hf : s.machine.tag.form = .output)
    (hp : s.machine.phase = .filter .argument)
    (hleft : s.machine.grammar.argumentsLeft = rule :: left) (hkind : rule.kind = .positional)
    (haccepts : rule.accepts v.type = true) (hr : s.reader.rest = v.print ++ k)
    (hk : EndsValue k) : s.PassesValue v.print v.argumentLexemes .arguments k := by
  have hbegins : BeginsValue s.reader.rest := by
    rw [hr]
    exact v.begins hk.name
  have hstep := step_argument hp hleft hkind hbegins
  have haccepts : Grammar.accepts s.machine.grammar v.type = true := by
    rw [accepts_eq hleft, haccepts]
  cases hliteral : v.isLiteral with
  | true =>
      rw [Value.argumentLexemes_of_literal hliteral]
      refine .of_token hr ?_ (Value.argumentKind_ne_spacing v)
      rw [hstep, hr, stepArgumentValue_literal v hliteral hf hk, Machine.acceptArgument,
        if_pos haccepts]
      rfl
  | false =>
      cases v with
      | path head hnamed p =>
          obtain ⟨c, cs, hhead, -, -, hpipe, -⟩ := hbegins.head
          rw [Machine.stepArgumentValue, hbegins.not_close, if_neg Bool.false_ne_true,
            if_neg (by rw [hhead]; simpa using hpipe)] at hstep
          rw [Value.print, List.append_assoc] at hr
          refine .of_path hu hf hr ?_ (by rintro ⟨⟩) hk.name
          have hname := identifier?_append head.isName (continuesIdentifier_print p hk.name)
          obtain ⟨hquoted, hnumber⟩ := read_of_identifier s.machine.tag.form.stringStops hname
          rw [hstep, hr, hquoted]
          dsimp only
          rw [hnumber]
          dsimp only
          rw [Machine.boolean?_of_name hname hnamed, hname]
          have haccepts : Grammar.accepts s.machine.grammar .reference = true := haccepts
          show s.machine.acceptReference head.text = _
          rw [Machine.acceptReference, if_pos haccepts, hu.referenceKind]
      | string _ | number _ | boolean _ => cases hliteral

-- ── lists of arguments ───────────────────────────────────────────────────────────

end Scanner

namespace Machine

variable {m m' : Machine Lookup} {r : Reader}

/-- The machine is still in the same tag: it differs in its phase and in the entries that its
    grammar has looked up. -/
structure SameTag (m m' : Machine Lookup) : Prop where
  same : m' = { m with phase := m'.phase, grammar := m'.grammar }
  dialect : m'.grammar.dialect = m.grammar.dialect
  object : m'.grammar.object = none

/-- Another phase is the same tag. -/
theorem SameTag.of_phase {phase : Phase} (h : m' = { m with phase }) (hu : m.Unchecked) :
    m.SameTag m' := by
  rw [h]
  exact ⟨rfl, rfl, hu.object⟩

/-- Going on to another argument stays in the tag. -/
theorem SameTag.nextArgument (hm : m.Unchecked) (phase : Phase) :
    m.SameTag { m.nextArgument with phase } where
  same := rfl
  dialect := dialect_nextArgument m
  object := by
    show m.grammar.nextArgument.object = none
    rw [Lookup.nextArgument]
    split <;> exact hm.object

theorem SameTag.unchecked (h : m.SameTag m') (hu : m.Unchecked) : m'.Unchecked :=
  ⟨by rw [h.dialect, hu.none_known], h.object⟩

theorem SameTag.trans {m'' : Machine Lookup} (h : m.SameTag m') (h' : m'.SameTag m'') :
    m.SameTag m'' where
  same := by
    have hsame := h'.same
    rw [h.same] at hsame
    exact hsame
  dialect := h'.dialect.trans h.dialect
  object := h'.object

/-- The machine is among the filters of an output tag, in which no bracket is open. -/
structure Filtering (m : Machine Lookup) : Prop where
  unchecked : m.Unchecked
  form : m.tag.form = .output
  settled : m.brackets.isEmpty = true

theorem SameTag.filtering (h : m.SameTag m') (hm : m.Filtering) : m'.Filtering where
  unchecked := h.unchecked hm.unchecked
  form := by rw [h.same]; exact hm.form
  settled := by rw [h.same]; exact hm.settled

/-- Where another filter or the end of the tag comes next, the step is that of the list of
    filters. -/
structure AwaitsFilter (m : Machine Lookup) : Prop where
  phase_ne : m.phase ≠ .literal
  step : ∃ m', m.SameTag m' ∧ ∀ r : Reader,
    r.rest.head? = some '|' ∨ m.tag.form.closer <+: r.rest → m.step r = m'.stepPipe r.rest

/-- Neither the bar before a filter nor the end of a tag is read as anything else. -/
theorem exists_head_of_ends {form : TagForm}
    (h : r.rest.head? = some '|' ∨ form.closer <+: r.rest) :
    ∃ c tail, r.rest = c :: tail ∧ isTagBlank c = false ∧ c ∉ ['.', '[', ']'] ∧ c ≠ ',' ∧
      c ≠ ':' := by
  rcases h with h | ⟨tail, h⟩
  · obtain ⟨tail, htail⟩ := List.head?_eq_some_iff.mp h
    exact ⟨_, tail, htail, rfl, by decide, by decide, by decide⟩
  · cases form <;> exact ⟨_, _, h.symm, rfl, by decide, by decide, by decide⟩

/-- Whatever argument has been reached, it is forgotten with the filter. -/
theorem forgetFilter_nextArgument (m : Machine Lookup) :
    m.nextArgument.forgetFilter = m.forgetFilter := by
  show { m with grammar := m.grammar.nextArgument.resetFilter } =
    { m with grammar := m.grammar.resetFilter }
  rw [Lookup.nextArgument]
  split <;> rfl

section Separator

variable {rule : ArgumentRule} {left : List ArgumentRule} {rest : List Char}

theorem inSpread_of_positional (hleft : m.grammar.argumentsLeft = rule :: left)
    (hkind : rule.kind = .positional) : m.inSpread = false := by
  rw [inSpread_eq, hleft]
  simp [hkind]

theorem isLast_eq (hleft : m.grammar.argumentsLeft = rule :: left) :
    Grammar.isLast m.grammar = left.isEmpty := by
  show m.grammar.isLastArgument = _
  rw [Lookup.isLastArgument_eq, hleft, List.tail_cons]

/-- A comma behind an argument leads to the argument declared next, -/
theorem stepSeparator_comma {next : ArgumentRule}
    (hleft : m.grammar.argumentsLeft = rule :: next :: left) (hkind : rule.kind = .positional)
    (hr : rest.head? = some ',') :
    m.stepSeparator rest = m.nextArgument.emit .separator 1 (.filter .argument) ∧
      m.nextArgument.grammar.argumentsLeft = next :: left := by
  constructor
  · rw [stepSeparator, if_pos hr, inSpread_of_positional hleft hkind, if_neg Bool.false_ne_true,
      isLast_eq hleft]
    exact if_neg Bool.false_ne_true
  · show m.grammar.nextArgument.argumentsLeft = _
    rw [Lookup.argumentsLeft_nextArgument (isLast_eq hleft), hleft, List.tail_cons]

/-- and none may stand behind the last one. -/
theorem stepSeparator_comma_last (hleft : m.grammar.argumentsLeft = [rule])
    (hkind : rule.kind = .positional) (hr : rest.head? = some ',') :
    m.stepSeparator rest = m.recover .invalidCharacter rest := by
  rw [stepSeparator, if_pos hr, inSpread_of_positional hleft hkind, if_neg Bool.false_ne_true,
    isLast_eq hleft]
  exact if_pos rfl

/-- Where the arguments end, the one declared next must not be required. -/
theorem stepSeparator_end (hleft : m.grammar.argumentsLeft = rule :: left)
    (hkind : rule.kind = .positional)
    (hends : rest.head? = some '|' ∨ m.tag.form.closer <+: rest) :
    m.stepSeparator rest = if left.head?.any (·.required)
      then m.forgetFilter.reportHere .missingArgument (.filter .pipe)
      else m.forgetFilter.stepPipe rest := by
  have hcomma : rest.head? ≠ some ',' := by
    rcases hends with hpipe | ⟨tail, rfl⟩
    · rw [hpipe]
      nofun
    · cases m.tag.form <;> nofun
  have hstop : (atClose m.tag.form rest || decide (rest.head? = some '|')) = true := by
    rcases hends with hpipe | hclose
    · rw [hpipe, decide_eq_true rfl, Bool.or_true]
    · rw [atClose_closer hclose, Bool.true_or]
  rw [stepSeparator, if_neg hcomma, if_pos hstop, inSpread_of_positional hleft hkind,
    isLast_eq hleft, Bool.false_or]
  cases left with
  | nil => rfl
  | cons next more =>
      have hlast : m.grammar.isLastArgument = false := isLast_eq hleft
      have hnext : m.nextArgument.grammar.argumentsLeft = next :: more := by
        show m.grammar.nextArgument.argumentsLeft = _
        rw [Lookup.argumentsLeft_nextArgument hlast, hleft, List.tail_cons]
      have hmore : Grammar.hasNext m.grammar = true := by
        show (!m.grammar.isLastArgument) = true
        rw [hlast]
        rfl
      have hrequired : Grammar.isRequired m.nextArgument.grammar = next.required := by
        show m.nextArgument.grammar.argument?.any (·.required) = _
        rw [Lookup.argument?_eq, hnext, List.head?_cons, Option.any_some]
      rw [hmore, hrequired, Bool.true_and, forgetFilter_nextArgument]
      exact if_neg Bool.false_ne_true

end Separator

/-- Behind an argument the list may end when nothing that is left of its rule must be given. -/
theorem AfterValue.awaitsFilter (h : m.AfterValue .arguments) (hm : m.Filtering)
    {rule : ArgumentRule} {left : List ArgumentRule}
    (hleft : m.grammar.argumentsLeft = rule :: left) (hkind : rule.kind = .positional)
    (hoptional : ∀ argument ∈ left, argument.required = false) : m.AwaitsFilter where
  phase_ne := h.phase_ne
  step := by
    refine ⟨m.forgetFilter, ⟨rfl, rfl, hm.unchecked.object⟩, fun r hends => ?_⟩
    obtain ⟨c, tail, hr, hblank, hc, -⟩ := exists_head_of_ends hends
    have hnone : left.head?.any (·.required) = false := by
      cases left with
      | nil => rfl
      | cons next more => exact hoptional next (List.mem_cons_self ..)
    rw [h.step hm.unchecked hm.settled hr hblank hc]
    show m.stepSeparator r.rest = _
    rw [stepSeparator_end hleft hkind hends, hnone, if_neg Bool.false_ne_true]

end Machine

namespace Scanner

variable {s : Scanner Lookup} {k : List Char}

/-- The text is passed over with the given tokens, and behind it another filter may follow. -/
def PassesFilters (s : Scanner Lookup) (text : List Char) (words : List Lexeme) (k : List Char) :
    Prop :=
  ∃ t, s.Passes text words t ∧ t.reader.rest = k ∧ s.machine.SameTag t.machine ∧
    t.machine.AwaitsFilter

theorem PassesFilters.behind {t : Scanner Lookup} {a b : List Char} {v w : List Lexeme}
    (h : t.PassesFilters b w k) (ht : s.Passes a v t) (hm : s.machine.SameTag t.machine) :
    s.PassesFilters (a ++ b) (v ++ w) k := by
  obtain ⟨u, hu, hrest, hsame, hawaits⟩ := h
  exact ⟨u, ht.trans hu, hrest, hm.trans hsame, hawaits⟩

theorem endsValue_space (k : List Char) : EndsValue (' ' :: k) :=
  ⟨rfl, rfl⟩

theorem endsValue_more (values : List Value) (k : List Char) :
    EndsValue (printMore values ++ ' ' :: k) := by
  cases values with
  | nil => exact endsValue_space k
  | cons _ _ => exact ⟨rfl, rfl⟩

/-- Where a value has been given, a comma leads to the next argument declared. -/
theorem step_comma {m : Machine Lookup} {r : Reader} {rule next : ArgumentRule}
    {left : List ArgumentRule} {tail : List Char} (hm : m.Filtering)
    (ha : m.AfterValue .arguments) (hleft : m.grammar.argumentsLeft = rule :: next :: left)
    (hkind : rule.kind = .positional) (hr : r.rest = ',' :: tail) :
    m.step r = m.nextArgument.emit .separator 1 (.filter .argument) ∧
      m.nextArgument.grammar.argumentsLeft = next :: left := by
  rw [ha.step hm.unchecked hm.settled hr rfl (by decide)]
  exact Machine.stepSeparator_comma hleft hkind (by rw [hr]; rfl)

/-- An argument and the space before it are passed over. -/
theorem passes_spaced (v : Value) {rule : ArgumentRule} {left : List ArgumentRule}
    (hm : s.machine.Filtering) (hp : s.machine.phase = .filter .argument)
    (hleft : s.machine.grammar.argumentsLeft = rule :: left) (hkind : rule.kind = .positional)
    (haccepts : rule.accepts v.type = true) (hr : s.reader.rest = ' ' :: (v.print ++ k))
    (hk : EndsValue k) :
    ∃ t, s.Passes (' ' :: v.print) v.argumentLexemes t ∧ t.reader.rest = k ∧
      t.machine.AfterValue .arguments ∧ s.machine.SameTag t.machine ∧
      t.machine.grammar.argumentsLeft = rule :: left := by
  obtain ⟨c, cs, hhead, -, hspacing, -⟩ := (v.begins hk.name).head
  rw [hhead] at hr
  obtain ⟨t, ht, hsame, hrest, -⟩ := passes_space (by rw [hp]; nofun) hr hspacing
  rw [← hhead] at hrest
  rw [← hsame] at hm hp hleft
  obtain ⟨u, hu, hrest, hafter, expect, phase, heq⟩ := passes_argument v hm.unchecked hm.form hp
    hleft hkind haccepts hrest hk
  refine ⟨u, ht.trans hu, hrest, hafter, ?_, by rw [heq]; exact hleft⟩
  rw [heq, hsame]
  exact ⟨rfl, rfl, hsame ▸ hm.unchecked.object⟩

/-- **Arguments are passed over**, each in its place in the rule. -/
theorem passes_arguments (v : Value) (vs : List Value) {rule : ArgumentRule}
    {left : List ArgumentRule} (hm : s.machine.Filtering)
    (hp : s.machine.phase = .filter .argument)
    (hleft : s.machine.grammar.argumentsLeft = rule :: left) (hkind : rule.kind = .positional)
    (haccepts : rule.accepts v.type = true) (hfit : ArgumentsFit vs left)
    (hr : s.reader.rest = ' ' :: (v.print ++ (printMore vs ++ ' ' :: k))) :
    s.PassesFilters (' ' :: (v.print ++ printMore vs)) (v.argumentLexemes ++ lexemesOfMore vs)
      (' ' :: k) := by
  induction vs generalizing s v rule left with
  | nil =>
      obtain ⟨t, ht, hrest, hafter, hsame, hleft⟩ := passes_spaced v hm hp hleft hkind haccepts hr
        (endsValue_space k)
      refine ⟨t, ?_, hrest, hsame,
        hafter.awaitsFilter (hsame.filtering hm) hleft hkind hfit.optional⟩
      simpa [printMore, lexemesOfMore] using ht
  | cons w ws ih =>
      obtain ⟨t, ht, hrest, hafter, hsame, hleft⟩ := passes_spaced v hm hp hleft hkind haccepts hr
        (endsValue_more (w :: ws) k)
      obtain ⟨next, left, rfl, hkind', haccepts', hfit⟩ := hfit.exists_cons
      have hrest : t.reader.rest = [','] ++ (' ' :: (w.print ++ (printMore ws ++ ' ' :: k))) := by
        rw [hrest]
        simp [printMore]
      have hm := hsame.filtering hm
      obtain ⟨hstep, hleft⟩ := step_comma hm hafter hleft hkind hrest
      obtain ⟨u, hu, heq, hrest, -⟩ := passes_token _ hrest hstep nofun
      have hcomma : t.machine.SameTag u.machine := by
        rw [heq]
        exact .nextArgument hm.unchecked _
      have hmore := ih w (hcomma.filtering hm) (by rw [heq]) (by rw [heq]; exact hleft) hkind'
        haccepts' hfit hrest
      have hall := (hmore.behind hu hcomma).behind ht hsame
      simpa [printMore, lexemesOfMore] using hall

-- ── filters ──────────────────────────────────────────────────────────────────────

/-- The name of a filter that the dialect has is taken for it. -/
theorem step_filterName {m : Machine Lookup} {r : Reader} {name : Ident} {rule : FilterRule}
    {tail : List Char} (hp : m.phase = .filter .name)
    (hrule : m.grammar.dialect.filters.get? (String.ofList name.text) = some rule)
    (hr : r.rest = name.text ++ tail) (ht : continuesIdentifier tail = false) :
    m.step r = { m with grammar := { m.grammar with
      expect := .filter, filter := some rule, argumentIndex := 0 } }.emit .filterName
        name.text.length (.filter .colon) := by
  have hread := identifier?_append name.isName ht
  have hknows : Grammar.knows (Grammar.setExpect m.grammar .filter) (String.ofList name.text) =
      true := Option.isSome_iff_exists.mpr ⟨rule, hrule⟩
  have hresolve : Grammar.resolve (Grammar.setExpect m.grammar .filter) (String.ofList name.text) =
      { m.grammar with expect := .filter, filter := some rule, argumentIndex := 0 } := by
    rw [← hrule]
    rfl
  rw [Machine.step_of_name (by rw [hp]; nofun) hr ht, Machine.stepPhase, hp]
  show m.stepFilterName r.rest = _
  rw [Machine.stepFilterName, hr, hread]
  dsimp only
  rw [hknows, hresolve]
  rfl

section Colon

variable {m : Machine Lookup} {r : Reader} {c : Char} {tail : List Char} {rule : FilterRule}

/-- Behind the name of a filter a colon is taken if there is anything to be given. -/
theorem step_colon (hp : m.phase = .filter .colon) (hrule : m.grammar.filter = some rule)
    (hr : r.rest = ':' :: tail) :
    m.step r = if rule.arguments.isEmpty then m.recover .unexpectedArguments r.rest
      else m.emit .colon 1 (.filter .argument) := by
  have htakes : Grammar.filterTakesArguments m.grammar = !rule.arguments.isEmpty := by
    show m.grammar.filter.any (·.hasArguments) = _
    rw [hrule, Option.any_some, FilterRule.hasArguments]
  rw [Machine.step_eq_stepPhase (c := ':') (by rw [hp]; rintro ⟨⟩) (by rw [hr]; rfl) rfl,
    Machine.stepPhase, hp]
  show m.stepColon r.rest = _
  rw [Machine.stepColon, if_pos (by rw [hr]; rfl), htakes]
  cases rule.arguments.isEmpty <;> rfl

/-- Without a colon, the first argument must not be required. -/
theorem step_noColon (hp : m.phase = .filter .colon) (hrule : m.grammar.filter = some rule)
    (hends : r.rest.head? = some '|' ∨ m.tag.form.closer <+: r.rest) :
    m.step r = if rule.arguments.head?.any (·.required)
      then m.forgetFilter.reportHere .missingColon (.filter .pipe)
      else m.forgetFilter.stepPipe r.rest := by
  obtain ⟨c, tail, hr, hblank, -, -, hcolon⟩ := Machine.exists_head_of_ends hends
  have hrequires : Grammar.filterRequiresArguments m.grammar =
      rule.arguments.head?.any (·.required) := by
    show m.grammar.filter.any (·.requiresArguments) = _
    rw [hrule, Option.any_some, FilterRule.requiresArguments]
  rw [Machine.step_eq_stepPhase (c := c) (by rw [hp]; nofun) (by rw [hr]; rfl) hblank,
    Machine.stepPhase, hp]
  show m.stepColon r.rest = _
  rw [Machine.stepColon, if_neg (by rw [hr]; simpa using hcolon), hrequires]

end Colon

/-- A filter may be called without a colon when nothing must be given to it. -/
theorem awaitsFilter_colon {m : Machine Lookup} {rule : FilterRule} (hm : m.Filtering)
    (hp : m.phase = .filter .colon) (hrule : m.grammar.filter = some rule)
    (hoptional : ∀ argument ∈ rule.arguments, argument.required = false) :
    m.AwaitsFilter where
  phase_ne := by rw [hp]; nofun
  step := by
    refine ⟨m.forgetFilter, ⟨rfl, rfl, hm.unchecked.object⟩, fun r hends => ?_⟩
    have hnone : rule.arguments.head?.any (·.required) = false := by
      cases hhead : rule.arguments.head? with
      | none => rfl
      | some first => exact hoptional first (List.mem_of_mem_head? hhead)
    rw [step_noColon hp hrule hends, hnone, if_neg Bool.false_ne_true]

/-- The arguments of a filter, or none. -/
theorem passes_printArguments (values : List Value) {rule : FilterRule} (hm : s.machine.Filtering)
    (hp : s.machine.phase = .filter .colon) (hrule : s.machine.grammar.filter = some rule)
    (hindex : s.machine.grammar.argumentIndex = 0) (hfit : ArgumentsFit values rule.arguments)
    (hr : s.reader.rest = printArguments values ++ ' ' :: k) :
    s.PassesFilters (printArguments values) (lexemesOfArguments values) (' ' :: k) := by
  cases values with
  | nil =>
      exact ⟨s, .refl s, hr, ⟨rfl, rfl, hm.unchecked.object⟩,
        awaitsFilter_colon hm hp hrule hfit.optional⟩
  | cons v vs =>
      obtain ⟨first, left, hrules, hkind, haccepts, hfit⟩ := hfit.exists_cons
      have hr : s.reader.rest = [':'] ++ ' ' :: (v.print ++ (printMore vs ++ ' ' :: k)) := by
        rw [hr]
        simp [printArguments]
      have hstep := step_colon hp hrule hr
      rw [hrules, List.isEmpty_cons, if_neg Bool.false_ne_true] at hstep
      obtain ⟨t, ht, heq, hrest, -⟩ := passes_token _ hr hstep (by rintro ⟨⟩)
      have hsame : s.machine.SameTag t.machine := by
        rw [heq]
        exact ⟨rfl, rfl, hm.unchecked.object⟩
      have hleft : t.machine.grammar.argumentsLeft = first :: left := by
        rw [heq, ← hrules]
        show (s.machine.grammar.filter.getD {}).arguments.drop _ = _
        rw [hrule, hindex]
        rfl
      exact (passes_arguments v vs (hsame.filtering hm) (by rw [heq]) hleft hkind haccepts hfit
        hrest).behind ht hsame

/-- The bar before a filter and its name are passed over. -/
theorem passes_filterName (name : Ident) {m : Machine Lookup} {rule : FilterRule}
    (hp : s.machine.phase ≠ .literal)
    (hstep : ∀ r : Reader, r.rest.head? = some '|' → s.machine.step r = m.stepPipe r.rest)
    (hrule : m.grammar.dialect.filters.get? (String.ofList name.text) = some rule)
    (hr : s.reader.rest = ' ' :: '|' :: ' ' :: (name.text ++ k))
    (hk : continuesIdentifier k = false) :
    ∃ t, s.Passes (' ' :: '|' :: ' ' :: name.text) [⟨.pipe, ['|']⟩, ⟨.filterName, name.text⟩] t ∧
      t.reader.rest = k ∧ t.machine = { m with
        phase := .filter .colon
        grammar := { m.grammar with
          expect := .filter, filter := some rule, argumentIndex := 0 } } := by
  obtain ⟨first, cs, hhead, -, hspacing, -⟩ := (name.begins hk).head
  -- the bar
  obtain ⟨t, ht, hsame, hrest, -⟩ := passes_space hp hr rfl
  have hstep := hstep t.reader (by rw [hrest]; rfl)
  rw [← hsame, Machine.stepPipe, if_pos (by rw [hrest]; rfl)] at hstep
  obtain ⟨u, hu, hm', hrest, -⟩ := passes_token ['|'] hrest hstep (by rintro ⟨⟩)
  -- the name
  rw [hhead] at hrest
  obtain ⟨v, hv, hsame', hrest, -⟩ := passes_space (by rw [hm']; rintro ⟨⟩) hrest hspacing
  rw [← hhead] at hrest
  have hmachine : v.machine = { m with phase := .filter .name } := hsame'.trans hm'
  obtain ⟨w, hw, heq, hrest, -⟩ := passes_token _ hrest
    (step_filterName (by rw [hmachine]) (by rw [hmachine]; exact hrule) hrest hk) (by rintro ⟨⟩)
  rw [hmachine] at heq
  exact ⟨w, ht.trans (hu.trans (hv.trans hw)), hrest, heq⟩

/-- **A filter is passed over** that the dialect has, when it is called as declared. -/
theorem passes_call (c : Call) {rule : FilterRule} (hm : s.machine.Filtering)
    (ha : s.machine.AwaitsFilter)
    (hrule : s.machine.grammar.dialect.filters.get? (String.ofList c.name.text) = some rule)
    (hfit : ArgumentsFit c.arguments rule.arguments)
    (hr : s.reader.rest = c.print ++ ' ' :: k) :
    s.PassesFilters c.print c.lexemes (' ' :: k) := by
  have hend : continuesIdentifier (printArguments c.arguments ++ ' ' :: k) = false := by
    cases c.arguments <;> rfl
  obtain ⟨m, htag, hstep⟩ := ha.step
  obtain ⟨t, ht, hrest, heq⟩ := passes_filterName c.name ha.phase_ne
    (fun r hpipe => hstep r (Or.inl hpipe)) (by rw [htag.dialect]; exact hrule)
    (by rw [hr]; simp [Call.print]) hend
  have hcall : s.machine.SameTag t.machine := htag.trans <| by
    rw [heq]
    exact ⟨rfl, rfl, htag.object⟩
  have harguments := passes_printArguments c.arguments (hcall.filtering hm) (by rw [heq])
    (by rw [heq]) (by rw [heq]) hfit hrest
  exact harguments.behind ht hcall

/-- **Filters are passed over** one behind another. -/
theorem passes_calls (calls : List Call) (hm : s.machine.Filtering)
    (ha : s.machine.AwaitsFilter)
    (hfits : ∀ c ∈ calls, ∃ rule,
      s.machine.grammar.dialect.filters.get? (String.ofList c.name.text) = some rule ∧
        ArgumentsFit c.arguments rule.arguments)
    (hr : s.reader.rest = calls.flatMap Call.print ++ ' ' :: k) :
    s.PassesFilters (calls.flatMap Call.print) (calls.flatMap Call.lexemes) (' ' :: k) := by
  induction calls generalizing s with
  | nil => exact ⟨s, .refl s, hr, ⟨rfl, rfl, hm.unchecked.object⟩, ha⟩
  | cons c calls ih =>
      obtain ⟨rule, hrule, hfit⟩ := hfits c (List.mem_cons_self ..)
      have hends : ∃ k', calls.flatMap Call.print ++ ' ' :: k = ' ' :: k' := by
        cases calls <;> exact ⟨_, rfl⟩
      obtain ⟨k', hk⟩ := hends
      obtain ⟨t, ht, hrest, hsame, ha⟩ := passes_call (k := k') c hm ha hrule hfit (by
        rw [hr, List.flatMap_cons, List.append_assoc, hk])
      refine (ih (hsame.filtering hm) ha (fun d hd => ?_) (hrest.trans hk.symm)).behind ht hsame
      rw [hsame.dialect]
      exact hfits d (List.mem_cons_of_mem _ hd)

end Scanner

end TemplateScan
