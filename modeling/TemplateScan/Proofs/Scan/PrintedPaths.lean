import TemplateScan.Proofs.Scan.Passage
import TemplateScan.Proofs.Scan.SchemaWalk

/-! # Printed paths — a path written down is scanned back

    A path is passed over with exactly its tokens, however deep its brackets are nested, and leads
    back to the machine that it began with, but for the names that have been looked up and the object
    that has been reached.  Each step of it reads its literal in full, since what is written behind
    a literal does not carry it on.

    The scanner keeps one object for all brackets.  A path that stands as a key overwrites it, and
    the mark on its bracket says that it is to be forgotten where the bracket is closed.

    * **`BeginsValue`** — nothing that ends a tag stands where a value begins.
    * **`takeProperty_eq`** — a property is taken as the walk through the schemas finds it.
    * **`Unchecked`** — without objects no name is checked.
    * **`walks_path`** — a path inside any number of brackets. -/

namespace TemplateScan

open Text

-- ── how a value begins ───────────────────────────────────────────────────────────

/-- A character with which a value may begin, apart from the dash of a number. -/
def startsValue (c : Char) : Bool :=
  isQuote c || isIdentifierStart c || c.isDigit

/-- No tag ends where a negative number begins. -/
theorem atClose_of_negative {form : TagForm} {d : Char} {tail : List Char}
    (h : d.isDigit = true) : atClose form ('-' :: d :: tail) = false := by
  have hd : startsValue d = true := by rw [startsValue, h, Bool.or_true]
  have hspacing : isSpacing d = false :=
    (Bool.or_eq_false_iff.mp (isTagBlank_eq_false rfl rfl rfl rfl h)).1
  have hrest : atClose form (d :: tail) = false := atClose_eq_false rfl rfl rfl hd
  unfold atClose at hrest
  rw [Bool.or_eq_false_iff] at hrest
  have hdash : form.closer.isPrefixOf ('-' :: d :: tail) = false := by cases form <;> rfl
  show (form.closer.isPrefixOf ('-' :: d :: tail) ||
    form.closer.isPrefixOf (afterSpacing (d :: tail))) = false
  rw [hdash, Bool.false_or, afterSpacing,
    List.dropWhile_cons_of_neg (by rw [hspacing]; exact Bool.false_ne_true)]
  exact hrest.1

/-- The text begins as a value does: with none of the characters that stand between values. -/
structure BeginsValue (text : List Char) : Prop where
  not_close : ∀ form, atClose form text = false
  head : ∃ c tail, text = c :: tail ∧ isTagBlank c = false ∧ isSpacing c = false ∧ c ≠ '|' ∧
    c ≠ ']'

/-- One character decides whether a value may begin. -/
theorem BeginsValue.of_start {c : Char} {tail : List Char} (h : startsValue c = true) :
    BeginsValue (c :: tail) where
  not_close _ := atClose_eq_false rfl rfl rfl h
  head := by
    have hblank := isTagBlank_eq_false rfl rfl rfl rfl h
    refine ⟨c, tail, rfl, hblank, (Bool.or_eq_false_iff.mp hblank).1, ?_, ?_⟩ <;>
      · rintro rfl
        cases h

/-- A name begins a value that is neither a string nor a number. -/
theorem startsValue_of_identifier {text name : List Char} (h : identifier? text = some name) :
    ∃ c tail, text = c :: tail ∧ startsValue c = true ∧ isQuote c = false ∧ c.isDigit = false ∧
      c ≠ '-' := by
  obtain ⟨c, hh, hc⟩ := exists_head_of_identifier? h
  obtain ⟨tail, rfl⟩ := List.head?_eq_some_iff.mp hh
  refine ⟨c, tail, rfl, by rw [startsValue, hc, Bool.or_true, Bool.true_or], ?_, ?_, ?_⟩
  · cases hq : isQuote c with
    | false => rfl
    | true =>
        simp only [isQuote, Bool.or_eq_true, beq_iff_eq] at hq
        rcases hq with rfl | rfl <;> cases hc
  · exact isDigit_of_isIdentifierStart hc
  · rintro rfl
    cases hc

/-- A name that ends there begins a value. -/
theorem Ident.begins (name : Ident) {k : List Char} (hk : continuesIdentifier k = false) :
    BeginsValue (name.text ++ k) := by
  obtain ⟨c, cs, heq, hstart, -⟩ := startsValue_of_identifier (identifier?_append name.isName hk)
  rw [heq]
  exact .of_start hstart

/-- A number begins a value. -/
theorem BeginsValue.of_number {form : NumberForm} {number k : List Char}
    (h : number? number = some (form, number)) : BeginsValue (number ++ k) := by
  obtain ⟨c, cs, rfl, hdigit | ⟨rfl, d, ds, rfl, hd⟩⟩ := head_of_number h
  · exact .of_start (by rw [startsValue, hdigit, Bool.or_true])
  · exact ⟨fun _ => atClose_of_negative hd, '-', _, rfl, rfl, rfl, by decide, by decide⟩

-- ── literals and names ───────────────────────────────────────────────────────────

/-- What follows a value: no character that would carry a name or a number on. -/
structure EndsValue (text : List Char) : Prop where
  name : continuesIdentifier text = false
  number : continuesNumber text = false

/-- A string is read up to its own closing quote. -/
theorem StringLiteral.read (s : StringLiteral) (k : List Char) :
    quoted? (TagForm.stringStops .output) (s.text ++ k) = some (.closed s.quote s.body) := by
  have hstops : ∀ stop ∈ TagForm.stringStops .output, s.quote ∉ stop ∧ ¬ stop <:+: s.body := by
    intro stop hstop
    refine ⟨?_, s.plain stop hstop⟩
    have hquote := s.isQuote
    simp only [TagForm.stringStops, TagForm.closer, TagForm.opener, List.mem_cons,
      List.not_mem_nil, or_false] at hstop
    simp only [Text.isQuote, Bool.or_eq_true, beq_iff_eq] at hquote
    rcases hstop with rfl | rfl | rfl <;> rcases hquote with hq | hq <;> rw [hq] <;> decide
  rw [StringLiteral.text, List.cons_append, List.append_assoc, List.singleton_append]
  exact quoted?_append s.isQuote s.closes hstops

/-- Without a quote there is no string. -/
theorem quoted?_of_head {stops : List (List Char)} {c : Char} {tail : List Char}
    (h : isQuote c = false) : quoted? stops (c :: tail) = none := by
  rw [quoted?, h]
  rfl

/-- Without a digit or a minus sign there is no number. -/
theorem number?_of_head {c : Char} {tail : List Char} (hd : c.isDigit = false) (hm : c ≠ '-') :
    number? (c :: tail) = none := by
  have hsign : signOf (c :: tail) = [] := by
    unfold signOf
    split
    · next heq => exact absurd (List.cons.inj heq).1 hm
    · rfl
  simp [number?, hsign, hd]

/-- A number does not begin with a quote. -/
theorem quoted?_of_number {stops : List (List Char)} {form : NumberForm} {number k : List Char}
    (h : number? number = some (form, number)) : quoted? stops (number ++ k) = none := by
  obtain ⟨c, cs, rfl, hdigit | ⟨rfl, -⟩⟩ := head_of_number h
  · refine quoted?_of_head ?_
    cases hq : isQuote c with
    | false => rfl
    | true =>
        simp only [isQuote, Bool.or_eq_true, beq_iff_eq] at hq
        rcases hq with rfl | rfl <;> cases hdigit
  · exact quoted?_of_head rfl

namespace Machine

/-- The words for truth values are names in form. -/
theorem isName_boolText (b : Bool) : identifier? (boolText b) = some (boolText b) := by
  cases b <;> rfl

/-- The word for a truth value is read back when it ends there. -/
theorem boolean?_boolText (b : Bool) {k : List Char} (hk : continuesIdentifier k = false) :
    boolean? (boolText b ++ k) = some (boolText b) := by
  have hread := identifier?_append (isName_boolText b) hk
  have hword : ∀ c, startsWithWord (boolText c) (boolText b ++ k) = true ↔ c = b := by
    intro c
    rw [startsWithWord_iff (isName_boolText c), hread, Option.some.injEq]
    constructor
    · intro h
      cases b <;> cases c <;> first | rfl | exact absurd h (by decide)
    · rintro rfl
      rfl
  have htrue := hword true
  have hfalse := hword false
  rw [boolean?, booleans]
  cases b with
  | true => exact List.find?_cons_of_pos (htrue.mpr rfl)
  | false =>
      rw [List.find?_cons_of_neg (by exact fun h => absurd (htrue.mp h) (by decide))]
      exact List.find?_cons_of_pos (hfalse.mpr rfl)

/-- A name that is no truth value is not taken for one. -/
theorem boolean?_of_name {text name : List Char} (h : identifier? text = some name)
    (hn : name ∉ booleans) : boolean? text = none := by
  rw [boolean?, List.find?_eq_none]
  intro word hword hstarts
  have hself : identifier? word = some word := by
    simp only [booleans, List.mem_cons, List.not_mem_nil, or_false] at hword
    rcases hword with rfl | rfl <;> rfl
  rw [(startsWithWord_iff hself), h, Option.some.injEq] at hstarts
  exact hn (hstarts ▸ hword)

-- ── names that are looked up ─────────────────────────────────────────────────────

variable {m : Machine Lookup}

/-- What is known of the object that has been reached. -/
def known (m : Machine Lookup) : Option Shape :=
  m.grammar.known

/-- The machine, once it has looked up names of the given category and has reached an object. -/
def reaching (m : Machine Lookup) (expect : Expect) (object : Option Schema) : Machine Lookup :=
  { m with grammar := { m.grammar with expect, object } }

/-- A name is an object if the dialect has it as one. -/
theorem referenceKind_eq_kindIn (name : Ident) (bare : TokenKind) :
    m.referenceKind name.text bare = name.kindIn m.grammar.dialect.objects bare := by
  rw [Ident.kindIn, Ident.shapeIn, Option.isSome_map]
  rfl

/-- At the head of a path the object of that name is reached. -/
theorem beginPath_eq (name : List Char) (kind : TokenKind) (resume : Resume) :
    m.beginPath name kind resume =
      (m.reaching .object (m.grammar.dialect.objects.get? (String.ofList name))).emit kind
        name.length (.path .member resume) := rfl

theorem releaseObject_eq : m.releaseObject = m.reaching m.grammar.expect none := rfl

/-- A property is taken as the walk from the object finds it. -/
theorem takeProperty_eq (name : List Char) (kind : TokenKind) (length : Nat) (phase : Phase) :
    ∃ object, object.map Schema.shape = (walkName m.known name).known ∧
      m.takeProperty name kind length phase = (m.reaching m.grammar.expect object).emit
        ((walkName m.known name).kind kind) length phase := by
  obtain ⟨object, henter⟩ := m.grammar.enterProperty_eq (String.ofList name)
  refine ⟨object, ?_, ?_⟩
  · rw [known, ← known_walkName, henter]
    rfl
  · rw [known, ← kind_walkName]
    show { m with grammar := m.grammar.enterProperty (String.ofList name) }.emit _ _ _ = _
    rw [henter]
    rfl

/-- No object is known, and none is checked. -/
structure Unchecked (m : Machine Lookup) : Prop where
  none_known : m.grammar.dialect.objects = ∅
  object : m.grammar.object = none

/-- The machine, once it has looked up names of the given category. -/
def expecting (m : Machine Lookup) (expect : Expect) : Machine Lookup :=
  { m with grammar := { m.grammar with expect } }

/-- Without an object nothing is known. -/
theorem Unchecked.known (h : m.Unchecked) : m.known = none := by
  rw [Machine.known, Lookup.known, h.object]
  rfl

/-- Reaching nothing leaves nothing to check. -/
theorem Unchecked.reaching (h : m.Unchecked) (expect : Expect) :
    m.reaching expect none = m.expecting expect := by
  rw [Machine.reaching, ← h.object]
  rfl

/-- Without objects a name is what its place asks for. -/
theorem Unchecked.referenceKind (h : m.Unchecked) (name : Ident) (bare : TokenKind) :
    m.referenceKind name.text bare = bare := by
  rw [referenceKind_eq_kindIn, h.none_known]
  rfl

/-- Without objects a path begins unchecked. -/
theorem Unchecked.beginPath (h : m.Unchecked) (name : List Char) (kind : TokenKind)
    (resume : Resume) :
    m.beginPath name kind resume =
      (m.expecting .object).emit kind name.length (.path .member resume) := by
  rw [beginPath_eq, h.none_known, ← h.reaching]
  rfl

-- ── steps in a path ──────────────────────────────────────────────────────────────

variable {r : Reader} {resume : Resume} {tail : List Char}

/-- Where a name comes next, the phase decides the step. -/
theorem step_of_name {name : Ident} (hp : m.phase ≠ .literal) (hr : r.rest = name.text ++ tail)
    (ht : continuesIdentifier tail = false) : m.step r = m.stepPhase r := by
  obtain ⟨c, cs, hc, hblank, -⟩ := (name.begins ht).head
  exact step_eq_stepPhase (c := c) hp (by rw [hr, hc]; rfl) hblank

/-- A dot in front of a name leads on to the property. -/
theorem step_dot (hp : m.phase = .path .member resume) (hr : r.rest = '.' :: tail)
    (ht : startsIdentifier tail = true) :
    m.step r = m.emit .dot 1 (.path .dot resume) := by
  rw [step_eq_stepPhase (c := '.') (by rw [hp]; nofun) (by rw [hr]; rfl) rfl]
  simp only [stepPhase, hp, stepPath, stepMember, hr, ht, if_true]

/-- The name of a property is taken as a whole. -/
theorem step_property {name : Ident} (hp : m.phase = .path .dot resume)
    (hr : r.rest = name.text ++ tail) (ht : continuesIdentifier tail = false) :
    m.step r = m.takeProperty name.text .property name.text.length (.path .member resume) := by
  have hread := identifier?_append name.isName ht
  rw [step_of_name (by rw [hp]; nofun) hr ht]
  simp only [stepPhase, hp, stepPath, stepDot, hr, hread]

/-- A bracket opens at the cursor. -/
theorem step_openBracket (hp : m.phase = .path .member resume) (hr : r.rest = '[' :: tail) :
    m.step r = { m with brackets := m.brackets.push r.offset }.emit .openBracket 1
      (.path .key resume) := by
  rw [step_eq_stepPhase (c := '[') (by rw [hp]; nofun) (by rw [hr]; rfl) rfl]
  simp only [stepPhase, hp, stepPath, stepMember, hr]

/-- Anything but a dot and an opening bracket ends the path, or the key that it stands for. -/
theorem stepMember_other {c : Char} (hr : r.rest = c :: tail) (hdot : c ≠ '.') (hopen : c ≠ '[') :
    m.stepMember resume r = if !m.brackets.isEmpty then m.stepKeyEnd resume r.rest
      else if r.rest.head? = some ']' then m.recover .invalidCharacter r.rest
      else m.releaseObject.stepResume resume r.rest := by
  unfold stepMember
  split
  · next heq =>
      rw [hr] at heq
      exact absurd (List.cons.inj heq).1 hdot
  · next heq =>
      rw [hr] at heq
      exact absurd (List.cons.inj heq).1 hopen
  · rfl

/-- A closing bracket leads back to the path outside it; of what a path has selected, nothing is
    known. -/
theorem step_closeBracket {phase : PathPhase} {bracket : Bracket}
    (hp : m.phase = .path phase resume) (hphase : phase = .member ∨ phase = .keyEnd)
    (hb : m.brackets.innermost? = some bracket) (hr : r.rest = ']' :: tail) :
    m.step r = { m.reaching m.grammar.expect (if bracket.dynamic then none else m.grammar.object)
      with brackets := m.brackets.pop }.emit .closeBracket 1 (.path .member resume) := by
  have hkeyEnd : m.stepKeyEnd resume r.rest = { m.reaching m.grammar.expect
      (if bracket.dynamic then none else m.grammar.object) with
        brackets := m.brackets.pop }.emit .closeBracket 1 (.path .member resume) := by
    rw [stepKeyEnd, if_pos (by rw [hr]; rfl), hb]
    cases hd : bracket.dynamic <;> simp only [hd] <;> rfl
  have hopen : m.brackets.isEmpty = false := by
    obtain ⟨outer, houter⟩ := List.head?_eq_some_iff.mp hb
    rw [Brackets.isEmpty, houter]
    rfl
  rw [step_eq_stepPhase (c := ']') (by rw [hp]; rintro ⟨⟩) (by rw [hr]; rfl) rfl]
  refine Eq.trans ?_ hkeyEnd
  rw [stepPhase, hp]
  rcases hphase with rfl | rfl
  · show m.stepMember resume r = _
    rw [stepMember_other hr (by decide) (by decide), hopen]
    rfl
  · rfl

/-- What begins as a value stands in the brackets as one. -/
theorem step_key_value (hp : m.phase = .path .key resume) (h : BeginsValue r.rest) :
    m.step r = match quoted? m.tag.form.stringStops r.rest with
      | some (.closed quote body) =>
          if body.isEmpty then m.report .missingProperty (Quoted.closed quote body).text.length
            (.path .keyEnd resume)
          else m.takeProperty body .propertyString (Quoted.closed quote body).text.length
            (.path .keyEnd resume)
      | some (.unclosed quote body) =>
          m.report .missingQuotation (Quoted.unclosed quote body).text.length (.close false)
      | none =>
        match number? r.rest with
        | some (_, digits) =>
            m.releaseObject.emit .propertyNumber digits.length (.path .keyEnd resume)
        | none =>
          match identifier? r.rest with
          | some name => { m.releaseObject with
              brackets := m.releaseObject.brackets.markDynamic }.beginPath name
                (m.releaseObject.referenceKind name .variableName) resume
          | none => m.releaseObject.unexpected r.rest := by
  obtain ⟨c, cs, hr, hblank, -, -, hclose⟩ := h.head
  rw [step_eq_stepPhase (c := c) (by rw [hp]; rintro ⟨⟩) (by rw [hr]; rfl) hblank, stepPhase, hp]
  show m.stepKey resume r.rest = _
  rw [stepKey]
  exact (if_neg (by rw [hr]; simpa using hclose)).trans (if_neg (by rw [h.not_close]; rintro ⟨⟩))

/-- A string in a bracket is a property. -/
theorem step_keyString {string : StringLiteral} (hp : m.phase = .path .key resume)
    (hf : m.tag.form = .output) (hne : string.body ≠ []) (hr : r.rest = string.text ++ tail) :
    m.step r = m.takeProperty string.body .propertyString string.text.length
      (.path .keyEnd resume) := by
  have hstarts : BeginsValue r.rest := by
    rw [hr]
    exact .of_start (by rw [startsValue, string.isQuote, Bool.true_or, Bool.true_or])
  rw [step_key_value hp hstarts, hf, hr, string.read]
  dsimp only
  rw [if_neg (by rwa [List.isEmpty_iff])]
  rfl

/-- A number in a bracket ends the checking. -/
theorem step_keyNumber {number : Numeral} (hp : m.phase = .path .key resume)
    (hr : r.rest = number.text ++ tail) (ht : continuesNumber tail = false) :
    m.step r = (m.reaching m.grammar.expect none).emit .propertyNumber number.text.length
      (.path .keyEnd resume) := by
  have hstarts : BeginsValue r.rest := by
    rw [hr]
    exact .of_number number.isNumber
  rw [step_key_value hp hstarts, hr, quoted?_of_number number.isNumber,
    number?_append number.isNumber ht, releaseObject_eq]

/-- A name in a bracket begins a path of its own, and marks the bracket. -/
theorem step_keyName {name : Ident} (hp : m.phase = .path .key resume)
    (hr : r.rest = name.text ++ tail) (ht : continuesIdentifier tail = false) :
    m.step r = { m.reaching .object (m.grammar.dialect.objects.get? (String.ofList name.text)) with
      brackets := m.brackets.markDynamic }.emit
        (name.kindIn m.grammar.dialect.objects .variableName) name.text.length
        (.path .member resume) := by
  have hread := identifier?_append name.isName ht
  obtain ⟨c, cs, hc, hstart, hquote, hdigit, hdash⟩ := startsValue_of_identifier hread
  have hstarts : BeginsValue r.rest := by
    rw [hr, hc]
    exact .of_start hstart
  rw [step_key_value hp hstarts, hr, hread, hc, quoted?_of_head hquote,
    number?_of_head hdigit hdash, releaseObject_eq]
  dsimp only
  rw [referenceKind_eq_kindIn, beginPath_eq]
  rfl

end Machine

-- ── paths ────────────────────────────────────────────────────────────────────────

namespace Scanner

variable {s : Scanner Lookup} {resume : Resume} {k : List Char} {known known' : Option Shape}

/-- A path that is written down does not go on with the name in front of it. -/
theorem continuesIdentifier_print (p : Path) (hk : continuesIdentifier k = false) :
    continuesIdentifier (p.print ++ k) = false := by
  cases p with
  | nil => exact hk
  | property _ _ | key _ _ _ | index _ _ | path _ _ _ => rfl

/-- The text is passed over with the given tokens; names may have been looked up, and an object has
    been reached of which only what is given is known. -/
def Walks (s : Scanner Lookup) (text : List Char) (words : List Lexeme) (known : Option Shape)
    (k : List Char) : Prop :=
  ∃ t, s.Passes text words t ∧ t.reader.rest = k ∧ ∃ expect object,
    object.map Schema.shape = known ∧ t.machine = s.machine.reaching expect object

/-- Behind a text that leads back into the path, the rest of the path is walked along. -/
theorem Walks.goesOn {a : List Char} {v : List Lexeme} {next : Path}
    (h : s.Walks a v known (next.print ++ k)) (hf : s.machine.tag.form = .output)
    (hp : s.machine.phase = .path .member resume)
    (hnext : ∀ t : Scanner Lookup, t.machine.tag.form = .output →
      t.machine.phase = .path .member resume → t.reader.rest = next.print ++ k →
      t.Walks next.print (next.checked t.machine.grammar.dialect.objects t.machine.known)
        (next.knownAtEnd t.machine.known) k) :
    s.Walks (a ++ next.print) (v ++ next.checked s.machine.grammar.dialect.objects known)
      (next.knownAtEnd known) k := by
  obtain ⟨t, ht, hrest, expect, object, hobject, hm⟩ := h
  have hwalk := hnext t (by rw [hm]; exact hf) (by rw [hm]; exact hp) hrest
  have hknown : t.machine.known = known := by
    rw [hm]
    exact hobject
  have hobjects : t.machine.grammar.dialect = s.machine.grammar.dialect := by
    rw [hm]
    rfl
  rw [hknown, hobjects] at hwalk
  obtain ⟨u, hu, hrest', expect', object', hobject', hm'⟩ := hwalk
  exact ⟨u, ht.trans hu, hrest', expect', object', hobject', by rw [hm', hm]; rfl⟩

/-- The name of a property is passed over as the walk finds it. -/
theorem passes_name {text name : List Char} {kind : TokenKind} {phase : Phase}
    (hr : s.reader.rest = text ++ k)
    (hstep : s.machine.step s.reader = s.machine.takeProperty name kind text.length phase)
    (hkind : kind ≠ .spacing) :
    ∃ t object, s.Passes text [⟨(walkName s.machine.known name).kind kind, text⟩] t ∧
      t.reader.rest = k ∧ object.map Schema.shape = (walkName s.machine.known name).known ∧
      t.machine = { s.machine.reaching s.machine.grammar.expect object with phase } := by
  obtain ⟨object, hobject, htake⟩ := s.machine.takeProperty_eq name kind text.length phase
  obtain ⟨t, ht, hm, hrest, -⟩ := passes_token text hr (hstep.trans htake)
    (by cases walkName s.machine.known name <;> first | exact hkind | nofun)
  exact ⟨t, object, ht, hrest, hobject, hm⟩

/-- What is written between brackets and leads to its end is a key. -/
theorem walks_brackets (text : List Char) (words : List Lexeme)
    (hp : s.machine.phase = .path .member resume)
    (hr : s.reader.rest = '[' :: (text ++ ']' :: k))
    (hkey : ∀ t : Scanner Lookup, t.machine = { s.machine with
        brackets := s.machine.brackets.push s.reader.offset, phase := .path .key resume } →
      t.reader.rest = text ++ ']' :: k →
      ∃ u, t.Passes text words u ∧ u.reader.rest = ']' :: k ∧ ∃ expect object phase bracket,
        (phase = .member ∨ phase = .keyEnd) ∧
        (if bracket.dynamic then none else object.map Schema.shape) = known ∧
        u.machine = { s.machine.reaching expect object with
          phase := .path phase resume, brackets := ⟨bracket :: s.machine.brackets.stack⟩ }) :
    s.Walks ('[' :: (text ++ [']']))
      (⟨.openBracket, ['[']⟩ :: (words ++ [⟨.closeBracket, [']']⟩])) known k := by
  obtain ⟨t, ht, hm, hrest, -⟩ := passes_token ['['] hr
    (Machine.step_openBracket hp hr) nofun
  obtain ⟨u, hpass, hrest', expect, object, phase, bracket, hphase, hknown, hm'⟩ := hkey t hm hrest
  obtain ⟨v, hv, hm'', hrest'', -⟩ := passes_token [']'] hrest'
    (Machine.step_closeBracket (by rw [hm']) hphase (by rw [hm']; rfl) hrest') nofun
  refine ⟨v, ht.trans (hpass.trans hv), hrest'', expect,
    if bracket.dynamic then none else object, ?_, ?_⟩
  · rw [← hknown]
    split <;> rfl
  · rw [hm'', hm', Machine.reaching, ← hp]
    rfl

section Segments

variable (hp : s.machine.phase = .path .member resume)

include hp

/-- The name of a property behind a dot. -/
theorem walks_property (name : Ident) (hr : s.reader.rest = '.' :: (name.text ++ k))
    (hk : continuesIdentifier k = false) :
    s.Walks ('.' :: name.text)
      [⟨.dot, ['.']⟩, ⟨(walkName s.machine.known name.text).kind .property, name.text⟩]
      (walkName s.machine.known name.text).known k := by
  have hstarts : startsIdentifier (name.text ++ k) = true := by
    obtain ⟨c, hc, hstart⟩ := exists_head_of_identifier? (identifier?_append name.isName hk)
    rw [startsIdentifier, hc]
    exact hstart
  obtain ⟨t, ht, hm, hrest, -⟩ := passes_token ['.'] hr (Machine.step_dot hp hr hstarts)
    (by rintro ⟨⟩)
  obtain ⟨u, object, hu, hrest, hobject, hm'⟩ := passes_name hrest
    (Machine.step_property (by rw [hm]) hrest hk) (by rintro ⟨⟩)
  rw [hm] at hu hobject hm'
  refine ⟨u, ht.trans hu, hrest, s.machine.grammar.expect, object, hobject, ?_⟩
  rw [hm', Machine.reaching, ← hp]
  rfl

/-- A string as the key is looked up as a name is. -/
theorem walks_keyString (string : StringLiteral) (hne : string.body ≠ [])
    (hf : s.machine.tag.form = .output)
    (hr : s.reader.rest = '[' :: (string.text ++ ']' :: k)) :
    s.Walks ('[' :: (string.text ++ [']'])) (⟨.openBracket, ['[']⟩ ::
        ([⟨(walkName s.machine.known string.body).kind .propertyString, string.text⟩] ++
          [⟨.closeBracket, [']']⟩]))
      (walkName s.machine.known string.body).known k := by
  refine walks_brackets _ _ hp hr fun t hm hrest => ?_
  obtain ⟨u, object, hu, hrest, hobject, hm'⟩ := passes_name hrest
    (Machine.step_keyString (by rw [hm]) (by rw [hm]; exact hf) hne hrest) (by rintro ⟨⟩)
  rw [hm] at hu hobject hm'
  exact ⟨u, hu, hrest, _, object, .keyEnd, ⟨s.reader.offset, false⟩, Or.inr rfl, hobject, hm'⟩

/-- Behind a number as the key nothing is known. -/
theorem walks_keyNumber (number : Numeral)
    (hr : s.reader.rest = '[' :: (number.text ++ ']' :: k)) :
    s.Walks ('[' :: (number.text ++ [']']))
      (⟨.openBracket, ['[']⟩ :: ([⟨.propertyNumber, number.text⟩] ++ [⟨.closeBracket, [']']⟩]))
      none k := by
  refine walks_brackets _ _ hp hr fun t hm hrest => ?_
  obtain ⟨u, hu, hm', hrest, -⟩ := passes_token _ hrest
    (Machine.step_keyNumber (by rw [hm]) hrest rfl) (by rintro ⟨⟩)
  rw [hm] at hm'
  exact ⟨u, hu, hrest, _, none, .keyEnd, ⟨s.reader.offset, false⟩, Or.inr rfl, rfl, hm'⟩

/-- A path as the key has a walk of its own, from its own head. -/
theorem walks_keyPath (head : Ident) {inner : Path} (hf : s.machine.tag.form = .output)
    (hr : s.reader.rest = '[' :: ((head.text ++ inner.print) ++ ']' :: k))
    (hinner : ∀ t : Scanner Lookup, t.machine.tag.form = .output →
      t.machine.phase = .path .member resume → t.reader.rest = inner.print ++ ']' :: k →
      t.Walks inner.print (inner.checked t.machine.grammar.dialect.objects t.machine.known)
        (inner.knownAtEnd t.machine.known) (']' :: k)) :
    let objects := s.machine.grammar.dialect.objects
    s.Walks ('[' :: ((head.text ++ inner.print) ++ [']']))
      (⟨.openBracket, ['[']⟩ :: ((⟨head.kindIn objects .variableName, head.text⟩ ::
        inner.checked objects (head.shapeIn objects)) ++ [⟨.closeBracket, [']']⟩])) none k := by
  refine walks_brackets _ _ hp hr fun t hm hrest => ?_
  rw [List.append_assoc] at hrest
  obtain ⟨u, hu, hm', hrest, -⟩ := passes_token _ hrest
    (Machine.step_keyName (by rw [hm]) hrest (continuesIdentifier_print inner rfl))
    (by rw [Ident.kindIn]; split <;> rintro ⟨⟩)
  rw [hm] at hu hm'
  obtain ⟨v, hv, hrest, expect, object, -, hm''⟩ := hinner u (by rw [hm']; exact hf) (by rw [hm'])
    hrest
  rw [hm'] at hv hm''
  -- the bracket is marked, so whatever the inner path has reached is forgotten
  exact ⟨v, hu.trans hv, hrest, expect, object, .member, ⟨s.reader.offset, true⟩, Or.inl rfl, rfl,
    hm''⟩

end Segments

/-- **A path is passed over** with its tokens, and the names reported are those of its walk. -/
theorem walks_path (p : Path) (hf : s.machine.tag.form = .output)
    (hp : s.machine.phase = .path .member resume) (hr : s.reader.rest = p.print ++ k)
    (hk : continuesIdentifier k = false) :
    s.Walks p.print (p.checked s.machine.grammar.dialect.objects s.machine.known)
      (p.knownAtEnd s.machine.known) k := by
  induction p generalizing s k with
  | nil => exact ⟨s, .refl s, hr, s.machine.grammar.expect, s.machine.grammar.object, rfl, rfl⟩
  | property name next ih =>
      have hname := walks_property hp name (k := next.print ++ k)
        (by simpa [Path.print] using hr) (continuesIdentifier_print next hk)
      exact hname.goesOn hf hp fun t hf hp hrest => ih hf hp hrest hk
  | key string hne next ih =>
      have hkey := walks_keyString hp string hne hf (k := next.print ++ k)
        (by simpa [Path.print] using hr)
      simpa [Path.print, Path.checked, Path.knownAtEnd] using
        hkey.goesOn hf hp fun t hf hp hrest => ih hf hp hrest hk
  | index number next ih =>
      have hkey := walks_keyNumber hp number (k := next.print ++ k)
        (by simpa [Path.print] using hr)
      simpa [Path.print, Path.checked, Path.knownAtEnd] using
        hkey.goesOn hf hp fun t hf hp hrest => ih hf hp hrest hk
  | path head inner next ihInner ihNext =>
      have hkey := walks_keyPath hp head hf (k := next.print ++ k)
        (by simpa [Path.print] using hr) fun t hf hp hrest => ihInner hf hp hrest rfl
      simpa [Path.print, Path.checked, Path.knownAtEnd] using
        hkey.goesOn hf hp fun t hf hp hrest => ihNext hf hp hrest hk

end Scanner

end TemplateScan
