import TemplateScan.Proofs.Scan.Expected
import TemplateScan.Proofs.Scan.NamedTags

/-! # The recognizer — each part of the language of tags begins what is expected in it

    One lemma for each part of the language, in the order in which the parts are built on one
    another: names and values, filters, conditions, loops, assignments, paths, the name of the tag.
    Each of them says that a step in a phase of the part begins the rest of the part that may follow
    there; no text is looked at beyond what the step itself looks at.

    * **`begins_expectValue`**, **`begins_stepMember`** — values, and paths inside brackets.
    * **`begins_stepSeparator`** — arguments are counted as their rules declare them.
    * **`begins_stepOpened`** — what follows the open delimiter of a tag. -/

namespace TemplateScan

open Text

namespace Machine

variable {m : Machine Lookup} {r : Reader} {a : List Lexeme → Prop} {kind : TokenKind}
  {n : Nat}

-- ── names and values ─────────────────────────────────────────────────────────────

/-- The token taken with a name is that name. -/
theorem token_name {name : List Char} (h : identifier? r.rest = some name) :
    (r.capture name.length).token = name := by
  rw [Reader.token_capture]
  exact (List.prefix_iff_eq_take.mp (identifier?_eq_some h).1).symm

/-- An identifier taken by itself begins like one. -/
theorem startsIdentifier_name {text name : List Char} (h : identifier? text = some name) :
    startsIdentifier name = true := by
  have hself := identifier?_self h
  rw [identifier?] at hself
  split at hself
  · assumption
  · cases hself

/-- A name is an object, or what its place asks for. -/
theorem referenceKind_eq (m : Machine Lookup) (name : List Char) (bare : TokenKind) :
    m.referenceKind name bare = .object ∨ m.referenceKind name bare = bare := by
  rw [referenceKind]
  split
  · exact Or.inl rfl
  · exact Or.inr rfl

/-- A name is never white space. -/
theorem isBlank_referenceKind {name : List Char} {bare : TokenKind} (h : bare.isBlank = false) :
    (m.referenceKind name bare).isBlank = false := by
  rcases referenceKind_eq m name bare with hk | hk <;> rw [hk]
  · rfl
  · exact h

/-- A name begins a path. -/
theorem begins_beginPath {name : List Char} {resume : Resume} (hk : kind.isBlank = false)
    (h : ∀ u, Then (IsPathIn m.brackets.depth) (m.Resumes resume) u →
      a (⟨kind, (r.capture name.length).token⟩ :: u)) :
    (m.beginPath name kind resume).Begins r (Then a (IsClose .closeDelimiter)) := by
  refine begins_emit hk trivial rfl fun u hu => h u ?_
  cases resume <;> exact hu

/-- Outside brackets the scan may go on with any phase behind a value. -/
theorem tidy_resume (resume : Resume) (hb : m.brackets.isEmpty = true) :
    ({ m with phase := resume.phase } : Machine Lookup).Tidy := by
  cases resume <;> exact hb

/-- What may follow a value is what its end leads to. -/
theorem begins_emit_resume {resume : Resume} (hk : kind.isBlank = false)
    (hb : m.brackets.isEmpty = true)
    (h : ∀ u, m.Resumes resume u → a (⟨kind, (r.capture n).token⟩ :: u)) :
    (m.emit kind n resume.phase).Begins r (Then a (IsClose .closeDelimiter)) := by
  refine begins_emit hk (tidy_resume resume hb) (by cases resume <;> rfl) fun u hu => h u ?_
  cases resume <;> exact hu

/-- Outside brackets a path is a path of its own. -/
theorem isPathIn_zero (hb : m.brackets.isEmpty = true) : IsPathIn m.brackets.depth = IsPath := by
  rw [Brackets.isEmpty_iff_depth.mp hb, IsPathIn]

/-- A string, a number or a truth value is a value by itself; a name is one with the path behind it.
    -/
theorem begins_value? {bare : TokenKind} {resume : Resume} {reply : Reply Lookup}
    (hbare : bare.isBlank = false) (hb : m.brackets.isEmpty = true)
    (h : m.value? bare resume r.rest = some reply) :
    reply.Begins r
      (Then (Then (IsValue bare) (m.Resumes resume)) (IsClose .closeDelimiter)) := by
  have literal {l : Lexeme} {u : List Lexeme}
      (hl : l.kind = .string ∨ l.kind = .number ∨ l.kind = .boolean)
      (hu : m.Resumes resume u) : Then (IsValue bare) (m.Resumes resume) (l :: u) :=
    ⟨[l], u, rfl, .literal hl, hu⟩
  unfold value? at h
  split at h
  · obtain rfl := Option.some.inj h
    exact begins_emit_resume rfl hb fun u hu => literal (Or.inl rfl) hu
  · obtain rfl := Option.some.inj h
    exact begins_report
  · split at h
    · obtain rfl := Option.some.inj h
      exact begins_emit_resume rfl hb fun u hu => literal (Or.inr (Or.inl rfl)) hu
    · split at h
      · obtain rfl := Option.some.inj h
        exact begins_emit_resume rfl hb fun u hu => literal (Or.inr (Or.inr rfl)) hu
      · obtain ⟨name, -, rfl⟩ := Option.map_eq_some_iff.mp h
        refine begins_beginPath (isBlank_referenceKind hbare) fun u hu => ?_
        rw [isPathIn_zero hb] at hu
        exact hu.cons fun p hp => .path (referenceKind_eq m name bare) hp

/-- Where a value is expected, one begins, with what may follow it. -/
theorem begins_expectValue {missing : Fault} {bare : TokenKind} {resume : Resume}
    (hbare : bare.isBlank = false) (hb : m.brackets.isEmpty = true) :
    (m.expectValue missing bare resume r.rest).Begins r
      (Then (Then (IsValue bare) (m.Resumes resume)) (IsClose .closeDelimiter)) := by
  unfold expectValue
  split
  · exact begins_report
  · next hclose =>
      cases hv : m.value? bare resume r.rest with
      | some reply => exact begins_value? hbare hb hv
      | none => exact begins_unexpected (Bool.eq_false_iff.mpr hclose)

-- ── filters ──────────────────────────────────────────────────────────────────────

/-- A pipe begins one more filter, and everything that may follow that; otherwise the filters have
    ended. -/
theorem begins_stepPipe (hb : m.brackets.isEmpty = true) :
    (m.stepPipe r.rest).Begins r
      (Then (IsFilters m.grammar.dialect) (IsClose .closeDelimiter)) := by
  unfold stepPipe
  split
  · refine begins_emit rfl hb rfl fun u hu => ?_
    obtain ⟨name, v, rule, rfl, hn, hr, ⟨ha, hv⟩ | ⟨colon, v, rfl, hc, hv⟩⟩ := hu
    · exact .plain rfl hn hr ha hv
    · rcases hv with ⟨u, w, rfl, hu, hw⟩ | hu
      · exact .withArguments rfl hn hr hc hu hw
      · exact .passedOver rfl hn hr hc hu
  · split
    · exact begins_close_of_nil .none
    · next hclose => exact begins_unexpected (Bool.eq_false_iff.mpr hclose)

/-- Behind a pipe the name of a filter begins what the rule of that filter asks for. -/
theorem begins_stepFilterName (hb : m.brackets.isEmpty = true) :
    (m.stepFilterName r.rest).Begins r
      (Then (AfterPipe m.grammar.dialect) (IsClose .closeDelimiter)) := by
  unfold stepFilterName
  split
  · next name hname =>
      simp only
      split
      · next hknown =>
          obtain ⟨rule, hrule⟩ := Option.isSome_iff_exists.mp hknown
          have hrule : m.grammar.dialect.filters.get? (String.ofList name) = some rule := hrule
          refine begins_emit rfl ⟨hb, rfl⟩ rfl fun u hu => ⟨_, u, rule, rfl, rfl, ?_, ?_⟩
          · rw [Lexeme.name, token_name hname]
            exact hrule
          · have hu : AfterFilterName m.grammar.dialect
                ((m.grammar.dialect.filters.get? (String.ofList name)).getD {}) u := hu
            rwa [hrule] at hu
      · exact begins_report
  · split
    · exact begins_report
    · exact begins_recover

/-- A colon begins the arguments, if the filter takes any; without one the filter has ended, if none
    of them was required. -/
theorem begins_stepColon (hb : m.brackets.isEmpty = true) (hi : m.grammar.argumentIndex = 0) :
    (m.stepColon r.rest).Begins r
      (Then (AfterFilterName m.grammar.dialect (m.grammar.filter.getD {}))
        (IsClose .closeDelimiter)) := by
  have hleft : m.grammar.argumentsLeft = (m.grammar.filter.getD {}).arguments := by
    rw [Lookup.argumentsLeft, hi, List.drop_zero]
  unfold stepColon
  split
  · split
    · next htakes =>
        have hne : m.grammar.argumentsLeft ≠ [] := by
          obtain ⟨filter, hfilter, htakes⟩ := (Option.any_eq_true _ _).mp htakes
          rw [hleft, hfilter]
          simpa [FilterRule.hasArguments] using htakes
        refine begins_emit rfl ⟨hb, hne⟩ rfl fun u hu => Or.inr ⟨_, u, rfl, rfl, ?_⟩
        rw [← hleft]
        exact hu
    · exact begins_recover
  · split
    · exact begins_report
    · next hrequires =>
        have hnone : (m.grammar.filter.getD {}).requiresArguments = false := by
          rw [Bool.not_eq_true] at hrequires
          have hrequires : m.grammar.filter.any (·.requiresArguments) = false := hrequires
          cases hf : m.grammar.filter with
          | none => rfl
          | some filter =>
              rw [hf] at hrequires
              exact hrequires
        exact (begins_stepPipe (m := m.forgetFilter) hb).imp fun u hu => Or.inl ⟨hnone, hu⟩

variable {rule : ArgumentRule} {rules : List ArgumentRule}

/-- A literal that is accepted begins the rest of the arguments. -/
theorem begins_acceptArgument {value : ValueType} (hb : m.brackets.isEmpty = true)
    (hleft : m.grammar.argumentsLeft = rule :: rules) (hk : rule.kind ≠ .named)
    (hkind : kind.literalType? = some value) :
    (m.acceptArgument value kind n).Begins r
      (Then (IsArgumentsThen m.grammar.dialect (rule :: rules)) (IsClose .closeDelimiter)) := by
  unfold acceptArgument
  split
  · next haccepts =>
      have hblank : kind.isBlank = false := by
        cases kind <;> first | rfl | cases hkind
      have haccepts : m.grammar.argument?.any (·.accepts value) = true := haccepts
      rw [Lookup.argument?_eq, hleft] at haccepts
      refine begins_emit hblank hb rfl fun u hu => ?_
      have hu : AfterArgument m.grammar.dialect m.grammar.argumentsLeft u := hu
      rw [hleft] at hu
      exact hu.behind hk (.literal hkind haccepts)
  · exact begins_report

/-- A name that is accepted begins the rest of the arguments, behind its path. -/
theorem begins_acceptReference {name : List Char} (hb : m.brackets.isEmpty = true)
    (hleft : m.grammar.argumentsLeft = rule :: rules) (hk : rule.kind ≠ .named) :
    (m.acceptReference name).Begins r
      (Then (IsArgumentsThen m.grammar.dialect (rule :: rules)) (IsClose .closeDelimiter)) := by
  unfold acceptReference
  split
  · next haccepts =>
      have haccepts : m.grammar.argument?.any (·.accepts .reference) = true := haccepts
      rw [Lookup.argument?_eq, hleft] at haccepts
      refine begins_beginPath (isBlank_referenceKind rfl) fun u hu => ?_
      rw [isPathIn_zero hb] at hu
      obtain ⟨p, w, rfl, hp, hw⟩ := hu
      have hw : AfterArgument m.grammar.dialect m.grammar.argumentsLeft w := hw
      rw [hleft] at hw
      exact hw.behind hk (.path (referenceKind_eq m name _) hp haccepts)
  · exact begins_report

/-- Each kind of value is compared with what the rule of the current argument accepts. -/
theorem begins_stepArgumentValue (hb : m.brackets.isEmpty = true)
    (hleft : m.grammar.argumentsLeft = rule :: rules) (hk : rule.kind ≠ .named) :
    (m.stepArgumentValue r.rest).Begins r
      (Then (IsArgumentsThen m.grammar.dialect (rule :: rules)) (IsClose .closeDelimiter)) := by
  unfold stepArgumentValue
  split
  · exact begins_report
  · next hclose =>
      split
      · exact begins_report
      · split
        · exact begins_acceptArgument hb hleft hk rfl
        · exact begins_report
        · split
          · exact begins_acceptArgument hb hleft hk rfl
          · exact begins_acceptArgument hb hleft hk rfl
          · split
            · exact begins_acceptArgument hb hleft hk rfl
            · split
              · exact begins_acceptReference hb hleft hk
              · exact begins_unexpected (Bool.eq_false_iff.mpr hclose)

/-- Named arguments are free text; the others are values. -/
theorem begins_stepArgument (hb : m.brackets.isEmpty = true)
    (hne : m.grammar.argumentsLeft ≠ []) :
    (m.stepArgument r.rest).Begins r
      (Then (IsArgumentsThen m.grammar.dialect m.grammar.argumentsLeft)
        (IsClose .closeDelimiter)) := by
  obtain ⟨rule, rules, hleft⟩ := List.exists_cons_of_ne_nil hne
  have hkind : Grammar.argumentKind? m.grammar = some rule.kind := by
    show m.grammar.argument?.map (·.kind) = _
    rw [Lookup.argument?_eq, hleft]
    rfl
  unfold stepArgument
  rw [hkind, hleft]
  cases hk : rule.kind with
  | named => exact begins_skipRest (fun w hw => Or.inr (.named hk hw)) hb
  | positional | spread =>
      exact begins_stepArgumentValue hb hleft (by rw [hk]; decide)

/-- The current argument may be repeated, if its rule says so. -/
theorem inSpread_eq (m : Machine Lookup) :
    m.inSpread = m.grammar.argumentsLeft.head?.any (·.kind == .spread) := by
  show (m.grammar.argument?.map (·.kind) == some .spread) = _
  rw [Lookup.argument?_eq]
  cases m.grammar.argumentsLeft.head? with
  | none => rfl
  | some rule => cases hk : rule.kind <;> simp [hk]

/-- An argument that may be repeated stays the current one. -/
theorem following_of_inSpread (h : m.inSpread = true) :
    m.grammar.argumentsLeft ≠ [] ∧
      ArgumentRule.following m.grammar.argumentsLeft = m.grammar.argumentsLeft := by
  rw [inSpread_eq] at h
  cases hleft : m.grammar.argumentsLeft with
  | nil =>
      rw [hleft] at h
      cases h
  | cons rule rules =>
      rw [hleft] at h
      exact ⟨List.cons_ne_nil _ _, if_pos h⟩

/-- Any other argument gives way to the next one. -/
theorem following_of_not_last (hs : m.inSpread = false) (hl : Grammar.isLast m.grammar = false) :
    m.nextArgument.grammar.argumentsLeft ≠ [] ∧
      ArgumentRule.following m.grammar.argumentsLeft = m.nextArgument.grammar.argumentsLeft := by
  have hl : m.grammar.isLastArgument = false := hl
  have hnext : m.nextArgument.grammar.argumentsLeft = m.grammar.argumentsLeft.tail :=
    Lookup.argumentsLeft_nextArgument hl
  rw [Lookup.isLastArgument_eq] at hl
  rw [inSpread_eq] at hs
  rw [hnext]
  refine ⟨List.isEmpty_eq_false_iff.mp hl, ?_⟩
  cases hleft : m.grammar.argumentsLeft with
  | nil => rfl
  | cons rule rules =>
      rw [hleft] at hs
      exact if_neg (Bool.eq_false_iff.mp hs)

/-- The list may end behind an argument that may be repeated, or behind the last one. -/
theorem mayEnd_of_last (h : (m.inSpread || Grammar.isLast m.grammar) = true) :
    ArgumentRule.mayEnd m.grammar.argumentsLeft = true := by
  have h : (m.inSpread || m.grammar.isLastArgument) = true := h
  rw [inSpread_eq, Lookup.isLastArgument_eq] at h
  cases hleft : m.grammar.argumentsLeft with
  | nil => rfl
  | cons rule rules =>
      rw [hleft] at h
      cases rules with
      | nil => simp [ArgumentRule.mayEnd]
      | cons next rules => simpa [ArgumentRule.mayEnd] using Or.inl h

/-- The list may end before an argument that may be left out. -/
theorem mayEnd_of_optional (hl : Grammar.isLast m.grammar = false)
    (hr : Grammar.isRequired m.nextArgument.grammar = false) :
    ArgumentRule.mayEnd m.grammar.argumentsLeft = true := by
  have hr : m.nextArgument.grammar.argument?.any (·.required) = false := hr
  have hnext : m.nextArgument.grammar.argumentsLeft = m.grammar.argumentsLeft.tail :=
    Lookup.argumentsLeft_nextArgument hl
  rw [Lookup.argument?_eq, hnext] at hr
  cases hleft : m.grammar.argumentsLeft with
  | nil => rfl
  | cons rule rules =>
      rw [hleft] at hr
      simp [ArgumentRule.mayEnd, show rules.head?.any (·.required) = false from hr]

/-- Going on to the next argument leaves the dialect alone. -/
theorem dialect_nextArgument (m : Machine Lookup) :
    m.nextArgument.grammar.dialect = m.grammar.dialect :=
  Lookup.dialect_of_moves (.nextArgument .refl)

/-- A comma leads on to the next argument, or back to the one that may be repeated; without a comma
    the arguments have ended, and they may end there. -/
theorem begins_stepSeparator (hb : m.brackets.isEmpty = true) :
    (m.stepSeparator r.rest).Begins r
      (Then (AfterArgument m.grammar.dialect m.grammar.argumentsLeft)
        (IsClose .closeDelimiter)) := by
  unfold stepSeparator
  split
  · split
    · next hspread =>
        obtain ⟨hne, hfollowing⟩ := following_of_inSpread hspread
        refine begins_emit rfl ⟨hb, hne⟩ rfl fun u hu => Or.inr ⟨_, u, rfl, rfl, ?_⟩
        rw [hfollowing]
        exact hu
    · next hspread =>
        split
        · exact begins_recover
        · next hlast =>
            obtain ⟨hne, hfollowing⟩ := following_of_not_last
              (Bool.eq_false_iff.mpr hspread) (Bool.eq_false_iff.mpr hlast)
            refine begins_emit rfl ⟨hb, hne⟩ rfl fun u hu => Or.inr ⟨_, u, rfl, rfl, ?_⟩
            rw [hfollowing, ← dialect_nextArgument m]
            exact hu
  · split
    · split
      · next hend =>
          exact (begins_stepPipe (m := m.forgetFilter) hb).imp fun u hu =>
            Or.inl ⟨mayEnd_of_last hend, hu⟩
      · next hnot =>
          rw [Bool.not_eq_true, Bool.or_eq_false_iff] at hnot
          split
          · exact begins_report
          · next hrequired =>
              have hnext : Grammar.hasNext m.grammar = true := by
                show (!m.grammar.isLastArgument) = true
                exact Bool.not_eq_true' _ |>.mpr hnot.2
              rw [hnext, Bool.true_and, Bool.not_eq_true] at hrequired
              -- the list ends here by the rule of the next argument, which may be left out
              have hend := mayEnd_of_optional hnot.2 hrequired
              refine (begins_stepPipe (m := m.nextArgument.forgetFilter) hb).imp fun u hu =>
                Or.inl ⟨hend, ?_⟩
              rw [← dialect_nextArgument m]
              exact hu
    · next hclose =>
        split
        · rw [Bool.or_eq_true, not_or] at hclose
          exact begins_close_of_not_atClose (Bool.eq_false_iff.mpr hclose.1)
        · exact begins_recover

-- ── conditions ───────────────────────────────────────────────────────────────────

theorem begins_stepCondition (hb : m.brackets.isEmpty = true) :
    (m.stepCondition r.rest).Begins r (Then IsCondition (IsClose .closeDelimiter)) :=
  begins_expectValue rfl hb

/-- An operator or a comma begins one more operand; otherwise the condition has ended. -/
theorem begins_stepOperator (hb : m.brackets.isEmpty = true) :
    (m.stepOperator r.rest).Begins r (Then IsOperands (IsClose .closeDelimiter)) := by
  have operand {l : Lexeme} {u : List Lexeme}
      (hl : l.kind = .controlOperator ∨ l.kind = .separator) (hu : IsCondition u) :
      IsOperands (l :: u) := by
    obtain ⟨v, w, rfl, hv, hw⟩ := hu
    exact .more hl hv hw
  unfold stepOperator
  split
  · exact begins_close_of_nil .none
  · split
    · exact begins_emit rfl hb rfl fun u hu => operand (Or.inl rfl) hu
    · split
      · exact begins_emit rfl hb rfl fun u hu => operand (Or.inr rfl) hu
      · exact begins_recover

/-- The rule of the tag says whether a condition follows its name. -/
theorem begins_stepControlStart (hb : m.brackets.isEmpty = true) :
    (m.stepControl .start r.rest).Begins r
      (Then (fun w => if m.grammar.rule.arguments then IsCondition w else w = [])
        (IsClose .closeDelimiter)) := by
  unfold stepControl
  dsimp only
  rw [Lookup.hasArguments_eq]
  split
  · exact begins_stepCondition hb
  · exact begins_close_of_nil rfl

-- ── loops ────────────────────────────────────────────────────────────────────────

/-- The variable begins the whole loop. -/
theorem begins_stepLoopVariable (hb : m.brackets.isEmpty = true) :
    (m.stepLoopVariable r.rest).Begins r
      (Then (IsLoop m.grammar.rule) (IsClose .closeDelimiter)) := by
  unfold stepLoopVariable
  split
  · refine begins_emit rfl hb rfl fun u hu => ?_
    obtain ⟨operator, v, rfl, ho, v, w, rfl, hv, hw⟩ := hu
    exact .intro rfl ho hv hw
  · split
    · exact begins_report
    · exact begins_recover

/-- The word behind the variable begins the collection and the parameters. -/
theorem begins_stepLoopOperator (hb : m.brackets.isEmpty = true) :
    (m.stepLoopOperator r.rest).Begins r
      (Then (Begin .loopOperator (Then (IsOperand .collection) (IsParameters m.grammar.rule)))
        (IsClose .closeDelimiter)) := by
  unfold stepLoopOperator
  split
  · exact begins_emit rfl hb rfl fun u hu => ⟨_, u, rfl, rfl, hu⟩
  · split
    · exact begins_report
    · exact begins_recover

/-- A name is an operand with the path behind it. -/
theorem begins_operand {name : List Char} (hb : m.brackets.isEmpty = true)
    (hk : kind.isBlank = false) (hname : identifier? r.rest = some name) :
    (m.beginPath name kind .parameters).Begins r
      (Then (Then (IsOperand kind) (IsParameters m.grammar.rule)) (IsClose .closeDelimiter)) := by
  refine begins_beginPath hk fun u hu => ?_
  rw [isPathIn_zero hb] at hu
  refine hu.cons fun p hp => .path rfl ?_ hp
  rw [token_name hname]
  exact startsIdentifier_name hname

/-- A range is a collection by itself; a name is one with the path behind it. -/
theorem begins_stepCollection (hb : m.brackets.isEmpty = true) :
    (m.stepCollection r.rest).Begins r
      (Then (Then (IsOperand .collection) (IsParameters m.grammar.rule))
        (IsClose .closeDelimiter)) := by
  unfold stepCollection
  split
  · exact begins_report
  · split
    · unfold stepRange
      split
      · dsimp only
        split
        · exact begins_emit rfl hb rfl fun u hu => ⟨[_], u, rfl, .plain rfl, hu⟩
        · exact begins_report
      · exact begins_recover
    · split
      · next hname => exact begins_operand hb rfl hname
      · exact begins_recover

/-- The characters of names are printed ones, apart from the colon. -/
theorem toNat_of_isIdentifierChar {c : Char} (h : isIdentifierChar c = true) :
    0x20 < c.toNat ∧ c.toNat < 0x85 ∧ c ≠ ':' := by
  have hcolon : c ≠ ':' := by
    rintro rfl
    cases h
  simp only [isIdentifierChar, Bool.or_eq_true] at h
  delta Char.isAlphanum Char.isAlpha Char.isUpper Char.isLower Char.isDigit at h
  simp only [Bool.or_eq_true, Bool.and_eq_true, decide_eq_true_eq, beq_iff_eq,
    UInt32.le_iff_toNat_le, ge_iff_le] at h
  have hval : c.toNat = c.val.toNat := rfl
  refine ⟨?_, ?_, hcolon⟩
  · rcases h with ((((h | h) | h) | rfl) | rfl) | rfl
    all_goals first | decide | (simp at h; omega)
  · rcases h with ((((h | h) | h) | rfl) | rfl) | rfl
    all_goals first | decide | (simp at h; omega)

/-- Behind blanks the last character that is not blank stays the same. -/
theorem afterColon_blanks (h : ∀ c ∈ r.rest.take n, isBlank c = true) :
    afterColon (r.capture n) = afterColon r := by
  have hbehind : (r.capture n).behind = (r.rest.take n).reverse ++ r.behind := rfl
  rw [afterColon, afterColon, hbehind,
    List.dropWhile_append_of_pos fun c hc => h c (List.mem_reverse.mp hc)]

/-- No colon stands right behind a name. -/
theorem afterColon_name {name : List Char} (h : identifier? r.rest = some name) :
    afterColon (r.capture name.length) = false := by
  obtain ⟨hpre, hpos, hchars⟩ := identifier?_eq_some h
  have hbehind : (r.capture name.length).behind = name.reverse ++ r.behind := by
    show (r.rest.take name.length).reverse ++ r.behind = _
    rw [← List.prefix_iff_eq_take.mp hpre]
  cases hr : name.reverse with
  | nil =>
      rw [List.reverse_eq_nil_iff.mp hr] at hpos
      cases hpos
  | cons c cs =>
      have hc : c ∈ name := List.mem_reverse.mp (hr ▸ List.mem_cons_self ..)
      obtain ⟨hlow, hhigh, hcolon⟩ := toNat_of_isIdentifierChar (hchars c hc)
      have hblank : isBlank c = false := by
        simp only [isBlank, blankRanges, List.any_cons, List.any_nil, Bool.or_false,
          Bool.or_eq_false_iff, Bool.and_eq_false_iff, decide_eq_false_iff_not]
        omega
      rw [afterColon, hbehind, hr, List.cons_append, List.dropWhile_cons_of_neg (by simp [hblank])]
      simp [hcolon]

/-- A parameter is a flag, or a value follows it, as the rule of the tag declares. -/
theorem begins_stepParameter (hb : m.brackets.isEmpty = true) :
    (m.stepParameter r.rest).Begins r
      (Then (IsParameters m.grammar.rule) (IsClose .closeDelimiter)) := by
  unfold stepParameter
  split
  · exact begins_close_of_nil .none
  · next hclose =>
      split
      · next name hname =>
          rw [Lookup.parameter?_eq]
          split
          · next hvalue =>
              refine begins_emit rfl hb rfl fun u hu => ?_
              have hu : AfterParameter m.grammar.rule (afterColon (r.capture name.length)) u := hu
              rw [afterColon_name hname] at hu
              obtain ⟨colons, v, w, rfl, hne, hc, hv, hw⟩ := hu
              refine .valued rfl ?_ (hne rfl) hc hv hw
              rw [Lexeme.name, token_name hname]
              exact hvalue
          · next hflag =>
              refine begins_emit rfl hb rfl fun u hu => .flag rfl ?_ hu
              rw [Lexeme.name, token_name hname]
              exact hflag
          · exact begins_report
      · exact begins_unexpected (Bool.eq_false_iff.mpr hclose)

/-- A colon begins the value of a parameter, and so does every further colon; the value itself
    follows a colon only. -/
theorem begins_stepParameterValue (hb : m.brackets.isEmpty = true) :
    (m.stepParameterValue r).Begins r
      (Then (AfterParameter m.grammar.rule (afterColon r)) (IsClose .closeDelimiter)) := by
  have value {w : List Lexeme} (hcolon : afterColon r = true)
      (hw : Then (IsOperand .parameterValue) (IsParameters m.grammar.rule) w) :
      AfterParameter m.grammar.rule (afterColon r) w := by
    obtain ⟨v, u, rfl, hv, hu⟩ := hw
    exact ⟨[], v, u, rfl, fun h => absurd (hcolon.symm.trans h) (by decide), nofun, hv, hu⟩
  unfold stepParameterValue
  split
  · refine begins_emit rfl hb rfl fun u hu => ?_
    obtain ⟨colons, v, w, rfl, -, hc, hv, hw⟩ := hu
    refine ⟨_ :: colons, v, w, rfl, fun _ => List.cons_ne_nil _ _, fun l hl => ?_, hv, hw⟩
    rcases List.mem_cons.mp hl with rfl | hl
    · rfl
    · exact hc l hl
  · split
    · exact begins_report
    · split
      · exact begins_recover
      · next hcolon =>
          have hcolon : afterColon r = true := by simpa using hcolon
          split
          · exact begins_emit rfl hb rfl fun u hu =>
              value hcolon ⟨[_], u, rfl, .plain rfl, hu⟩
          · split
            · next hname => exact (begins_operand hb rfl hname).imp fun u hu => value hcolon hu
            · exact begins_recover

-- ── assignments ──────────────────────────────────────────────────────────────────

/-- The name begins the assignment. -/
theorem begins_stepAssignedName (hb : m.brackets.isEmpty = true) :
    (m.stepAssignedName r.rest).Begins r
      (Then (IsAssignment m.grammar.dialect m.grammar.rule) (IsClose .closeDelimiter)) := by
  unfold stepAssignedName
  split
  · refine begins_emit rfl hb rfl fun u hu => ?_
    rcases hu with ⟨rfl, hr⟩ | ⟨operator, v, rfl, ho, hv⟩
    · exact .bare rfl hr
    · exact .valued rfl ho hv
  · split
    · exact begins_report
    · exact begins_recover

/-- The operator begins the value; without one the assignment has ended, if the tag allows that. -/
theorem begins_stepAssignmentOperator (hb : m.brackets.isEmpty = true) :
    (m.stepAssignmentOperator r.rest).Begins r
      (Then (AfterAssigned m.grammar.dialect m.grammar.rule) (IsClose .closeDelimiter)) := by
  unfold stepAssignmentOperator
  split
  · exact begins_emit rfl hb rfl fun u hu => Or.inr ⟨_, u, rfl, rfl, hu⟩
  · split
    · split
      · exact begins_report
      · next hmust =>
          refine begins_close_of_nil (Or.inl ⟨rfl, ?_⟩)
          rw [mustAssign, Lookup.hasArguments_eq, Lookup.isBlock_eq] at hmust
          cases ha : m.grammar.rule.arguments with
          | false => exact Or.inl rfl
          | true => exact Or.inr (by simpa [ha] using hmust)
    · exact begins_recover

-- ── paths ────────────────────────────────────────────────────────────────────────

variable {resume : Resume}

/-- Behind a value goes on what the value is part of. -/
theorem begins_stepResume (hb : m.brackets.isEmpty = true) :
    (m.stepResume resume r.rest).Begins r
      (Then (m.Resumes resume) (IsClose .closeDelimiter)) := by
  cases resume with
  | filters => exact begins_stepPipe hb
  | condition => exact begins_stepOperator hb
  | parameters => exact begins_stepParameter hb
  | arguments => exact begins_stepSeparator hb

/-- A property that is not reported begins the rest of its path. -/
theorem begins_takeProperty {name : List Char} {path : PathPhase}
    (hk : kind.isBlank = false)
    (ht : ({ m with phase := .path path resume } : Machine Lookup).Tidy)
    (h : ∀ u, ({ m with phase := .path path resume } : Machine Lookup).Remainder r u →
      a (⟨kind, (r.capture n).token⟩ :: u)) :
    (m.takeProperty name kind n (.path path resume)).Begins r
      (Then a (IsClose .closeDelimiter)) := by
  unfold takeProperty
  dsimp only
  split
  · exact begins_report
  · obtain ⟨object, hobject⟩ := m.grammar.enterProperty_eq (String.ofList name)
    have hobject : Grammar.enterProperty m.grammar (String.ofList name) =
        { m.grammar with object } := hobject
    rw [hobject]
    refine begins_emit hk ?_ rfl fun u hu => h u ?_
    · cases path <;> exact ht
    · cases path <;> cases resume <;> exact hu

/-- A closing bracket begins the rest of the path around it. -/
theorem begins_stepKeyEnd (hb : m.brackets.isEmpty = false) :
    (m.stepKeyEnd resume r.rest).Begins r
      (Then (Then (Begin .closeBracket (IsPathIn (m.brackets.depth - 1))) (m.Resumes resume))
        (IsClose .closeDelimiter)) := by
  unfold stepKeyEnd
  split
  · split
    · exact begins_recover
    · dsimp only
      split
      all_goals
        refine begins_emit rfl trivial rfl fun u hu => ?_
        have hu : Then (IsPathIn m.brackets.pop.depth) (m.Resumes resume) u := by
          cases resume <;> exact hu
        rw [Brackets.depth_pop] at hu
        exact hu.cons fun p hp => ⟨_, p, rfl, rfl, hp⟩
  · split
    · exact begins_close_of_bracket hb
    · exact begins_recover

/-- A dot or a bracket goes on with the path; otherwise it has ended, inside a bracket with that
    bracket. -/
theorem begins_stepMember :
    (m.stepMember resume r).Begins r
      (Then (Then (IsPathIn m.brackets.depth) (m.Resumes resume)) (IsClose .closeDelimiter)) := by
  unfold stepMember
  split
  · split
    · refine begins_emit rfl trivial rfl fun u hu => ?_
      have hu : Then (Begin .property (IsPathIn m.brackets.depth)) (m.Resumes resume) u := by
        cases resume <;> exact hu
      refine hu.cons fun p hp => ?_
      obtain ⟨name, v, rfl, hn, hv⟩ := hp
      exact hv.behind (x := [_, name]) fun q hq => .property rfl hn hq
    · split
      · exact begins_recover
      · exact begins_recover
  · refine begins_emit rfl rfl rfl fun u hu => ?_
    have hu : Then (IsKeyIn (m.brackets.depth + 1)) (m.Resumes resume) u := by
      cases resume <;> exact hu
    exact hu.cons fun p hp => hp.behind rfl
  · split
    · next hb =>
        -- inside a bracket the path ends with that bracket, or not at all
        rw [Bool.not_eq_true'] at hb
        refine (begins_stepKeyEnd hb).imp fun u hu => hu.imp fun v hv => ?_
        have hdepth : m.brackets.depth = (m.brackets.depth - 1) + 1 := by
          have : m.brackets.depth ≠ 0 := fun h =>
            absurd (hb.symm.trans (Brackets.isEmpty_iff_depth.mpr h)) (by decide)
          omega
        rw [hdepth]
        exact .of_nil .nil hv
    · next hb =>
        rw [Bool.not_eq_true, Bool.not_eq_false'] at hb
        split
        · exact begins_recover
        · refine (begins_stepResume (m := m.releaseObject) hb).imp fun u hu => .of_nil ?_ ?_
          · rw [isPathIn_zero hb]
            exact .nil
          · cases resume <;> exact hu

/-- Behind a dot the name of a property begins the rest of the path. -/
theorem begins_stepDot :
    (m.stepDot resume r.rest).Begins r
      (Then (Then (Begin .property (IsPathIn m.brackets.depth)) (m.Resumes resume))
        (IsClose .closeDelimiter)) := by
  unfold stepDot
  split
  · refine begins_takeProperty rfl trivial fun u hu => ?_
    have hu : Then (IsPathIn m.brackets.depth) (m.Resumes resume) u := by
      cases resume <;> exact hu
    exact hu.cons fun p hp => ⟨_, p, rfl, rfl, hp⟩
  · exact begins_recover

/-- A string or a number is a key by itself; a name begins a path one bracket further in. -/
theorem begins_stepKey (hb : m.brackets.isEmpty = false) :
    (m.stepKey resume r.rest).Begins r
      (Then (Then (IsKeyIn m.brackets.depth) (m.Resumes resume)) (IsClose .closeDelimiter)) := by
  have keyEnd {l : Lexeme} {u : List Lexeme}
      (hl : l.kind = .propertyString ∨ l.kind = .propertyNumber)
      (hu : Then (Begin .closeBracket (IsPathIn (m.brackets.depth - 1))) (m.Resumes resume) u) :
      Then (IsKeyIn m.brackets.depth) (m.Resumes resume) (l :: u) :=
    hu.cons fun p hp => ⟨l, p, rfl, Or.inl ⟨hl, hp⟩⟩
  unfold stepKey
  split
  · exact begins_report
  · split
    · exact begins_report
    · next hclose =>
        split
        · dsimp only
          split
          · exact begins_report
          · refine begins_takeProperty rfl hb fun u hu => keyEnd (Or.inl rfl) ?_
            cases resume <;> exact hu
        · exact begins_report
        · dsimp only
          split
          · refine begins_emit rfl hb rfl fun u hu => keyEnd (Or.inr rfl) ?_
            cases resume <;> exact hu
          · split
            · next name hname =>
                refine begins_beginPath (isBlank_referenceKind rfl) fun u hu => ?_
                have hu : Then (IsPathIn m.brackets.markDynamic.depth) (m.Resumes resume) u := by
                  cases resume <;> exact hu
                rw [Brackets.depth_markDynamic] at hu
                exact hu.cons fun p hp =>
                  ⟨_, p, rfl, Or.inr ⟨referenceKind_eq _ name .variableName, hp⟩⟩
            · exact begins_unexpected (Bool.eq_false_iff.mpr hclose)

-- ── names of tags ────────────────────────────────────────────────────────────────

/-- A name and what the rule of its tag asks for behind it. -/
def IsCallOf (dialect : Dialect) (rule : TagRule) (name : List Char) (w : List Lexeme) : Prop :=
  ∃ l v, w = l :: v ∧ l.text = name ∧ IsCall dialect rule l.kind v

/-- The name of a tag that the dialect knows goes on as its rule says. -/
theorem begins_named {rule : TagRule} {name : List Char} (hb : m.brackets.isEmpty = true)
    (hrule : m.grammar.tagRule? = some rule) (hname : identifier? r.rest = some name) :
    (m.emit m.identity.1 name.length m.identity.2).Begins r
      (Then (IsCallOf m.grammar.dialect rule name) (IsClose .closeDelimiter)) := by
  have hcurrent : m.grammar.rule = rule := by
    rw [Lookup.rule, hrule]
    rfl
  have htext := token_name hname
  rw [identity_eq hrule, TagRule.identity]
  cases hs : rule.singular with
  | true => exact begins_emit rfl hb rfl fun u hu => ⟨_, u, rfl, htext, .singular hs hu⟩
  | false =>
      cases hk : rule.kind with
      | comment => exact begins_emit rfl hb rfl fun u hu => ⟨_, u, rfl, htext, .comment hs hk hu⟩
      | raw => exact begins_emit rfl hb rfl fun u hu => ⟨_, u, rfl, htext, .raw hs hk hu⟩
      | embedded =>
          exact begins_emit rfl hb rfl fun u hu =>
            ⟨_, u, rfl, htext, .embedded hs hk (hcurrent ▸ hu)⟩
      | control =>
          refine begins_emit rfl hb rfl fun u hu => ⟨_, u, rfl, htext, ?_⟩
          have hu : if m.grammar.rule.arguments then IsCondition u else u = [] := hu
          rw [hcurrent] at hu
          split at hu
          · next ha => exact .control hs hk ha hu
          · next ha =>
              subst hu
              exact .bareControl hs hk (Bool.eq_false_iff.mpr ha)
      | iteration =>
          exact begins_emit rfl hb rfl fun u hu =>
            ⟨_, u, rfl, htext, .iteration hs hk (hcurrent ▸ hu)⟩
      | assignment =>
          exact begins_emit rfl hb rfl fun u hu =>
            ⟨_, u, rfl, htext, .assignment hs hk (hcurrent ▸ hu)⟩
      | output => exact begins_emit rfl hb rfl fun u hu => ⟨_, u, rfl, htext, .output hs hk hu⟩
      | inclusion | other =>
          have hkind : rule.kind = .inclusion ∨ rule.kind = .other := by simp [hk]
          dsimp only
          cases ha : rule.arguments with
          | true =>
              refine begins_emit rfl hb rfl fun u hu => ⟨_, u, rfl, htext, .other hs hkind ?_⟩
              rw [IsFreeText, ha]
              exact hu
          | false =>
              -- the phase expects the close delimiter at once, and no remainder before it
              refine fun _ => ⟨hb, .startTag, rfl, rfl, fun w hw =>
                ⟨[_], w, rfl, ⟨_, [], rfl, htext, .other hs hkind ?_⟩, isClose_of_closes hw⟩⟩
              rw [IsFreeText, ha]
              rfl

/-- A tag in the right place goes on as its rule says; elsewhere it is reported. -/
theorem begins_takeStartTag {rule : TagRule} {name : List Char} {d : Document}
    (hb : m.brackets.isEmpty = true) (hrule : m.grammar.tagRule? = some rule)
    (hname : identifier? r.rest = some name) :
    (m.takeStartTag name d).Begins r
      (Then (IsCallOf m.grammar.dialect rule name) (IsClose .closeDelimiter)) := by
  unfold takeStartTag
  dsimp only
  by_cases hmisplaced : m.isMisplaced = true
  · rw [if_pos hmisplaced]
    exact begins_report
  · rw [if_neg hmisplaced]
    exact begins_named (m := { m with
      blocks := if Grammar.isBlock m.grammar then m.blocks.push (m.openedBlock name d) else m.blocks
      body := (m.bodyKind?.map (Body.mk name)).or m.body }) hb hrule hname

/-- A name that the dialect knows goes on as its rule says, an unknown one with free text, a hash
    with a note. -/
theorem begins_stepTagName (hb : m.brackets.isEmpty = true) :
    (m.stepTagName r).Begins r
      (Then (IsStatement m.grammar.dialect) (IsClose .closeDelimiter)) := by
  unfold stepTagName
  split
  · exact begins_report
  · split
    · next hhash =>
        refine fun _ => ⟨hb, .comment, rfl, rfl, fun w hw =>
          ⟨[_], w, rfl, .note rfl ?_, isClose_of_closes hw⟩⟩
        show (r.capture (recoveryEnd m.tag.form r.rest)).token.head? = some '#'
        rw [Reader.token_capture, List.head?_take, if_neg, hhash]
        have hpos : 0 < recoveryEnd m.tag.form r.rest :=
          recoveryEnd_pos hhash (by decide) (by decide)
        omega
    · split
      · exact begins_recover
      · next name hname =>
          dsimp only
          split
          · next hknown =>
              obtain ⟨rule, hrule⟩ := Option.isSome_iff_exists.mp hknown
              have hrule : m.grammar.dialect.tags.get? (String.ofList name) = some rule := hrule
              have hcurrent : (Grammar.resolve (Grammar.setExpect m.grammar .tag)
                  (String.ofList name)).tagRule? = some rule := by
                show ((m.grammar.dialect.tags.get? (String.ofList name)).map
                  fun rule => (String.ofList name, rule)).map (·.2) = _
                rw [hrule]
                rfl
              refine (begins_takeStartTag (m := { m with
                grammar := Grammar.resolve (Grammar.setExpect m.grammar .tag) (String.ofList name) })
                hb hcurrent hname).imp fun u hu => ?_
              obtain ⟨l, v, rfl, htext, hv⟩ := hu
              refine .known ?_ hv
              rw [Lexeme.name, htext]
              exact hrule
          · next hunknown =>
              refine begins_emit rfl hb rfl fun u hu => .unknown rfl ?_ hu
              rw [Lexeme.name, token_name hname]
              exact Option.not_isSome_iff_eq_none.mp hunknown

/-- Behind the name of an embedded tag stands free text, if the tag takes arguments. -/
theorem begins_stepEmbedded (hb : m.brackets.isEmpty = true) :
    (m.stepEmbedded r.rest).Begins r
      (Then (IsFreeText m.grammar.rule) (IsClose .closeDelimiter)) := by
  unfold stepEmbedded
  rw [Lookup.hasArguments_eq]
  split
  · next ha => exact begins_skipRest (fun w hw => (if_pos ha).mpr hw) hb
  · next ha => exact begins_close_of_nil ((if_neg ha).mpr rfl)

/-- What follows the open delimiter begins a tag, with the trim dash right behind it or without. -/
theorem begins_stepOpened (hp : m.phase = .opened) (hb : m.brackets.isEmpty = true) :
    (m.stepOpened r).Begins r (m.Expected r) := by
  have inner {reply : Reply Lookup}
      (h : reply.Begins r (IsInner m.grammar.dialect m.tag.form)) :
      reply.Begins r (m.Expected r) := by
    intro hf
    obtain ⟨ht, kind, he, hk, hnext⟩ := h hf
    refine ⟨ht, kind, he, hk, fun w hw => ?_⟩
    rw [Expected, hp]
    dsimp only
    split
    · exact .of_nil (Or.inl rfl) (hnext w hw)
    · exact hnext w hw
  have statement (hf : m.tag.form = .statement) :
      (m.stepTagName r).Begins r (IsInner m.grammar.dialect m.tag.form) := by
    intro hfault
    obtain ⟨ht, kind, he, hk, hnext⟩ := begins_stepTagName (r := r) hb hfault
    exact ⟨ht, kind, he, hk, fun w hw => hf ▸ .statement (hnext w hw)⟩
  unfold stepOpened
  split
  · next hdash =>
      -- behind the dash no other one is taken
      have hbehind : ¬ (r.capture 1).offset ≤ m.tag.start + m.tag.form.opener.length := by
        obtain ⟨tail, hrest⟩ := List.head?_eq_some_iff.mp hdash.2
        have hone : byteSize (('-' :: tail).take 1) = 1 := rfl
        rw [Reader.offset_capture, Reader.offsetAt, hrest, hone, hdash.1]
        omega
      refine fun _ => ⟨hb, .trimLeft, rfl, rfl, fun w hw => ?_⟩
      rw [Expected, hp]
      dsimp only
      rw [if_pos (Nat.le_of_eq hdash.1)]
      refine ⟨[_], w, rfl, Or.inr ⟨_, rfl, rfl⟩, ?_⟩
      have hw : (if (r.capture 1).offset ≤ m.tag.start + m.tag.form.opener.length then
          Then (Maybe .trimLeft) (IsInner m.grammar.dialect m.tag.form)
        else IsInner m.grammar.dialect m.tag.form) w := hw
      rwa [if_neg hbehind] at hw
  · refine inner ?_
    split
    · next hf => exact fun _ => ⟨hb, .outputTag, rfl, rfl, fun w hw => hf ▸ .output rfl hw⟩
    · next hf =>
        split
        · split
          · refine fun _ => ⟨hb, .endTag, rfl, rfl, fun w hw => ?_⟩
            rw [hf]
            exact .ending rfl (isClose_of_closes hw)
          · exact statement hf
        · exact statement hf

end Machine

end TemplateScan
