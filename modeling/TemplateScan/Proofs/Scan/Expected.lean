import TemplateScan.Proofs.Scan.EndTag
import TemplateScan.Proofs.Scan.TagGrammar

/-! # Expectations — what each phase of a tag still accepts

    `Machine.Expected` says which sequences of tokens may follow in each phase, when no fault is
    found any more.  It is stated in the terms of the grammar of tags, with the rest of a part where
    the phase lies inside of it, and with the brackets still open where it lies inside a path.

    A reply **begins** a language when it carries a fault, or when its token, put in front of
    anything that its machine still expects, gives a sequence of the language.

    * **`Machine.Expected`** — what may follow in each phase.
    * **`Machine.Tidy`** — what is known about brackets and arguments while no fault is found.
    * **`Reply.Begins`** — the relation of a reply to what was expected before it.
    * **`begins_close`** — the end of a tag begins whatever may end there. -/

namespace TemplateScan

open Text

-- ── the rules that a lookup has reached ──────────────────────────────────────────

namespace Lookup

/-- The rule of the current tag, or the one without any content. -/
def rule (l : Lookup) : TagRule :=
  l.tagRule?.getD {}

/-- The rules of the arguments that are left to the current filter, the current one first. -/
def argumentsLeft (l : Lookup) : List ArgumentRule :=
  (l.filter.getD {}).arguments.drop l.argumentIndex

/-- The current argument is the first of those that are left. -/
theorem argument?_eq (l : Lookup) : l.argument? = l.argumentsLeft.head? := by
  rw [argument?, argumentsLeft, List.head?_drop]
  cases l.filter <;> rfl

/-- The argument is the last one when none is left behind it. -/
theorem isLastArgument_eq (l : Lookup) : l.isLastArgument = l.argumentsLeft.tail.isEmpty := by
  rw [isLastArgument, argumentsLeft, List.tail_drop]
  cases l.filter with
  | none => simp
  | some filter =>
      rw [Option.all_some, Option.getD_some, Bool.eq_iff_iff, decide_eq_true_iff,
        List.isEmpty_iff, List.drop_eq_nil_iff]

/-- Going on leaves one argument less. -/
theorem argumentsLeft_nextArgument {l : Lookup} (h : l.isLastArgument = false) :
    l.nextArgument.argumentsLeft = l.argumentsLeft.tail := by
  rw [nextArgument, h, argumentsLeft, argumentsLeft, List.tail_drop]
  rfl

/-- What is asked about the arguments of the current tag is answered by its rule. -/
theorem hasArguments_eq (l : Lookup) : Grammar.hasArguments l = l.rule.arguments := by
  show l.tagRule?.any (·.arguments) = _
  rw [rule]
  cases l.tagRule? <;> rfl

/-- The rule of the tag says whether it opens a block. -/
theorem isBlock_eq (l : Lookup) : Grammar.isBlock l = l.rule.block := by
  show l.tagRule?.any (·.block) = _
  rw [rule]
  cases l.tagRule? <;> rfl

/-- The rule of the tag lists its parameters. -/
theorem parameter?_eq (l : Lookup) (name : String) :
    Grammar.parameter? l name = l.rule.parameter? name := by
  show l.tagRule?.bind (·.parameter? name) = _
  rw [rule]
  cases l.tagRule? <;> rfl

end Lookup

-- ── the rest of a part ───────────────────────────────────────────────────────────

/-- One lexeme of the given kind, and a sequence of a language behind it. -/
def Begin (kind : TokenKind) (b : List Lexeme → Prop) (w : List Lexeme) : Prop :=
  ∃ l v, w = l :: v ∧ l.kind = kind ∧ b v

/-- The rest of a path inside the given number of brackets, and of the paths around them. -/
def IsPathIn : Nat → List Lexeme → Prop
  | 0 => IsPath
  | depth + 1 => Then IsPath (Begin .closeBracket (IsPathIn depth))

/-- The same rest from the key in the innermost bracket on. -/
def IsKeyIn (depth : Nat) (w : List Lexeme) : Prop :=
  ∃ key v, w = key :: v ∧
    ((key.kind = .propertyString ∨ key.kind = .propertyNumber) ∧
        Begin .closeBracket (IsPathIn (depth - 1)) v ∨
      (key.kind = .object ∨ key.kind = .variableName) ∧ IsPathIn depth v)

/-- What may stand before the rest of a path may stand before the rest of it and of the paths
    around it. -/
theorem IsPathIn.behind {depth : Nat} {x w : List Lexeme} (h : IsPathIn depth w)
    (hx : ∀ p, IsPath p → IsPath (x ++ p)) : IsPathIn depth (x ++ w) := by
  cases depth with
  | zero => exact hx w h
  | succ depth =>
      obtain ⟨u, v, rfl, hu, hv⟩ := h
      exact ⟨x ++ u, v, (List.append_assoc ..).symm, hx u hu, hv⟩

/-- A bracket opens one more path around what follows. -/
theorem IsKeyIn.behind {depth : Nat} {bracket : Lexeme} {w : List Lexeme}
    (hb : bracket.kind = .openBracket) (h : IsKeyIn (depth + 1) w) :
    IsPathIn depth (bracket :: w) := by
  obtain ⟨key, v, rfl, ⟨hk, close, v, rfl, hc, hv⟩ | ⟨hh, p, v, rfl, hp, close, v, rfl, hc, hv⟩⟩ := h
  · exact hv.behind (x := [bracket, key, close]) fun p hp => .key hb hk hc hp
  · have := hv.behind (x := bracket :: key :: (p ++ [close])) fun q hq => by
      simpa using IsPath.path hb hh hp hc hq
    simpa using this

/-- The given arguments, and the filters behind them. -/
def IsArgumentsThen (dialect : Dialect) (rules : List ArgumentRule) (w : List Lexeme) : Prop :=
  Then (IsArguments rules false) (IsFilters dialect) w ∨ IsArguments rules true w

/-- What may follow the first of the given arguments. -/
def AfterArgument (dialect : Dialect) (rules : List ArgumentRule) (w : List Lexeme) : Prop :=
  ArgumentRule.mayEnd rules = true ∧ IsFilters dialect w ∨
    Begin .separator (IsArgumentsThen dialect (ArgumentRule.following rules)) w

/-- Behind an argument that is not written by name the list goes on, or ends. -/
theorem AfterArgument.behind {dialect : Dialect} {rule : ArgumentRule} {rules : List ArgumentRule}
    {u w : List Lexeme} (hk : rule.kind ≠ .named) (hu : IsArgument rule u)
    (hw : AfterArgument dialect (rule :: rules) w) :
    IsArgumentsThen dialect (rule :: rules) (u ++ w) := by
  rcases hw with ⟨hend, hw⟩ | ⟨comma, v, rfl, hc, ⟨x, y, rfl, hx, hy⟩ | hv⟩
  · exact Or.inl ⟨u, w, rfl, .last hk hu hend, hw⟩
  · exact Or.inl ⟨u ++ comma :: x, y, by rw [List.append_assoc, List.cons_append],
      .more hk hu hc hx, hy⟩
  · exact Or.inr (.more hk hu hc hv)

/-- What may follow the name of a filter. -/
def AfterFilterName (dialect : Dialect) (rule : FilterRule) (w : List Lexeme) : Prop :=
  rule.requiresArguments = false ∧ IsFilters dialect w ∨
    Begin .colon (IsArgumentsThen dialect rule.arguments) w

/-- What may follow the pipe before a filter. -/
def AfterPipe (dialect : Dialect) (w : List Lexeme) : Prop :=
  ∃ name v rule, w = name :: v ∧ name.kind = .filterName ∧
    dialect.filters.get? name.name = some rule ∧ AfterFilterName dialect rule v

/-- What may follow a modifier that takes a value; a colon has been taken, or must follow. -/
def AfterParameter (rule : TagRule) (colon : Bool) (w : List Lexeme) : Prop :=
  ∃ colons v u, w = colons ++ (v ++ u) ∧ (colon = false → colons ≠ []) ∧
    (∀ l ∈ colons, l.kind = .colon) ∧ IsOperand .parameterValue v ∧ IsParameters rule u

/-- What may follow the name in an assignment. -/
def AfterAssigned (dialect : Dialect) (rule : TagRule) (w : List Lexeme) : Prop :=
  w = [] ∧ (rule.arguments = false ∨ rule.block = true) ∨
    Begin .assignmentOperator (Then (IsValue .variableName) (IsFilters dialect)) w

-- ── what may follow ──────────────────────────────────────────────────────────────

namespace Machine

variable (m : Machine Lookup) (r : Reader)

/-- What may follow, up to the end of the tag, once a value or path has ended. -/
def Resumes : Resume → List Lexeme → Prop
  | .filters => IsFilters m.grammar.dialect
  | .condition => IsOperands
  | .parameters => IsParameters m.grammar.rule
  | .arguments => AfterArgument m.grammar.dialect m.grammar.argumentsLeft

/-- What may follow between the name or the mark of a tag and its end. -/
def Remainder : List Lexeme → Prop :=
  match m.phase with
  | .outputValue => Then (IsValue .object) (IsFilters m.grammar.dialect)
  | .unknownTag | .skipRest => Maybe .skipped
  | .embedded => IsFreeText m.grammar.rule
  | .control .start => fun w => if m.grammar.rule.arguments then IsCondition w else w = []
  | .control .condition => IsCondition
  | .control .operator => IsOperands
  | .assignment .name => IsAssignment m.grammar.dialect m.grammar.rule
  | .assignment .operator => AfterAssigned m.grammar.dialect m.grammar.rule
  | .assignment .value => Then (IsValue .variableName) (IsFilters m.grammar.dialect)
  | .loop .variableName => IsLoop m.grammar.rule
  | .loop .operator =>
      Begin .loopOperator (Then (IsOperand .collection) (IsParameters m.grammar.rule))
  | .loop .collection => Then (IsOperand .collection) (IsParameters m.grammar.rule)
  | .loop .parameter => IsParameters m.grammar.rule
  | .loop .parameterValue => AfterParameter m.grammar.rule (afterColon r)
  | .path .member resume => Then (IsPathIn m.brackets.depth) (m.Resumes resume)
  | .path .dot resume => Then (Begin .property (IsPathIn m.brackets.depth)) (m.Resumes resume)
  | .path .key resume => Then (IsKeyIn m.brackets.depth) (m.Resumes resume)
  | .path .keyEnd resume =>
      Then (Begin .closeBracket (IsPathIn (m.brackets.depth - 1))) (m.Resumes resume)
  | .filter .pipe => IsFilters m.grammar.dialect
  | .filter .name => AfterPipe m.grammar.dialect
  | .filter .colon => AfterFilterName m.grammar.dialect (m.grammar.filter.getD {})
  | .filter .argument => IsArgumentsThen m.grammar.dialect m.grammar.argumentsLeft
  | .filter .separator => AfterArgument m.grammar.dialect m.grammar.argumentsLeft
  | .literal | .markup _ | .opened | .close _ => fun w => w = []

/-- What may follow before the close delimiter: the trim dash has been taken when the delimiter
    comes next. -/
def Closes (ending : Bool) : List Lexeme → Prop :=
  let closing := if ending then TokenKind.endDelimiter else .closeDelimiter
  if m.tag.form.closer.isPrefixOf r.rest then One closing else IsClose closing

/-- What may follow, up to the end of the tag, when no fault is found any more. -/
def Expected : List Lexeme → Prop :=
  match m.phase with
  | .literal | .markup _ => fun w => w = []
  | .opened =>
      if r.offset ≤ m.tag.start + m.tag.form.opener.length then
        Then (Maybe .trimLeft) (IsInner m.grammar.dialect m.tag.form)
      else IsInner m.grammar.dialect m.tag.form
  | .close ending => m.Closes r ending
  | _ => Then (m.Remainder r) (IsClose .closeDelimiter)

/-- The brackets are those of the path, and the arguments those of the filter, that the phase lies
    in. -/
def Tidy : Prop :=
  match m.phase with
  | .path .key _ | .path .keyEnd _ => m.brackets.isEmpty = false
  | .path _ _ => True
  | .filter .colon => m.brackets.isEmpty = true ∧ m.grammar.argumentIndex = 0
  | .filter .argument => m.brackets.isEmpty = true ∧ m.grammar.argumentsLeft ≠ []
  | _ => m.brackets.isEmpty = true

end Machine

/-- The phase lies between the name or the mark of a tag and its end. -/
def Phase.hasRemainder : Phase → Bool
  | .literal | .markup _ | .opened | .close _ => false
  | _ => true

/-- In most phases the rest of the tag is expected, and then its close delimiter. -/
theorem Machine.expected_eq {m : Machine Lookup} (r : Reader) (h : m.phase.hasRemainder = true) :
    m.Expected r = Then (m.Remainder r) (IsClose .closeDelimiter) := by
  rw [Machine.Expected]
  cases hp : m.phase <;> first | rfl | (rw [hp] at h; cases h)

-- ── replies ──────────────────────────────────────────────────────────────────────

/-- The reply carries a fault, or its token goes in front of what its machine expects to make a
    sequence of the language. -/
def Reply.Begins (reply : Reply Lookup) (r : Reader) (language : List Lexeme → Prop) : Prop :=
  reply.event.fault? = none → reply.machine.Tidy ∧
    ∃ kind, reply.event = .token kind ∧ kind.isBlank = false ∧
      ∀ w, reply.machine.Expected (reply.extent.apply r) w →
        language (⟨kind, (reply.extent.apply r).token⟩ :: w)

/-- The reply carries a fault, or it goes on with what is expected: its token is a blank, or goes in
    front of what its machine expects. -/
def Reply.Continues (reply : Reply Lookup) (m : Machine Lookup) (r : Reader) : Prop :=
  reply.event.fault? = none → reply.machine.Tidy ∧ ∃ kind, reply.event = .token kind ∧
    ∀ w, reply.machine.Expected (reply.extent.apply r) w →
      m.Expected r (if kind.isBlank then w
        else ⟨kind, (reply.extent.apply r).token⟩ :: w)

/-- A language may be made larger. -/
theorem Reply.Begins.imp {reply : Reply Lookup} {r : Reader} {a a' b : List Lexeme → Prop}
    (h : reply.Begins r (Then a b)) (ha : ∀ u, a u → a' u) : reply.Begins r (Then a' b) := by
  intro hf
  obtain ⟨ht, kind, he, hk, hnext⟩ := h hf
  exact ⟨ht, kind, he, hk, fun w hw => (hnext w hw).imp ha⟩

namespace Machine

variable {m : Machine Lookup} {r : Reader} {language a : List Lexeme → Prop} {kind : TokenKind}
  {n : Nat} {p : Phase} {dialect : Dialect}

/-- A fault begins nothing, and nothing is asked of it. -/
theorem begins_report {fault : Fault} : (m.report fault n p).Begins r language :=
  fun h => nomatch h

theorem begins_recover {fault : Fault} {rest : List Char} :
    (m.recover fault rest).Begins r language :=
  begins_report

/-- A token that leads to a phase inside the same tag. -/
theorem begins_emit (hk : kind.isBlank = false) (ht : ({ m with phase := p } : Machine _).Tidy)
    (hp : p.hasRemainder = true)
    (h : ∀ u, ({ m with phase := p } : Machine _).Remainder (r.capture n) u →
      a (⟨kind, (r.capture n).token⟩ :: u)) :
    (m.emit kind n p).Begins r (Then a (IsClose .closeDelimiter)) := by
  refine fun _ => ⟨ht, kind, rfl, hk, fun w hw => ?_⟩
  have hrest : Then (({ m with phase := p } : Machine _).Remainder (r.capture n))
      (IsClose .closeDelimiter) w := expected_eq (m := { m with phase := p }) _ hp ▸ hw
  exact hrest.cons h

/-- The end of a tag is an end of it, whether the trim dash has been taken or not. -/
theorem isClose_of_closes {ending : Bool} {w : List Lexeme} (h : m.Closes r ending w) :
    IsClose (if ending then .endDelimiter else .closeDelimiter) w := by
  rw [Closes] at h
  split at h
  · exact .of_nil (Or.inl rfl) h
  · exact h

/-- No dash stands where the close delimiter comes. -/
theorem head?_ne_dash_of_closer {text : List Char} (h : m.tag.form.closer <+: text) :
    text.head? ≠ some '-' := by
  rintro hd
  obtain ⟨tail, rfl⟩ := List.head?_eq_some_iff.mp hd
  cases hf : m.tag.form <;> rw [hf] at h <;> cases (List.cons_prefix_cons.mp h).1

/-- What may come before the close delimiter is what the step expects there. -/
theorem begins_close {ending : Bool} (h : ∀ w, m.Closes r ending w → language w) :
    (m.close ending r.rest).Begins r language := by
  unfold close
  by_cases hb : m.brackets.isEmpty = true
  · simp only [hb, Bool.not_true, Bool.false_eq_true, if_false]
    split
    · next hd =>
        -- the close delimiter comes right behind the dash
        have hpre := List.isPrefixOf_iff_prefix.mp hd
        have hnext : m.tag.form.closer.isPrefixOf (r.rest.drop 1) = true := by
          obtain ⟨tail, htail⟩ := hpre
          rw [← htail]
          exact List.isPrefixOf_iff_prefix.mpr (List.prefix_append _ _)
        have hnot : ¬ m.tag.form.closer.isPrefixOf r.rest = true := by
          intro hc
          refine head?_ne_dash_of_closer (List.isPrefixOf_iff_prefix.mp hc) ?_
          obtain ⟨tail, htail⟩ := hpre
          rw [← htail]
          rfl
        refine fun _ => ⟨hb, .trimRight, rfl, rfl, fun w hw => h _ ?_⟩
        have hone : One (if ending then .endDelimiter else .closeDelimiter) w := by
          have hw : m.Closes (r.capture 1) ending w := hw
          rw [Closes, if_pos (by exact hnext)] at hw
          exact hw
        rw [Closes, if_neg hnot]
        exact ⟨[_], w, rfl, Or.inr ⟨_, rfl, rfl⟩, hone⟩
    · split
      · exact begins_report
      · split
        · next hc =>
            refine fun _ => ⟨rfl, _, rfl, by cases ending <;> rfl, fun w hw => h _ ?_⟩
            obtain rfl : w = [] := hw
            rw [Closes, if_pos hc]
            exact ⟨_, rfl, rfl⟩
        · split <;> exact begins_report
  · rw [Bool.not_eq_true] at hb
    rw [hb]
    exact begins_report

/-- A tag that may end is closed. -/
theorem begins_close_of_nil (h : a []) :
    (m.close false r.rest).Begins r (Then a (IsClose .closeDelimiter)) :=
  begins_close fun _ hw => .of_nil h (isClose_of_closes hw)

/-- A bracket still open is a fault. -/
theorem begins_close_of_bracket {ending : Bool} {rest : List Char}
    (hb : m.brackets.isEmpty = false) : (m.close ending rest).Begins r language := by
  unfold close
  rw [hb]
  exact begins_report

/-- Where no tag ends, neither the close delimiter comes next nor the dash right before it. -/
theorem not_closer_of_not_atClose {form : TagForm} {text : List Char}
    (h : atClose form text = false) :
    form.closer.isPrefixOf text = false ∧ ('-' :: form.closer).isPrefixOf text = false := by
  unfold atClose at h
  rw [Bool.or_eq_false_iff] at h
  refine ⟨h.1, ?_⟩
  rw [Bool.eq_false_iff, ne_eq, List.isPrefixOf_iff_prefix]
  rintro ⟨tail, rfl⟩
  refine Bool.eq_false_iff.mp h.2 ?_
  cases form <;> rfl

/-- Something else in place of the close delimiter is a fault. -/
theorem begins_close_of_not_atClose {ending : Bool} {text : List Char}
    (h : atClose m.tag.form text = false) : (m.close ending text).Begins r language := by
  obtain ⟨hcloser, hdash⟩ := not_closer_of_not_atClose h
  unfold close
  simp only [hcloser, hdash, Bool.false_eq_true, if_false]
  split
  · exact begins_report
  · split
    · exact begins_report
    · split <;> exact begins_report

/-- Where no tag ends, what comes next is out of place. -/
theorem begins_unexpected {text : List Char} (h : atClose m.tag.form text = false) :
    (m.unexpected text).Begins r language := by
  unfold unexpected
  split
  · exact begins_close_of_not_atClose h
  · exact begins_recover

/-- The rest of a tag is passed over, if there is any. -/
theorem begins_skipRest (ha : ∀ w, Maybe .skipped w → a w) (hb : m.brackets.isEmpty = true) :
    (m.skipRest r.rest).Begins r (Then a (IsClose .closeDelimiter)) := by
  unfold skipRest
  by_cases hn : recoveryEnd m.tag.form r.rest = 0
  · simp only [hn, if_true]
    exact begins_close_of_nil (ha _ (Or.inl rfl))
  · simp only [hn, if_false]
    exact fun _ => ⟨hb, .skipped, rfl, rfl, fun w hw =>
      ⟨[_], w, rfl, ha _ (Or.inr ⟨_, rfl, rfl⟩), isClose_of_closes hw⟩⟩

end Machine

end TemplateScan
