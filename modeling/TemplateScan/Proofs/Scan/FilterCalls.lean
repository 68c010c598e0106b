import TemplateScan.Dialect.Standard
import TemplateScan.Proofs.Scan.PropertyChecks

/-! # Filter calls — the arguments given against those declared

    The arguments of a filter are compared with its rule one by one, as far as both go.  Then either
    some declared arguments are left, and the first of them must not be required, or more arguments
    are given than declared, and the first of those ends the call.  Whether a declared argument
    behind the first one left out is required is not asked.

    * **`rejections`**, **`countFault?`** — the faults of a call, from its arguments and its rule.
    * **`lexemesAgainst`** — the tokens of a call, the faults among them.
    * **`leaves_call`** — a call and the end of its tag are passed over.
    * **`faults_of_call`** — the faults of a tag with a call, in any document and any dialect. -/

namespace TemplateScan

open Text

-- ── what a call is found to be ───────────────────────────────────────────────────

/-- The arguments that are not of a type accepted in their places, in their order. -/
def rejections (arguments : List Value) (rules : List ArgumentRule) : List (Fault × List Char) :=
  (arguments.zip rules).filterMap fun (argument, rule) =>
    if rule.accepts argument.type then none else some (.rejected argument.type, argument.print)

/-- The fault of a call to which the first argument left out must be given, or to which more is
    given than declared. -/
def countFault? (arguments : List Value) (rules : List ArgumentRule) :
    Option (Fault × List Char) :=
  if rules.length < arguments.length then
    if rules.isEmpty then some (.unexpectedArguments, printArguments arguments ++ [' '])
    else some (.invalidCharacter, printMore (arguments.drop rules.length) ++ [' '])
  else if rules[arguments.length]?.any (·.required) then
    some (if arguments.isEmpty then .missingColon else .missingArgument, [])
  else none

/-- An argument as a token, in the place of a rule. -/
def Value.lexemeFor (argument : Value) (rule : ArgumentRule) : Lexeme where
  kind := if rule.accepts argument.type then argument.argumentKind
    else .invalid (.rejected argument.type)
  text := argument.print

/-- The fault of a call that ends where the given argument would come next. -/
def missing (fault : Fault) (next : Option ArgumentRule) : List Lexeme :=
  if next.any (·.required) then [⟨.invalid fault, []⟩] else []

/-- The tokens of the arguments behind one that has been given; `left` are those still declared. -/
def lexemesAgainstMore : List Value → (left : List ArgumentRule) → List Lexeme
  | [], left => missing .missingArgument left.head?
  | v :: vs, [] => [⟨.invalid .invalidCharacter, printMore (v :: vs) ++ [' ']⟩]
  | v :: vs, rule :: left =>
      ⟨.separator, [',']⟩ :: v.lexemeFor rule :: lexemesAgainstMore vs left

/-- The tokens behind the name of a filter. -/
def lexemesAgainst : List Value → (rules : List ArgumentRule) → List Lexeme
  | [], rules => missing .missingColon rules.head?
  | v :: vs, [] => [⟨.invalid .unexpectedArguments, printArguments (v :: vs) ++ [' ']⟩]
  | v :: vs, rule :: left => ⟨.colon, [':']⟩ :: v.lexemeFor rule :: lexemesAgainstMore vs left

theorem fault?_argumentKind (v : Value) : v.argumentKind.fault? = none := by
  cases v with
  | number n =>
      rw [Value.argumentKind, Numeral.argumentKind]
      cases n.form <;> rfl
  | string _ | boolean _ | path _ _ _ => rfl

/-- An argument is a fault when it is not accepted. -/
theorem fault?_lexemeFor (v : Value) (rule : ArgumentRule) :
    (v.lexemeFor rule).fault? =
      if rule.accepts v.type then none else some (.rejected v.type, v.print) := by
  rw [Lexeme.fault?, Value.lexemeFor]
  cases rule.accepts v.type with
  | true => exact congrArg (Option.map _) (fault?_argumentKind v)
  | false => rfl

theorem faults_missing (fault : Fault) (next : Option ArgumentRule) :
    (missing fault next).filterMap Lexeme.fault? =
      (if next.any (·.required) then some (fault, []) else none).toList := by
  rw [missing]
  split <;> rfl

theorem rejections_cons (v : Value) (vs : List Value) (rule : ArgumentRule)
    (left : List ArgumentRule) :
    rejections (v :: vs) (rule :: left) =
      (v.lexemeFor rule).fault?.toList ++ rejections vs left := by
  rw [rejections, List.zip_cons_cons, fault?_lexemeFor]
  cases h : rule.accepts v.type with
  | true => exact List.filterMap_cons_none (by simp [h])
  | false => exact List.filterMap_cons_some (by simp [h])

/-- The faults behind an argument that has been given. -/
theorem faults_lexemesAgainstMore (v : Value) (vs : List Value) (rule : ArgumentRule)
    (left : List ArgumentRule) :
    (lexemesAgainstMore vs left).filterMap Lexeme.fault? =
      rejections vs left ++ (countFault? (v :: vs) (rule :: left)).toList := by
  induction vs generalizing v rule left with
  | nil =>
      have hcount : countFault? [v] (rule :: left) =
          if left.head?.any (·.required) then some (.missingArgument, []) else none := by
        rw [countFault?, if_neg (by simp)]
        cases left <;> rfl
      rw [lexemesAgainstMore, faults_missing, hcount]
      rfl
  | cons w ws ih =>
      cases left with
      | nil =>
          have hcount : countFault? (v :: w :: ws) [rule] =
              some (.invalidCharacter, printMore (w :: ws) ++ [' ']) := by
            rw [countFault?, if_pos (by simp)]
            rfl
          rw [hcount]
          rfl
      | cons next left =>
          have hcount : countFault? (v :: w :: ws) (rule :: next :: left) =
              countFault? (w :: ws) (next :: left) := by
            simp only [countFault?, List.length_cons, Nat.add_lt_add_iff_right, List.isEmpty_cons,
              List.drop_succ_cons, List.getElem?_cons_succ, Bool.false_eq_true, if_false]
          rw [lexemesAgainstMore, faults_cons, faults_cons, ih w next left, rejections_cons, hcount,
            List.append_assoc]
          rfl

/-- **The faults among the tokens of a call** are the arguments rejected, and the one that comes of
    their number. -/
theorem faults_lexemesAgainst (arguments : List Value) (rules : List ArgumentRule) :
    (lexemesAgainst arguments rules).filterMap Lexeme.fault? =
      rejections arguments rules ++ (countFault? arguments rules).toList := by
  cases arguments with
  | nil =>
      have hcount : countFault? [] rules =
          if rules.head?.any (·.required) then some (.missingColon, []) else none := by
        rw [countFault?, if_neg (by simp)]
        cases rules <;> rfl
      rw [lexemesAgainst, faults_missing, hcount]
      rfl
  | cons v vs =>
      cases rules with
      | nil => rfl
      | cons rule left =>
          rw [lexemesAgainst, faults_cons, faults_cons, faults_lexemesAgainstMore v vs rule left,
            rejections_cons, List.append_assoc]
          rfl

/-- Where no required argument is declared behind one that is not, a call that leaves out a required
    argument has a fault. -/
theorem countFault?_of_required {arguments : List Value} {rules : List ArgumentRule}
    (hordered : rules.Pairwise fun a b => b.required = true → a.required = true)
    (hleft : ∃ rule ∈ rules.drop arguments.length, rule.required = true) :
    countFault? arguments rules =
      some (if arguments.isEmpty then .missingColon else .missingArgument, []) := by
  obtain ⟨rule, hmem, hrequired⟩ := hleft
  have hlt : arguments.length < rules.length := by
    have hpos := List.length_pos_of_mem hmem
    rw [List.length_drop] at hpos
    omega
  have hfirst : rules[arguments.length].required = true := by
    have hordered := hordered.sublist (List.drop_sublist arguments.length rules)
    rw [List.drop_eq_getElem_cons hlt, List.pairwise_cons] at hordered
    rw [List.drop_eq_getElem_cons hlt] at hmem
    rcases List.mem_cons.mp hmem with rfl | hmem
    · exact hrequired
    · exact hordered.1 rule hmem hrequired
  rw [countFault?, if_neg (Nat.not_lt_of_gt hlt), List.getElem?_eq_getElem hlt, Option.any_some,
    if_pos hfirst]

-- ── what is printed is clear ─────────────────────────────────────────────────────

variable {k : List Char}

/-- No delimiter begins in a literal. -/
theorem Value.clear {v : Value} (hliteral : v.isLiteral = true) (hk : EndsValue k) :
    Clear .output v.print.length (v.print ++ k) := by
  cases v with
  | string s => exact clear_quoted (s.read k)
  | number n => exact clear_number (number?_append n.isNumber hk.number)
  | boolean b => exact clear_identifier (identifier?_append (Machine.isName_boolText b) hk.name)
  | path _ _ _ => cases hliteral

/-- A character that begins no delimiter may stand before clear text. -/
theorem clear_cons {form : TagForm} {n : Nat} {c : Char} {text : List Char}
    (h : Clear form n text) (hc : isDelimiterChar c = false) : Clear form (n + 1) (c :: text) := by
  have hhead : Clear form 1 (c :: text) := Clear.of_head rfl hc
  rw [Nat.add_comm]
  exact hhead.append h

/-- Behind a separator, an argument and those that follow it hold nothing that ends the tag. -/
theorem clear_argument {v : Value} {vs : List Value} {c : Char} {k : List Char}
    (hliteral : v.isLiteral = true) (hc : isDelimiterChar c = false)
    (hmore : Clear .output (printMore vs ++ [' ']).length (printMore vs ++ ' ' :: k)) :
    Clear .output (c :: ' ' :: (v.print ++ printMore vs) ++ [' ']).length
      (c :: ' ' :: (v.print ++ printMore vs) ++ ' ' :: k) := by
  have hv := v.clear hliteral (Scanner.endsValue_more vs k)
  have hboth := hv.append (m := (printMore vs ++ [' ']).length) (by rwa [List.drop_left])
  have hall := clear_cons (c := c) (clear_cons (c := ' ') hboth rfl) hc
  simpa [Nat.add_assoc] using hall

theorem clear_printMore {vs : List Value} (hliteral : ∀ v ∈ vs, v.isLiteral = true)
    (k : List Char) :
    Clear .output (printMore vs ++ [' ']).length (printMore vs ++ ' ' :: k) := by
  induction vs with
  | nil =>
      show Clear .output 1 (' ' :: k)
      exact Clear.of_head rfl rfl
  | cons v vs ih =>
      have hprint : printMore (v :: vs) = ',' :: ' ' :: (v.print ++ printMore vs) := by
        simp [printMore]
      rw [hprint]
      exact clear_argument (hliteral v (List.mem_cons_self ..)) rfl
        (ih fun w hw => hliteral w (List.mem_cons_of_mem _ hw))

theorem clear_printArguments {vs : List Value} (hliteral : ∀ v ∈ vs, v.isLiteral = true)
    (hne : vs ≠ []) (k : List Char) :
    Clear .output (printArguments vs ++ [' ']).length (printArguments vs ++ ' ' :: k) := by
  cases vs with
  | nil => exact absurd rfl hne
  | cons v vs =>
      exact clear_argument (hliteral v (List.mem_cons_self ..)) rfl
        (clear_printMore (fun w hw => hliteral w (List.mem_cons_of_mem _ hw)) k)

-- ── the end of the tag ───────────────────────────────────────────────────────────

/-- The machine is inside an output tag, in which no bracket is open. -/
structure Machine.InOutput (m : Machine Lookup) : Prop where
  form : m.tag.form = .output
  settled : m.brackets.isEmpty = true

namespace Scanner

variable {s : Scanner Lookup} {m : Machine Lookup} {words : List Lexeme}

/-- The text is passed over with the given tokens, and behind it the tag has ended. -/
def LeavesTag (s : Scanner Lookup) (text : List Char) (words : List Lexeme) (k : List Char) :
    Prop :=
  ∃ t, s.Passes text words t ∧ t.reader.rest = k ∧ t.machine.phase = .literal

theorem LeavesTag.behind {t : Scanner Lookup} {a b : List Char} {v w : List Lexeme}
    (h : t.LeavesTag b w k) (ht : s.Passes a v t) : s.LeavesTag (a ++ b) (v ++ w) k := by
  obtain ⟨u, hu, hrest, hphase⟩ := h
  exact ⟨u, ht.trans hu, hrest, hphase⟩

/-- The end of an output tag. -/
def closing : Lexeme :=
  ⟨.closeDelimiter, TagForm.closer .output⟩

/-- The close delimiter is taken where the tag may be closed. -/
theorem leaves_close (hm : m.InOutput)
    (hstep : s.machine.step s.reader = m.close false s.reader.rest)
    (hr : s.reader.rest = TagForm.closer .output ++ k) :
    s.LeavesTag (TagForm.closer .output) [closing] k := by
  have hpre : m.tag.form.closer <+: s.reader.rest := by
    rw [hm.form, hr]
    exact List.prefix_append ..
  rw [Machine.close_closer false hm.settled hpre, hm.form] at hstep
  obtain ⟨t, ht, hmachine, hrest, -⟩ := passes_token _ hr hstep (by rintro ⟨⟩)
  exact ⟨t, ht, hrest, by rw [hmachine]⟩

/-- No filter follows where the tag ends. -/
theorem leaves_pipe (hm : m.InOutput) (hstep : s.machine.step s.reader = m.stepPipe s.reader.rest)
    (hr : s.reader.rest = TagForm.closer .output ++ k) :
    s.LeavesTag (TagForm.closer .output) [closing] k := by
  have hpre : TagForm.closer .output <+: s.reader.rest := ⟨k, hr.symm⟩
  refine leaves_close hm (hstep.trans ?_) hr
  rw [Machine.stepPipe, if_neg (Machine.head_ne_of_closer hpre),
    if_pos (by rw [hm.form]; exact Machine.atClose_closer hpre)]

/-- A fault at the end of a call may be reported first. -/
theorem leaves_missing {fault : Fault} {next : Option ArgumentRule} (hm : m.InOutput)
    (hstep : s.machine.step s.reader = if next.any (·.required)
      then m.reportHere fault (.filter .pipe) else m.stepPipe s.reader.rest)
    (hr : s.reader.rest = TagForm.closer .output ++ k) :
    s.LeavesTag (TagForm.closer .output) (missing fault next ++ [closing]) k := by
  rw [missing]
  split at hstep
  · next hrequired =>
      obtain ⟨t, ht, hmachine, hrest, -⟩ := passes_token [] (s := s) rfl hstep (by rintro ⟨⟩)
      have hrest : t.reader.rest = TagForm.closer .output ++ k := hrest.trans hr
      rw [if_pos hrequired]
      have hend : t.LeavesTag (TagForm.closer .output) [closing] k := by
        refine leaves_pipe (m := t.machine) (by rw [hmachine]; exact ⟨hm.form, hm.settled⟩) ?_
          hrest
        rw [Machine.step_eq_stepPhase (c := '\x7d') (by rw [hmachine]; rintro ⟨⟩)
          (by rw [hrest]; rfl) rfl, Machine.stepPhase, hmachine]
        rfl
      exact hend.behind ht
  · next hoptional =>
      rw [if_neg hoptional]
      exact leaves_pipe hm hstep hr

/-- A recovery over clear text leads to the end of the tag. -/
theorem leaves_recover {fault : Fault} {text : List Char} (hm : m.InOutput)
    (hstep : s.machine.step s.reader = m.recover fault s.reader.rest)
    (hr : s.reader.rest = (text ++ [' ']) ++ (TagForm.closer .output ++ k))
    (hclear : Clear .output (text ++ [' ']).length s.reader.rest) :
    s.LeavesTag (text ++ ' ' :: TagForm.closer .output)
      [⟨.invalid fault, text ++ [' ']⟩, closing] k := by
  have hend : recoveryEnd m.tag.form s.reader.rest = (text ++ [' ']).length := by
    rw [hm.form, hr]
    exact recoveryEnd_of_clear (hr ▸ hclear) (List.prefix_append ..)
      (by rw [List.getLast?_concat]; decide)
  rw [Machine.recover, hend] at hstep
  obtain ⟨t, ht, hmachine, hrest, -⟩ := passes_token _ hr hstep (by rintro ⟨⟩)
  have hclose : t.LeavesTag (TagForm.closer .output) [closing] k := by
    refine leaves_close (m := t.machine) (by rw [hmachine]; exact ⟨hm.form, hm.settled⟩) ?_ hrest
    rw [Machine.step_eq_stepPhase (c := '\x7d') (by rw [hmachine]; rintro ⟨⟩)
      (by rw [hrest]; rfl) rfl, Machine.stepPhase, hmachine]
  simpa using hclose.behind ht

-- ── the arguments ────────────────────────────────────────────────────────────────

variable {rule : ArgumentRule} {left : List ArgumentRule}

/-- A mark, a space and a literal are passed over; the literal is compared with the rule in its
    place. -/
theorem passes_given {v : Value} {mark : TokenKind} {c : Char} (hliteral : v.isLiteral = true)
    (hmark : mark ≠ .spacing)
    (hstep : s.machine.step s.reader = m.emit mark 1 (.filter .argument))
    (hf : m.tag.form = .output) (hleft : m.grammar.argumentsLeft = rule :: left)
    (hkind : rule.kind = .positional) (hr : s.reader.rest = c :: ' ' :: (v.print ++ k))
    (hk : EndsValue k) :
    ∃ t, s.Passes (c :: ' ' :: v.print) [⟨mark, [c]⟩, v.lexemeFor rule] t ∧ t.reader.rest = k ∧
      t.machine = { m with phase := .filter .separator } := by
  obtain ⟨first, cs, hhead, -, hspacing, -⟩ := (v.begins hk.name).head
  obtain ⟨t, ht, htm, hrest, -⟩ := passes_token [c] hr hstep hmark
  have hp : t.machine.phase = .filter .argument := by rw [htm]
  rw [hhead] at hrest
  obtain ⟨u, hu, hsame, hrest, -⟩ := passes_space (by rw [hp]; rintro ⟨⟩) hrest hspacing
  rw [← hhead] at hrest
  have hum := hsame.trans htm
  have hf : u.machine.tag.form = .output := by rw [hum]; exact hf
  have hleft : u.machine.grammar.argumentsLeft = rule :: left := by rw [hum]; exact hleft
  have hstep := step_argument (hsame ▸ hp) hleft hkind (hrest ▸ v.begins hk.name)
  rw [hrest, stepArgumentValue_literal v hliteral hf hk, Machine.acceptArgument,
    accepts_eq hleft] at hstep
  obtain ⟨w, hw, hwm, hrest, -⟩ := passes_token v.print hrest hstep
    (by split <;> first | exact v.argumentKind_ne_spacing | rintro ⟨⟩)
  exact ⟨w, ht.trans (hu.trans hw), hrest, by rw [hwm, hum]⟩

theorem step_separator {r : Reader} {c : Char} {tail : List Char}
    (hp : m.phase = .filter .separator) (hr : r.rest = c :: tail) (hblank : isTagBlank c = false) :
    m.step r = m.stepSeparator r.rest := by
  rw [Machine.step_eq_stepPhase (c := c) (by rw [hp]; rintro ⟨⟩) (by rw [hr]; rfl) hblank,
    Machine.stepPhase, hp]
  rfl

/-- Behind an argument, the others are passed over, and the end of the tag. -/
theorem leaves_more (vs : List Value) (hliteral : ∀ v ∈ vs, v.isLiteral = true)
    (hm : s.machine.InOutput) (hp : s.machine.phase = .filter .separator)
    (hleft : s.machine.grammar.argumentsLeft = rule :: left)
    (hpositional : ∀ a ∈ rule :: left, a.kind = .positional)
    (hr : s.reader.rest = printMore vs ++ ' ' :: (TagForm.closer .output ++ k)) :
    s.LeavesTag (printMore vs ++ ' ' :: TagForm.closer .output)
      (lexemesAgainstMore vs left ++ [closing]) k := by
  induction vs generalizing s rule left with
  | nil =>
      obtain ⟨t, ht, hsame, hrest, -⟩ := passes_space (by rw [hp]; rintro ⟨⟩) hr rfl
      rw [← hsame] at hm hp hleft
      have hstep := step_separator hp hrest rfl
      rw [Machine.stepSeparator_end hleft (hpositional rule (List.mem_cons_self ..))
        (Or.inr (by rw [hm.form, hrest]; exact List.prefix_append ..))] at hstep
      have hend := leaves_missing (m := t.machine.forgetFilter) ⟨hm.form, hm.settled⟩ hstep hrest
      exact hend.behind ht
  | cons v vs ih =>
      have hprint : printMore (v :: vs) = ',' :: ' ' :: (v.print ++ printMore vs) := by
        simp [printMore]
      have hkind := hpositional rule (List.mem_cons_self ..)
      have hcomma : s.reader.rest.head? = some ',' := by rw [hr, hprint]; rfl
      obtain ⟨tail, hhead⟩ := List.head?_eq_some_iff.mp hcomma
      have hstep := step_separator hp hhead rfl
      cases left with
      | nil =>
          rw [Machine.stepSeparator_comma_last hleft hkind hcomma] at hstep
          refine leaves_recover hm hstep (by rw [hr]; simp) ?_
          rw [hr]
          exact clear_printMore hliteral _
      | cons next left =>
          obtain ⟨hnext, hleft'⟩ := Machine.stepSeparator_comma hleft hkind hcomma
          rw [hnext] at hstep
          obtain ⟨t, ht, hrest, htm⟩ := passes_given (c := ',') (k := printMore vs ++
              ' ' :: (TagForm.closer .output ++ k)) (hliteral v (List.mem_cons_self ..))
            (by rintro ⟨⟩) hstep hm.form hleft' (hpositional next (by simp))
            (by rw [hr, hprint]; simp) (endsValue_more vs _)
          have hmore := ih (fun w hw => hliteral w (List.mem_cons_of_mem _ hw))
            (by rw [htm]; exact ⟨hm.form, hm.settled⟩) (by rw [htm]) (by rw [htm]; exact hleft')
            (fun a ha => hpositional a (List.mem_cons_of_mem _ ha)) hrest
          simpa [hprint, lexemesAgainstMore] using hmore.behind ht

/-- **A call is passed over** with the end of its tag, however it is made. -/
theorem leaves_call (vs : List Value) (hliteral : ∀ v ∈ vs, v.isLiteral = true)
    {rule : FilterRule} (hm : s.machine.InOutput) (hp : s.machine.phase = .filter .colon)
    (hrule : s.machine.grammar.filter = some rule) (hindex : s.machine.grammar.argumentIndex = 0)
    (hpositional : ∀ a ∈ rule.arguments, a.kind = .positional)
    (hr : s.reader.rest = printArguments vs ++ ' ' :: (TagForm.closer .output ++ k)) :
    s.LeavesTag (printArguments vs ++ ' ' :: TagForm.closer .output)
      (lexemesAgainst vs rule.arguments ++ [closing]) k := by
  cases vs with
  | nil =>
      obtain ⟨t, ht, hsame, hrest, -⟩ := passes_space (by rw [hp]; rintro ⟨⟩) hr rfl
      rw [← hsame] at hm hp hrule
      have hstep := step_noColon hp hrule (r := t.reader)
        (Or.inr (by rw [hm.form, hrest]; exact List.prefix_append ..))
      have hend := leaves_missing (m := t.machine.forgetFilter) ⟨hm.form, hm.settled⟩ hstep hrest
      exact hend.behind ht
  | cons v vs =>
      have hcolon : s.reader.rest = ':' :: ' ' :: (v.print ++
          (printMore vs ++ ' ' :: (TagForm.closer .output ++ k))) := by
        rw [hr]
        simp [printArguments]
      have hstep := step_colon hp hrule hcolon
      cases hrules : rule.arguments with
      | nil =>
          rw [hrules, List.isEmpty_nil, if_pos rfl] at hstep
          refine leaves_recover hm hstep (by rw [hr]; simp) ?_
          rw [hr]
          exact clear_printArguments hliteral (List.cons_ne_nil v vs) _
      | cons first left =>
          rw [hrules, List.isEmpty_cons, if_neg Bool.false_ne_true] at hstep
          have hleft : s.machine.grammar.argumentsLeft = first :: left := by
            show (s.machine.grammar.filter.getD {}).arguments.drop _ = _
            rw [hrule, hindex]
            exact hrules
          rw [hrules] at hpositional
          obtain ⟨t, ht, hrest, htm⟩ := passes_given (hliteral v (List.mem_cons_self ..))
            (by rintro ⟨⟩) hstep hm.form hleft (hpositional first (List.mem_cons_self ..)) hcolon
            (endsValue_more vs _)
          have hmore := leaves_more vs (fun w hw => hliteral w (List.mem_cons_of_mem _ hw))
            (by rw [htm]; exact ⟨hm.form, hm.settled⟩) (by rw [htm]) (by rw [htm]; exact hleft)
            hpositional hrest
          simpa [printArguments, lexemesAgainst] using hmore.behind ht

-- ── whole tags ───────────────────────────────────────────────────────────────────

/-- The tokens of an output tag with a value and one call. -/
def lexemesOfCallTag (objects : Table Schema) (v : Value) (c : Call) (rule : FilterRule) :
    List Lexeme :=
  ⟨.openDelimiter, TagForm.opener .output⟩ :: ⟨.outputTag, []⟩ :: (v.checked objects .object ++
    ⟨.pipe, ['|']⟩ :: ⟨.filterName, c.name.text⟩ :: (lexemesAgainst c.arguments rule.arguments ++
      [closing]))

/-- An output tag with a value and one call. -/
theorem leaves_callTag (v : Value) (c : Call) {rule : FilterRule}
    (hliteral : ∀ a ∈ c.arguments, a.isLiteral = true)
    (hpositional : ∀ a ∈ rule.arguments, a.kind = .positional)
    (hrule : s.machine.grammar.dialect.filters.get? (String.ofList c.name.text) = some rule)
    (hopen : s.machine.step s.reader = s.machine.openTag .output s.reader.offset)
    (hr : s.reader.rest = Expression.print ⟨v, [c]⟩ ++ k) :
    s.LeavesTag (Expression.print ⟨v, [c]⟩)
      (lexemesOfCallTag s.machine.grammar.dialect.objects v c rule) k := by
  have hend : continuesIdentifier (printArguments c.arguments ++
      ' ' :: (TagForm.closer .output ++ k)) = false := by
    cases c.arguments <;> rfl
  have hprint : Expression.print ⟨v, [c]⟩ = (TagForm.opener .output ++ ' ' :: v.print) ++
      ((' ' :: '|' :: ' ' :: c.name.text) ++
        (printArguments c.arguments ++ ' ' :: TagForm.closer .output)) := by
    simp [Expression.print, Call.print]
  rw [hprint] at hr ⊢
  obtain ⟨t, ht, hrest, hafter, expect, object, phase, -, htm⟩ := walks_front v hopen
    (k := ' ' :: '|' :: ' ' :: (c.name.text ++ (printArguments c.arguments ++
      ' ' :: (TagForm.closer .output ++ k)))) (by rw [hr]; simp) (endsValue_space _)
  obtain ⟨object', -, hstep⟩ := hafter.exists_step (by rw [htm]; rfl)
  obtain ⟨u, hu, hrest, hum⟩ := passes_filterName c.name hafter.phase_ne
    (m := t.machine.reaching t.machine.grammar.expect object')
    (fun r hpipe => by
      obtain ⟨tail, hhead⟩ := List.head?_eq_some_iff.mp hpipe
      exact hstep hhead rfl (by decide))
    (by rw [htm]; exact hrule) hrest hend
  have hcall := leaves_call c.arguments hliteral (by rw [hum, htm]; exact ⟨rfl, rfl⟩) (by rw [hum])
    (by rw [hum]) (by rw [hum]) hpositional hrest
  simpa [lexemesOfCallTag] using (hcall.behind hu).behind ht

/-- **The faults of a call** are those of its arguments, one by one, and then at most one that comes
    of their number.  In a run from the start of any text, in any dialect, let a scan open an output
    tag that holds a value and a filter with literals as arguments, all of which are declared by
    their places.  The tag is passed over to its close delimiter.  Behind the unknown properties of
    the value its faults are exactly: the arguments whose type is not accepted, in their order; then
    a missing colon or a missing argument, when the first argument left out is required; or else the
    arguments given without being declared.

    So a required argument that is left out is reported, if none is required behind an optional
    one. -/
theorem faults_of_call (source : String) (dialect : Dialect) {i : Nat} {v : Value} {c : Call}
    {rule : FilterRule} {k : List Char}
    (hrule : dialect.filters.get? (String.ofList c.name.text) = some rule)
    (hpositional : ∀ a ∈ rule.arguments, a.kind = .positional)
    (hliteral : ∀ a ∈ c.arguments, a.isLiteral = true)
    (ho : (ofString source dialect.lookup).eventAt i = .token .openDelimiter)
    (hr : ((ofString source dialect.lookup).after i).reader.rest =
      Expression.print ⟨v, [c]⟩ ++ k) :
    let s := (ofString source dialect.lookup).after i
    ∃ n t, PassesIn n s (Expression.print ⟨v, [c]⟩)
        (lexemesOfCallTag dialect.objects v c rule) t ∧
      t.machine.phase = .literal ∧
      (s.lexemesUpTo n).filterMap Lexeme.fault? =
        (v.reports dialect.objects).map (Fault.unknownProperty, ·) ++
          (rejections c.arguments rule.arguments ++
            (countFault? c.arguments rule.arguments).toList) ∧
      (rule.arguments.Pairwise (fun a b => b.required = true → a.required = true) →
        (∃ a ∈ rule.arguments.drop c.arguments.length, a.required = true) →
        (if c.arguments.isEmpty then Fault.missingColon else .missingArgument, []) ∈
          (s.lexemesUpTo n).filterMap Lexeme.fault?) := by
  intro s
  have hdialect : s.machine.grammar.dialect = dialect := dialect_after source dialect i
  have hpre : TagForm.opener .output <+: s.reader.rest := by
    rw [hr]
    exact (List.prefix_append ..).trans (List.prefix_append ..)
  obtain ⟨t, ⟨n, hn⟩, -, hphase⟩ := leaves_callTag v c hliteral hpositional
    (by rw [hdialect]; exact hrule) (opensOutput ho hpre) hr
  rw [hdialect] at hn
  have hfaults : (s.lexemesUpTo n).filterMap Lexeme.fault? =
      (v.reports dialect.objects).map (Fault.unknownProperty, ·) ++
        (rejections c.arguments rule.arguments ++
          (countFault? c.arguments rule.arguments).toList) := by
    rw [hn.faults, lexemesOfCallTag, faults_cons, faults_cons, List.filterMap_append,
      v.faults_checked rfl, faults_cons, faults_cons, List.filterMap_append,
      faults_lexemesAgainst]
    simp [closing, Lexeme.fault?, TokenKind.fault?]
  refine ⟨n, t, hn, hphase, hfaults, fun hordered hleft => ?_⟩
  rw [hfaults, countFault?_of_required hordered hleft]
  simp

/-- A call with two arguments of the wrong type, and one too many. -/
def truncateCall : Call where
  name := ⟨"truncate".toList, rfl⟩
  arguments := [.string ⟨'"', "w".toList, isQuote_double, by decide, by decide⟩,
    .number ⟨.integer, "2".toList, rfl⟩, .boolean true]

theorem faults_of_call_truncate :
    let source := "<i>\x7b\x7b u | truncate: \"w\", 2, true \x7d\x7d</i>"
    let s := (ofString source Dialect.standard.lookup).after 1
    s.reader.rest = "\x7b\x7b u | truncate: \"w\", 2, true \x7d\x7d</i>".toList ∧
      ∃ n, (s.lexemesUpTo n).filterMap Lexeme.fault? =
        [(.rejected .string, "\"w\"".toList), (.rejected .integer, "2".toList),
          (.invalidCharacter, ", true ".toList)] := by
  intro source s
  have hrest : s.reader.rest = "\x7b\x7b u | truncate: \"w\", 2, true \x7d\x7d</i>".toList := by
    decide +kernel
  let rules := [Dialect.integerArgument, Dialect.optionalText]
  have hrule : Dialect.standard.filters.get? (String.ofList truncateCall.name.text) =
      some (.ofArguments rules) := by
    decide +kernel
  obtain ⟨n, t, -, -, hfaults, -⟩ := faults_of_call source Dialect.standard (i := 1)
    (v := .path ⟨"u".toList, rfl⟩ (by decide) .nil) (k := "</i>".toList) hrule (by decide)
    (by decide) (by decide +kernel) hrest
  have hreports : (Value.path ⟨"u".toList, rfl⟩ (by decide) .nil).reports
      Dialect.standard.objects = [] := rfl
  have hrejections : rejections truncateCall.arguments rules =
      [(.rejected .string, "\"w\"".toList), (.rejected .integer, "2".toList)] := by
    decide
  have hcount : countFault? truncateCall.arguments rules =
      some (.invalidCharacter, ", true ".toList) := by
    decide
  rw [hreports, FilterRule.ofArguments, hrejections, hcount] at hfaults
  exact ⟨hrest, n, hfaults⟩

/-- A required argument behind an optional one is not asked for. -/
theorem required_behind_optional :
    ¬ ∀ (dialect : Dialect) (rule : FilterRule), dialect.filters.get? "f" = some rule →
      (∀ a ∈ rule.arguments, a.kind = .positional) →
      (∃ a ∈ rule.arguments.drop 0, a.required = true) →
      (tokenize "\x7b\x7b v | f \x7d\x7d" dialect.lookup).faults = [.missingColon] := by
  intro h
  have hfaults := h ((∅ : Dialect).withFilter "f" (.ofArguments [.ofTypes [],
    (ArgumentRule.ofTypes []).asRequired])) _ rfl (by decide) (by decide)
  revert hfaults
  decide +kernel

end Scanner

end TemplateScan
