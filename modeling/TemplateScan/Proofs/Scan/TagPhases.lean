import TemplateScan.Proofs.Scan.TagStep

/-! # Phases inside a tag — each of them answers in one of the fifteen ways

    One lemma for each part of the language of tags, in the order in which the parts are built on
    one another: names and values, filters, conditions, loops, assignments, paths, the name of the
    tag.  They are put together in **`step_inTag`**. -/

namespace TemplateScan.Machine

open Text

variable {γ : Type} [Grammar γ] {ending : Bool} {bound : Nat} {m : Machine γ} {r : Reader}
  {reply : Reply γ}

-- ── tokens ───────────────────────────────────────────────────────────────────────

/-- Whatever a value goes back to, the name of the tag has been taken. -/
theorem isNamed_resume (resume : Resume) : resume.phase.isNamed = true := by
  cases resume <;> rfl

/-- An end tag holds no values. -/
theorem isEnding_resume (resume : Resume) : resume.phase.isEnding = false := by
  cases resume <;> rfl

/-- A name is a part of the tag, as an object or as what its place asks for. -/
theorem isPart_referenceKind {bare : TokenKind} (hk : bare.isPart = true) (name : List Char) :
    (m.referenceKind name bare).isPart = true := by
  rw [referenceKind]
  split
  · rfl
  · exact hk

/-- A name is a part of the tag. -/
theorem tagStep_name {name : List Char} {kind : TokenKind} {p : Phase}
    (hn : identifier? r.rest = some name) (hk : kind.isPart = true) (hp : p.isNamed = true)
    (he : p.isEnding = ending) : TagStep ending bound m r (m.emit kind name.length p) := by
  obtain ⟨-, hpos, -⟩ := identifier?_eq_some hn
  exact .part hk hpos (clear_identifier hn) hp he .refl (.of_name hn)

/-- A number is a part of the tag. -/
theorem tagStep_number {form : NumberForm} {digits : List Char} {kind : TokenKind} {p : Phase}
    (hn : number? r.rest = some (form, digits)) (hk : kind.isPart = true)
    (hp : p.isNamed = true) (he : p.isEnding = ending) :
    TagStep ending bound m r (m.emit kind digits.length p) := by
  obtain ⟨hpre, hpos, -⟩ := number?_eq_some hn
  obtain ⟨c, hlast, hdigit⟩ := number?_getLast? hn
  have hdash : c ≠ '-' := by
    rintro rfl
    cases hdigit
  exact .part hk hpos (clear_number hn) hp he .refl (.of_not (not_dashed_of_leading hpre hlast hdash))

/-- A string is a part of the tag. -/
theorem tagStep_string {quote : Char} {body : List Char} {kind : TokenKind} {p : Phase}
    (hn : quoted? m.tag.form.stringStops r.rest = some (.closed quote body))
    (hk : kind.isPart = true) (hp : p.isNamed = true) (he : p.isEnding = ending) :
    TagStep ending bound m r (m.emit kind (Quoted.closed quote body).text.length p) := by
  obtain ⟨q, tail, hrest, hq, hpre, hpos, -⟩ := quoted?_eq_some hn
  have hquote : quote ≠ '-' := by
    rw [hrest] at hpre
    obtain rfl : quote = q := (List.cons_prefix_cons.mp hpre).1
    rintro rfl
    cases hq
  have hlast : (Quoted.closed quote body).text.getLast? = some quote :=
    List.getLast?_concat (l := quote :: body)
  exact .part hk hpos (clear_quoted hn) hp he .refl
    (.of_not (not_dashed_of_leading hpre hlast hquote))

/-- A string without its end is a fault. -/
theorem tagStep_unclosed {quote : Char} {body : List Char}
    (hn : quoted? m.tag.form.stringStops r.rest = some (.unclosed quote body)) :
    TagStep false bound m r
      (m.report .missingQuotation (Quoted.unclosed quote body).text.length (.close false)) := by
  obtain ⟨_, _, -, -, -, hpos, -⟩ := quoted?_eq_some hn
  exact .part rfl hpos (clear_quoted hn) rfl rfl .refl fun _ => Or.inl rfl

/-- A given word is a part of the tag. -/
theorem tagStep_word {word : List Char} {kind : TokenKind} {p : Phase} (hw : word <+: r.rest)
    (hword : isPlainWord word = true) (hd : '-' ∉ word) (hk : kind.isPart = true)
    (hp : p.isNamed = true) (he : p.isEnding = ending) :
    TagStep ending bound m r (m.emit kind word.length p) := by
  obtain ⟨hpos, hclear⟩ : 0 < word.length ∧ Clear m.tag.form word.length r.rest :=
    clear_word hw hword
  exact .part hk hpos hclear hp he .refl (.of_not (not_dashed_of_not_mem hw hd))

/-- A single character that begins no delimiter, and is no dash, is a part of the tag. -/
theorem tagStep_char {c : Char} {kind : TokenKind} {p : Phase} (hh : r.rest.head? = some c)
    (hc : isDelimiterChar c = false) (hd : c ≠ '-') (hk : kind.isPart = true)
    (hp : p.isNamed = true) (he : p.isEnding = ending) :
    TagStep ending bound m r (m.emit kind 1 p) :=
  .part hk Nat.one_pos (Clear.of_head hh hc) hp he .refl (.of_not (not_dashed_of_head hh hd))

/-- A fault at the cursor leads to a phase of smaller rank. -/
theorem tagStep_reportHere {fault : Fault} {p : Phase} (hf : fault.isLocal = true)
    (hp : p.isNamed = true) (he : p.isEnding = ending) (hb : p.rank < bound) :
    TagStep ending bound m r (m.reportHere fault p) :=
  .mark hf hp he hb .refl

/-- A name that begins a path is a part of the tag. -/
theorem tagStep_beginPath {name : List Char} {kind : TokenKind} {resume : Resume}
    (hn : identifier? r.rest = some name) (hk : kind.isPart = true) :
    TagStep false bound m r (m.beginPath name kind resume) := by
  obtain ⟨-, hpos, -⟩ := identifier?_eq_some hn
  exact .part hk hpos (clear_identifier hn) rfl rfl (.resolve (.setExpect .refl _) _) (.of_name hn)

-- ── values ───────────────────────────────────────────────────────────────────────

/-- The word for a truth value comes next, and has no delimiter and no dash in it. -/
theorem boolean?_eq_some {text word : List Char} (h : boolean? text = some word) :
    word <+: text ∧ isPlainWord word = true ∧ '-' ∉ word := by
  have hall : ∀ word ∈ booleans, isPlainWord word = true ∧ '-' ∉ word := by decide
  have hstart : startsWithWord word text = true := by
    rw [boolean?] at h
    simpa using List.find?_some h
  exact ⟨prefix_of_startsWithWord hstart, hall word (List.mem_of_find?_eq_some h)⟩

/-- A value is a part of the tag, whatever its kind. -/
theorem tagStep_value? {bare : TokenKind} {resume : Resume} (hk : bare.isPart = true)
    (h : m.value? bare resume r.rest = some reply) : TagStep false bound m r reply := by
  have hp := isNamed_resume resume
  have he := isEnding_resume resume
  unfold value? at h
  split at h
  · next hq =>
      obtain rfl := Option.some.inj h
      exact tagStep_string hq rfl hp he
  · next hq =>
      obtain rfl := Option.some.inj h
      exact tagStep_unclosed hq
  · split at h
    · next hn =>
        obtain rfl := Option.some.inj h
        exact tagStep_number hn rfl hp he
    · split at h
      · next hw =>
          obtain rfl := Option.some.inj h
          obtain ⟨hpre, hword, hdash⟩ := boolean?_eq_some hw
          exact tagStep_word hpre hword hdash rfl hp he
      · obtain ⟨name, hn, rfl⟩ := Option.map_eq_some_iff.mp h
        exact tagStep_beginPath hn (isPart_referenceKind hk name)

/-- Where a value is expected, a part is taken or a fault is reported. -/
theorem tagStep_expectValue {missing : Fault} {bare : TokenKind} {resume : Resume}
    (hf : missing.isLocal = true) (hk : bare.isPart = true) (hb : 2 ≤ bound) :
    TagStep false bound m r (m.expectValue missing bare resume r.rest) := by
  rw [expectValue]
  split
  · exact tagStep_reportHere hf rfl rfl hb
  · cases hv : m.value? bare resume r.rest with
    | some reply => exact tagStep_value? hk hv
    | none => exact tagStep_unexpected hb

-- ── filters ──────────────────────────────────────────────────────────────────────

/-- A pipe is a part; without one the tag ends, or something is out of place. -/
theorem tagStep_pipe (hb : 2 ≤ bound) : TagStep false bound m r (m.stepPipe r.rest) := by
  rw [stepPipe]
  split
  · next hh => exact tagStep_char hh rfl (by decide) rfl rfl rfl
  · split
    · exact tagStep_close (by omega)
    · exact tagStep_unexpected hb

/-- The name of a filter is a part, known or not. -/
theorem tagStep_filterName (hb : 2 ≤ bound) : TagStep false bound m r (m.stepFilterName r.rest) := by
  rw [stepFilterName]
  split
  · next name hn =>
      dsimp only
      split
      · apply TagStep.of_grammar (.resolve (.setExpect .refl _) _)
        exact tagStep_name hn rfl rfl rfl
      · apply TagStep.of_grammar (.resolve (.setExpect .refl _) _)
        exact tagStep_name hn rfl rfl rfl
  · split
    · exact tagStep_reportHere rfl rfl rfl hb
    · exact tagStep_recover rfl hb

/-- Behind a filter that needs no arguments the step is that of a pipe. -/
theorem tagStep_colon (hb : 3 ≤ bound) : TagStep false bound m r (m.stepColon r.rest) := by
  have hpipe := tagStep_pipe (Nat.le_of_succ_le hb) (m := m.forgetFilter) (r := r)
  rw [stepColon]
  split
  · next hh =>
      split
      · exact tagStep_char hh rfl (by decide) rfl rfl rfl
      · exact tagStep_recover rfl (by omega)
  · split
    · apply TagStep.of_grammar (.resetFilter .refl)
      exact tagStep_reportHere rfl rfl rfl hb
    · exact hpipe.of_grammar (.resetFilter .refl)

/-- The value of an argument, taken or rejected. -/
theorem tagStep_argumentValue (hb : 3 ≤ bound) :
    TagStep false bound m r (m.stepArgumentValue r.rest) := by
  have hpart : ∀ (value : ValueType) (kind : TokenKind), kind.isPart = true →
      (if Grammar.accepts m.grammar value then kind
        else TokenKind.invalid (.rejected value)).isPart = true := by
    intro value kind hk
    split
    · exact hk
    · rfl
  rw [stepArgumentValue]
  split
  · apply TagStep.of_grammar (.resetFilter .refl)
    exact tagStep_reportHere rfl rfl rfl (Nat.lt_of_succ_lt hb)
  · split
    · apply TagStep.of_grammar (.resetFilter .refl)
      exact tagStep_reportHere rfl rfl rfl hb
    · split
      · next hq => exact tagStep_string hq (hpart .string .string rfl) rfl rfl
      · next hq => exact tagStep_unclosed hq
      · split
        · next hn => exact tagStep_number hn (hpart .integer .integer rfl) rfl rfl
        · next hn => exact tagStep_number hn (hpart .float .float rfl) rfl rfl
        · split
          · next hw =>
              obtain ⟨hpre, hword, hdash⟩ := boolean?_eq_some hw
              exact tagStep_word hpre hword hdash (hpart .boolean .boolean rfl) rfl rfl
          · split
            · next hn =>
                rw [acceptReference]
                split
                · exact tagStep_beginPath hn (isPart_referenceKind rfl _)
                · exact tagStep_name hn rfl rfl rfl
            · exact tagStep_unexpected (by omega)

/-- An argument is a part, is passed over with the rest, or is missing. -/
theorem tagStep_argument (hb : 3 ≤ bound) : TagStep false bound m r (m.stepArgument r.rest) := by
  rw [stepArgument]
  split
  · exact tagStep_skipRest (by omega)
  · exact tagStep_argumentValue hb
  · exact tagStep_close (by omega)

/-- Behind the last argument the step is that of a pipe. -/
theorem tagStep_separator (hb : 3 ≤ bound) : TagStep false bound m r (m.stepSeparator r.rest) := by
  have hpipe : ∀ g : γ, Grammar.Moves m.grammar g →
      TagStep false bound m r ({ m with grammar := g }.stepPipe r.rest) :=
    fun g hg => TagStep.of_grammar hg (tagStep_pipe (Nat.le_of_succ_le hb))
  rw [stepSeparator]
  split
  · next hh =>
      split
      · exact tagStep_char hh rfl (by decide) rfl rfl rfl
      · split
        · exact tagStep_recover rfl (by omega)
        · apply TagStep.of_grammar (.nextArgument .refl)
          exact tagStep_char hh rfl (by decide) rfl rfl rfl
  · split
    · split
      · exact hpipe _ (.resetFilter .refl)
      · split
        · apply TagStep.of_grammar (.resetFilter (.nextArgument .refl))
          exact tagStep_reportHere rfl rfl rfl hb
        · exact hpipe _ (.resetFilter (.nextArgument .refl))
    · split
      · exact tagStep_close (by omega)
      · exact tagStep_recover rfl (by omega)

-- ── conditions ───────────────────────────────────────────────────────────────────

/-- The operator comes next, and has no delimiter and no dash in it. -/
theorem operator?_eq_some {text word : List Char} (h : operator? text = some word) :
    word <+: text ∧ isPlainWord word = true ∧ '-' ∉ word := by
  have hsigns : ∀ word ∈ comparisons, isPlainWord word = true ∧ '-' ∉ word := by decide
  have hwords : ∀ word ∈ operatorWords, isPlainWord word = true ∧ '-' ∉ word := by decide
  rw [operator?] at h
  rcases Option.or_eq_some_iff.mp h with h | ⟨-, h⟩
  · have hpre : word.isPrefixOf text = true := by simpa using List.find?_some h
    exact ⟨List.isPrefixOf_iff_prefix.mp hpre, hsigns word (List.mem_of_find?_eq_some h)⟩
  · have hstart : startsWithWord word text = true := by simpa using List.find?_some h
    exact ⟨prefix_of_startsWithWord hstart, hwords word (List.mem_of_find?_eq_some h)⟩

/-- A condition begins with a value. -/
theorem tagStep_condition (hb : 2 ≤ bound) : TagStep false bound m r (m.stepCondition r.rest) :=
  tagStep_expectValue rfl rfl hb

/-- Operators and commas are parts; without one the tag ends, or recovery begins. -/
theorem tagStep_operator (hb : 2 ≤ bound) : TagStep false bound m r (m.stepOperator r.rest) := by
  rw [stepOperator]
  split
  · exact tagStep_close (by omega)
  · split
    · next hw =>
        obtain ⟨hpre, hword, hdash⟩ := operator?_eq_some hw
        exact tagStep_word hpre hword hdash rfl rfl rfl
    · split
      · next hh => exact tagStep_char hh rfl (by decide) rfl rfl rfl
      · exact tagStep_recover rfl hb

/-- A tag that takes no arguments ends behind its name. -/
theorem tagStep_controlStart (hb : 2 ≤ bound) :
    TagStep false bound m r (m.stepControl .start r.rest) := by
  show TagStep false bound m r
    (if Grammar.hasArguments m.grammar then m.stepCondition r.rest else m.close false r.rest)
  split
  · exact tagStep_condition hb
  · exact tagStep_close (Nat.le_of_succ_le hb)

-- ── loops ────────────────────────────────────────────────────────────────────────

theorem tagStep_loopVariable (hb : 2 ≤ bound) :
    TagStep false bound m r (m.stepLoopVariable r.rest) := by
  rw [stepLoopVariable]
  split
  · next hn => exact tagStep_name hn rfl rfl rfl
  · split
    · exact tagStep_reportHere rfl rfl rfl hb
    · exact tagStep_recover rfl hb

theorem tagStep_loopOperator (hb : 2 ≤ bound) :
    TagStep false bound m r (m.stepLoopOperator r.rest) := by
  rw [stepLoopOperator]
  split
  · next hw =>
      exact tagStep_word (prefix_of_startsWithWord hw) rfl (by decide) rfl rfl rfl
  · split
    · exact tagStep_reportHere rfl rfl rfl hb
    · exact tagStep_recover rfl hb

/-- A range is clear: no stop begins before its closing parenthesis, with which it ends. -/
theorem clear_range {form : TagForm} {text : List Char} {i : Nat}
    (h : indexBefore? [')'] form.stringStops text = some i) :
    Clear form (i + 1) text ∧ ¬ Dashed form (i + 1) text := by
  obtain ⟨hi, hno⟩ := indexBefore?_eq_some_iff.mp h
  have hat := (indexOf?_eq_some_iff.mp hi).1
  have hlen := indexOf?_add_length_le hi
  have hone : Clear form 1 (text.drop i) := (clear_word hat rfl).2
  refine ⟨Avoids.append ⟨Nat.le_of_succ_le hlen, hno⟩ hone, ?_⟩
  rintro ⟨hdash, -⟩
  have hpar : text[i]? = some ')' := by
    obtain ⟨tail, htail⟩ := hat
    rw [← List.head?_drop, ← htail]
    rfl
  rw [List.getLast?_take, if_neg (Nat.succ_ne_zero i), Nat.add_sub_cancel, hpar] at hdash
  cases hdash

/-- A range is a part, valid or not, and so is the name that begins a path. -/
theorem tagStep_collection (hb : 2 ≤ bound) :
    TagStep false bound m r (m.stepCollection r.rest) := by
  rw [stepCollection]
  split
  · exact tagStep_reportHere rfl rfl rfl hb
  · split
    · unfold stepRange
      split
      · next hi =>
          obtain ⟨hclear, hdash⟩ := clear_range hi
          dsimp only
          split
          · exact .part rfl (Nat.succ_pos _) hclear rfl rfl .refl (.of_not hdash)
          · exact .part rfl (Nat.succ_pos _) hclear rfl rfl .refl (.of_not hdash)
      · exact tagStep_recover rfl hb
    · split
      · next hn => exact tagStep_beginPath hn rfl
      · exact tagStep_recover rfl hb

/-- A parameter is a part, declared or not. -/
theorem tagStep_parameter (hb : 2 ≤ bound) :
    TagStep false bound m r (m.stepParameter r.rest) := by
  rw [stepParameter]
  split
  · exact tagStep_close (by omega)
  · split
    · next hn =>
        split
        · exact tagStep_name hn rfl rfl rfl
        · exact tagStep_name hn rfl rfl rfl
        · exact tagStep_name hn rfl rfl rfl
    · exact tagStep_unexpected hb

/-- The colon and the value of a parameter are parts. -/
theorem tagStep_parameterValue (hb : 2 ≤ bound) :
    TagStep false bound m r (m.stepParameterValue r) := by
  rw [stepParameterValue]
  split
  · next hh => exact tagStep_char hh rfl (by decide) rfl rfl rfl
  · split
    · exact tagStep_reportHere rfl rfl rfl hb
    · split
      · exact tagStep_recover rfl hb
      · split
        · next hn => exact tagStep_number hn rfl rfl rfl
        · split
          · next hn => exact tagStep_beginPath hn rfl
          · exact tagStep_recover rfl hb

-- ── assignments ──────────────────────────────────────────────────────────────────

/-- The name that is assigned to is a part. -/
theorem tagStep_assignedName (hb : 2 ≤ bound) :
    TagStep false bound m r (m.stepAssignedName r.rest) := by
  rw [stepAssignedName]
  split
  · next hn => exact tagStep_name hn rfl rfl rfl
  · split
    · exact tagStep_reportHere rfl rfl rfl hb
    · exact tagStep_recover rfl hb

/-- The operator of an assignment is a part; the tag may end without it. -/
theorem tagStep_assignmentOperator (hb : 2 ≤ bound) :
    TagStep false bound m r (m.stepAssignmentOperator r.rest) := by
  rw [stepAssignmentOperator]
  split
  · next hh => exact tagStep_char hh rfl (by decide) rfl rfl rfl
  · split
    · split
      · exact tagStep_reportHere rfl rfl rfl hb
      · exact tagStep_close (by omega)
    · exact tagStep_recover rfl hb

-- ── paths ────────────────────────────────────────────────────────────────────────

/-- The innermost bracket is closed, or given up on the way to the close delimiter. -/
theorem tagStep_keyEnd {resume : Resume} (hb : 2 ≤ bound) :
    TagStep false bound m r (m.stepKeyEnd resume r.rest) := by
  rw [stepKeyEnd]
  split
  · next hh =>
      split
      · exact tagStep_recover rfl hb
      · next bracket hin =>
          have hne : m.brackets.isEmpty = false := by
            unfold Brackets.innermost? at hin
            unfold Brackets.isEmpty
            cases hs : m.brackets.stack with
            | nil => rw [hs] at hin; exact nomatch hin
            | cons _ _ => rfl
          dsimp only
          split
          · apply TagStep.of_grammar (.releaseObject .refl)
            exact .closeBracket hh hne rfl rfl hb .refl
          · exact .closeBracket hh hne rfl rfl hb .refl
  · split
    · exact tagStep_close (by omega)
    · exact tagStep_recover rfl hb

/-- Behind a value a step is one of those that the value goes back to. -/
theorem tagStep_resume {resume : Resume} (hb : 3 ≤ bound) :
    TagStep false bound m r (m.stepResume resume r.rest) := by
  cases resume with
  | filters => exact tagStep_pipe (by omega)
  | condition => exact tagStep_operator (by omega)
  | parameters => exact tagStep_parameter (by omega)
  | arguments => exact tagStep_separator hb

/-- A dot is a part, a bracket opens, or the path has ended. -/
theorem tagStep_member {resume : Resume} (hb : 3 ≤ bound) :
    TagStep false bound m r (m.stepMember resume r) := by
  rw [stepMember]
  split
  · next tail hr =>
      have hh : r.rest.head? = some '.' := by rw [hr]; rfl
      split
      · exact tagStep_char hh rfl (by decide) rfl rfl rfl
      · split
        · exact tagStep_recover rfl (by omega)
        · exact tagStep_recover rfl (by omega)
  · next tail hr =>
      have hh : r.rest.head? = some '[' := by rw [hr]; rfl
      exact .openBracket hh rfl rfl (by omega) .refl
  · split
    · exact tagStep_keyEnd (by omega)
    · split
      · exact tagStep_recover rfl (by omega)
      · apply TagStep.of_grammar (.releaseObject .refl)
        exact tagStep_resume hb

/-- A property is a part of the tag, whether the object has it or not. -/
theorem isPart_property {known : Option Bool} {kind : TokenKind} (hk : kind.isPart = true) :
    (if known = some false then TokenKind.invalid .unknownProperty else kind).isPart = true := by
  split
  · rfl
  · exact hk

theorem tagStep_dot {resume : Resume} (hb : 2 ≤ bound) :
    TagStep false bound m r (m.stepDot resume r.rest) := by
  rw [stepDot]
  split
  · next hn =>
      apply TagStep.of_grammar (.enterProperty .refl _)
      exact tagStep_name hn (isPart_property rfl) rfl rfl
  · exact tagStep_recover rfl hb

/-- A key is a part; one that is a path marks its bracket. -/
theorem tagStep_key {resume : Resume} (hb : 3 ≤ bound) :
    TagStep false bound m r (m.stepKey resume r.rest) := by
  rw [stepKey]
  split
  · exact tagStep_reportHere rfl rfl rfl hb
  · split
    · exact tagStep_reportHere rfl rfl rfl (Nat.lt_of_succ_lt hb)
    · split
      · next hq =>
          dsimp only
          split
          · exact tagStep_string hq rfl rfl rfl
          · apply TagStep.of_grammar (.enterProperty .refl _)
            exact tagStep_string hq (isPart_property rfl) rfl rfl
      · next hq => exact tagStep_unclosed hq
      · dsimp only
        split
        · next hn =>
            apply TagStep.of_grammar (.releaseObject .refl)
            exact tagStep_number hn rfl rfl rfl
        · split
          · next hn =>
              obtain ⟨-, hpos, -⟩ := identifier?_eq_some hn
              exact .keyPath (isPart_referenceKind rfl _) hpos (clear_identifier hn) rfl rfl
                (.resolve (.setExpect (.releaseObject .refl) _) _) (.of_name hn)
          · apply TagStep.of_grammar (.releaseObject .refl)
            exact tagStep_unexpected (by omega)

-- ── the name of the tag ──────────────────────────────────────────────────────────

/-- The name of a tag begins it; an unknown name and a note are parts. -/
theorem tagStep_tagName (hp : m.phase = .opened) (hb : 2 ≤ bound) :
    TagStep false bound m r (m.stepTagName r) := by
  rw [stepTagName]
  split
  · exact tagStep_reportHere rfl rfl rfl hb
  · split
    · next hh =>
        exact .part rfl (recoveryEnd_pos hh rfl (by decide)) (clear_recoveryEnd _ _) rfl rfl .refl
          (.of_not (not_dashed_recoveryEnd _ _))
    · split
      · exact tagStep_recover rfl hb
      · next name hn =>
          dsimp only
          split
          · exact .startTag hp hn rfl (.resolve (.setExpect .refl _) _)
          · apply TagStep.of_grammar (.resolve (.setExpect .refl _) _)
            exact tagStep_name hn rfl rfl rfl

/-- Behind the open delimiter stand a trim dash, the mark of an output tag, or a name. -/
theorem tagStep_opened (hp : m.phase = .opened) (hb : 3 ≤ bound) :
    TagStep false bound m r (m.stepOpened r) := by
  rw [stepOpened]
  split
  · next hd => exact .trimLeft hp hd.1 hd.2 .refl
  · split
    · next hf => exact .outputTag hp hf hb .refl
    · next hf =>
      split
      · next name hn =>
          split
          · next block hc => exact .endTag hp hn hc .refl hf
          · exact tagStep_tagName hp (by omega)
      · exact tagStep_tagName hp (by omega)

/-- Behind the name of an embedded tag the rest is passed over, or the tag ends. -/
theorem tagStep_embedded (hb : 2 ≤ bound) : TagStep false bound m r (m.stepEmbedded r.rest) := by
  rw [stepEmbedded]
  split
  · exact tagStep_skipRest hb
  · exact tagStep_close (Nat.le_of_succ_le hb)

-- ── any phase ────────────────────────────────────────────────────────────────────

/-- A phase inside a tag answers in one of the fifteen ways. -/
theorem tagStep_stepPhase (h : m.phase.inTag = true) :
    TagStep m.phase.isEnding m.phase.rank m r (m.stepPhase r) := by
  rw [stepPhase]
  split
  · next hp => rw [hp] at h; exact nomatch h
  · next hp => rw [hp]; exact tagStep_opened hp (Nat.le_refl _)
  · next hp => rw [hp]; exact tagStep_expectValue rfl rfl (Nat.le_refl _)
  · next hp => rw [hp]; exact tagStep_skipRest (Nat.le_refl _)
  · next hp => rw [hp] at h; exact nomatch h
  · next phase hp =>
      rw [hp]
      cases phase with
      | variableName => exact tagStep_loopVariable (Nat.le_refl _)
      | operator => exact tagStep_loopOperator (Nat.le_refl _)
      | collection => exact tagStep_collection (Nat.le_refl _)
      | parameter => exact tagStep_parameter (Nat.le_refl _)
      | parameterValue => exact tagStep_parameterValue (Nat.le_refl _)
  · next phase hp =>
      rw [hp]
      cases phase with
      | name => exact tagStep_assignedName (Nat.le_refl _)
      | operator => exact tagStep_assignmentOperator (Nat.le_refl _)
      | value => exact tagStep_expectValue rfl rfl (Nat.le_refl _)
  · next phase hp =>
      rw [hp]
      cases phase with
      | start => exact tagStep_controlStart (Nat.le_refl _)
      | condition => exact tagStep_condition (Nat.le_refl _)
      | operator => exact tagStep_operator (Nat.le_refl _)
  · next hp => rw [hp]; exact tagStep_embedded (Nat.le_refl _)
  · next phase resume hp =>
      rw [hp]
      cases phase with
      | member => exact tagStep_member (Nat.le_refl _)
      | dot => exact tagStep_dot (Nat.le_refl _)
      | key => exact tagStep_key (Nat.le_refl _)
      | keyEnd => exact tagStep_keyEnd (Nat.le_refl _)
  · next phase hp =>
      rw [hp]
      cases phase with
      | pipe => exact tagStep_pipe (Nat.le_refl _)
      | name => exact tagStep_filterName (Nat.le_refl _)
      | colon => exact tagStep_colon (Nat.le_refl _)
      | argument => exact tagStep_argument (Nat.le_refl _)
      | separator => exact tagStep_separator (Nat.le_refl _)
  · next hp => rw [hp]; exact tagStep_skipRest (Nat.le_refl _)
  · next ending hp => rw [hp]; exact tagStep_close (Nat.le_refl _)

-- ── any step ─────────────────────────────────────────────────────────────────────

/-- At the end of the document the brackets are given up, and then the tag. -/
theorem tagStep_stepEnd (h : m.phase.inTag = true) (hr : r.atEnd = true) :
    TagStep m.phase.isEnding m.phase.rank m r (m.stepEnd r.document.size) := by
  have hrest : r.rest = [] := List.isEmpty_iff.mp hr
  rw [stepEnd, if_pos h]
  by_cases hb : m.brackets.isEmpty = true
  · rw [hb]
    refine .abandoned hb ?_ .refl
    rw [hrest]
    cases m.tag.form <;> rfl
  · rw [Bool.not_eq_true] at hb
    rw [hb]
    exact .dropBracket hb (Or.inl rfl) (Nat.le_refl _) (Or.inr hrest) .refl

/-- **Steps inside a tag.**  Whatever the machine and wherever the cursor is, a step in a phase
    inside a tag answers in one of the fifteen ways. -/
theorem step_inTag (m : Machine γ) (r : Reader) (h : m.phase.inTag = true) :
    TagStep m.phase.isEnding m.phase.rank m r (m.step r) := by
  rw [step]
  by_cases hend : r.atEnd = true
  · rw [if_pos hend]
    exact tagStep_stepEnd h hend
  · rw [if_neg hend]
    have hlit : m.phase ≠ .literal := by
      intro hp
      rw [hp] at h
      exact nomatch h
    rw [if_neg hlit]
    dsimp only
    by_cases hs : (r.rest.takeWhile isSpacing).isEmpty = true
    · by_cases hl : (r.rest.takeWhile isLineBreak).isEmpty = true
      · rw [hs, hl]
        exact tagStep_stepPhase h
      · rw [Bool.not_eq_true] at hl
        rw [hs, hl]
        refine .space (Or.inr rfl) ?_ (clear_takeWhile rfl rfl rfl) .refl
          fun c hc => by rw [isTagBlank, of_mem_take_takeWhile hc, Bool.or_true]
        exact List.length_pos_iff.mpr (List.isEmpty_eq_false_iff.mp hl)
    · rw [Bool.not_eq_true] at hs
      rw [hs]
      refine .space (Or.inl rfl) ?_ (clear_takeWhile rfl rfl rfl) .refl
        fun c hc => by rw [isTagBlank, of_mem_take_takeWhile hc, Bool.true_or]
      exact List.length_pos_iff.mpr (List.isEmpty_eq_false_iff.mp hs)

end TemplateScan.Machine
