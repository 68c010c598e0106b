import TemplateScan.Proofs.Scan.Clear
import TemplateScan.Scan.Step

/-! # Steps inside a tag — everything that one of them can answer

    A step inside a tag answers in one of fifteen ways, and `TagStep` lists them with what is known
    about the text taken and about the machine that goes on.  The functions that make up the step
    are opened here and in the module on the phases; what holds of a tag is proved by cases on
    `TagStep`.  Only the steps up to the name of a tag are looked at again, for the blocks.

    * **`Clear`** text — whatever is taken before the close delimiter holds no delimiter.
    * **`Phase.rank`** — an answer without text leads to a phase of smaller rank, so only so many of
      them can follow one another.
    * **`Grammar.Moves`** — the grammar goes on as it was, or as one that it has moved to.
    * **`step_inTag`** — every step in a phase inside a tag is one of the fifteen. -/

namespace TemplateScan

open Text

-- ── phases ───────────────────────────────────────────────────────────────────────

/-- How many answers without text a phase can lead to, beside those that give up a bracket. -/
def Phase.rank : Phase → Nat
  | .literal => 0
  | .close _ | .markup _ => 1
  | .opened | .path .member _ | .path .key _ => 3
  | .filter .colon | .filter .argument | .filter .separator => 3
  | _ => 2

/-- The name of an end tag has been taken. -/
def Phase.isEnding : Phase → Bool
  | .close ending => ending
  | _ => false

/-- The phase is inside a tag whose name, or whose mark, has been taken. -/
def Phase.isNamed : Phase → Bool
  | .literal | .markup _ | .opened => false
  | _ => true

-- ── kinds of token ───────────────────────────────────────────────────────────────

/-- The fault neither ends a tag nor gives up a bracket. -/
def Fault.isLocal : Fault → Bool
  | .missingEndTag | .missingBracket | .missingClose => false
  | _ => true

/-- The token is part of a tag; delimiters, trim dashes, white space, brackets, the name of an end
    tag and the mark of an output tag are not counted among the parts. -/
def TokenKind.isPart : TokenKind → Bool
  | .openDelimiter | .closeDelimiter | .endDelimiter | .trimLeft | .trimRight => false
  | .outputTag | .endTag | .openBracket | .closeBracket | .spacing | .lineBreak => false
  | .rawBody | .embeddedBody _ => false
  | .markupName | .attributeName | .attributeOperator | .attributeValue | .markupClose => false
  | .endMarkupName | .endMarkupClose | .cancelled => false
  | .invalid fault => fault.isLocal
  | _ => true

-- ── grammars ─────────────────────────────────────────────────────────────────────

/-- A grammar and what the scanner can make of it by moving in it. -/
inductive Grammar.Moves {γ : Type} [Grammar γ] (g : γ) : γ → Prop where
  | refl : Moves g g
  | setExpect {g'} (h : Moves g g') (expect : Expect) : Moves g (Grammar.setExpect g' expect)
  | resolve {g'} (h : Moves g g') (name : String) : Moves g (Grammar.resolve g' name)
  | enterProperty {g'} (h : Moves g g') (name : String) : Moves g (Grammar.enterProperty g' name)
  | releaseObject {g'} (h : Moves g g') : Moves g (Grammar.releaseObject g')
  | nextArgument {g'} (h : Moves g g') : Moves g (Grammar.nextArgument g')
  | resetFilter {g'} (h : Moves g g') : Moves g (Grammar.resetFilter g')

/-- Moves may follow one another. -/
theorem Grammar.Moves.trans {γ : Type} [Grammar γ] {g g' g'' : γ} (h : Moves g g')
    (h' : Moves g' g'') : Moves g g'' := by
  induction h' with
  | refl => exact h
  | setExpect _ expect ih => exact .setExpect ih expect
  | resolve _ name ih => exact .resolve ih name
  | enterProperty _ name ih => exact .enterProperty ih name
  | releaseObject _ ih => exact .releaseObject ih
  | nextArgument _ ih => exact .nextArgument ih
  | resetFilter _ ih => exact .resetFilter ih

-- ── white space and trim dashes ──────────────────────────────────────────────────

/-- A character of the white space inside tags. -/
def isTagBlank (c : Char) : Bool :=
  isSpacing c || isLineBreak c

/-- The dash right before the close delimiter is not taken, unless as the last character of a name
    or of a string without its end. -/
def LeavesDash (form : TagForm) (kind : TokenKind) (n : Nat) (text : List Char) : Prop :=
  Dashed form n text →
    kind = .invalid .missingQuotation ∨ identifier? text = some (text.take n)

/-- Where no dash stands before the close delimiter, none is taken. -/
theorem LeavesDash.of_not {form : TagForm} {kind : TokenKind} {n : Nat} {text : List Char}
    (h : ¬ Dashed form n text) : LeavesDash form kind n text :=
  fun hd => absurd hd h

/-- A name is taken with the dash at its end. -/
theorem LeavesDash.of_name {form : TagForm} {kind : TokenKind} {name text : List Char}
    (h : identifier? text = some name) : LeavesDash form kind name.length text := by
  intro _
  right
  rw [← List.prefix_iff_eq_take.mp (identifier?_eq_some h).1]
  exact h

namespace Machine

variable {γ : Type} [Grammar γ]

-- ── the fifteen answers ──────────────────────────────────────────────────────────

/-- What one step inside a tag can answer.  `ending` says whether the name of an end tag has been
    taken; answers without text lead to phases of a rank below `bound`.  In the machine that goes on
    the grammar is the one before, or one that it has moved to. -/
inductive TagStep (ending : Bool) (bound : Nat) (m : Machine γ) (r : Reader) : Reply γ → Prop where
  /-- White space. -/
  | space {kind n} {g : γ} (hk : kind = .spacing ∨ kind = .lineBreak) (hn : 0 < n)
      (hc : Clear m.tag.form n r.rest)
      (hg : Grammar.Moves m.grammar g)
      (hb : ∀ c ∈ r.rest.take n, isTagBlank c = true) :
      TagStep ending bound m r ⟨.token kind, .take n, { m with grammar := g }⟩
  /-- The dash right behind the open delimiter. -/
  | trimLeft {g : γ} (hp : m.phase = .opened)
      (ho : r.offset = m.tag.start + m.tag.form.opener.length) (hd : r.rest.head? = some '-')
      (hg : Grammar.Moves m.grammar g) :
      TagStep ending bound m r ({ m with grammar := g }.emit .trimLeft 1 .opened)
  /-- The mark of an output tag. -/
  | outputTag {g : γ} (hp : m.phase = .opened) (hf : m.tag.form = .output) (hb : 2 < bound)
      (hg : Grammar.Moves m.grammar g) :
      TagStep ending bound m r ({ m with grammar := g }.emit .outputTag 0 .outputValue)
  /-- The name of a tag that the grammar knows. -/
  | startTag {g : γ} {name} (hp : m.phase = .opened) (hn : identifier? r.rest = some name)
      (he : ending = false)
      (hg : Grammar.Moves m.grammar g) :
      TagStep ending bound m r ({ m with grammar := g }.takeStartTag name r.document)
  /-- The name of an end tag. -/
  | endTag {g : γ} {name block} (hp : m.phase = .opened) (hn : identifier? r.rest = some name)
      (hb : closedName? name = some block)
      (hg : Grammar.Moves m.grammar g) (hf : m.tag.form = .statement) :
      TagStep ending bound m r ({ m with grammar := g }.takeEndTag name block)
  /-- Some text without a delimiter in it. -/
  | part {kind n} {g : γ} {p} (hk : kind.isPart = true) (hn : 0 < n)
      (hc : Clear m.tag.form n r.rest) (hp : p.isNamed = true) (he : p.isEnding = ending)
      (hg : Grammar.Moves m.grammar g) (hd : LeavesDash m.tag.form kind n r.rest) :
      TagStep ending bound m r ⟨.token kind, .take n, { m with grammar := g, phase := p }⟩
  /-- A fault at the cursor. -/
  | mark {fault} {g : γ} {p} (hf : fault.isLocal = true) (hp : p.isNamed = true)
      (he : p.isEnding = ending) (hb : p.rank < bound)
      (hg : Grammar.Moves m.grammar g) :
      TagStep ending bound m r
        ⟨.token (.invalid fault), .take 0, { m with grammar := g, phase := p }⟩
  /-- A fault that covers everything up to the end of the tag. -/
  | recovered {fault} {g : γ} (hf : fault.isLocal = true) (he : ending = false) (hb : 1 < bound)
      (hg : Grammar.Moves m.grammar g) :
      TagStep ending bound m r ⟨.token (.invalid fault), .take (recoveryEnd m.tag.form r.rest),
        { m with grammar := g, phase := .close false }⟩
  /-- An opening bracket. -/
  | openBracket {g : γ} {p} (hh : r.rest.head? = some '[') (hp : p.isNamed = true)
      (he : p.isEnding = ending) (hb : 1 < bound)
      (hg : Grammar.Moves m.grammar g) :
      TagStep ending bound m r ⟨.token .openBracket, .take 1,
        { m with grammar := g, brackets := m.brackets.push r.offset, phase := p }⟩
  /-- The bracket that closes the innermost one. -/
  | closeBracket {g : γ} {p} (hh : r.rest.head? = some ']') (hb : m.brackets.isEmpty = false)
      (hp : p.isNamed = true) (he : p.isEnding = ending) (hr : 1 < bound)
      (hg : Grammar.Moves m.grammar g) :
      TagStep ending bound m r ⟨.token .closeBracket, .take 1,
        { m with grammar := g, brackets := m.brackets.pop, phase := p }⟩
  /-- The name that begins a path in a bracket. -/
  | keyPath {kind n} {g : γ} {p} (hk : kind.isPart = true) (hn : 0 < n)
      (hc : Clear m.tag.form n r.rest) (hp : p.isNamed = true) (he : p.isEnding = ending)
      (hg : Grammar.Moves m.grammar g) (hd : LeavesDash m.tag.form kind n r.rest) :
      TagStep ending bound m r ⟨.token kind, .take n,
        { m with grammar := g, brackets := m.brackets.markDynamic, phase := p }⟩
  /-- The innermost bracket is given up, before the close delimiter or where the text ends. -/
  | dropBracket {g : γ} {p} (hb : m.brackets.isEmpty = false)
      (hp : p = m.phase ∨ p = .close ending) (hr : p.rank ≤ bound)
      (hl : p = .close ending ∨ r.rest = [])
      (hg : Grammar.Moves m.grammar g) :
      TagStep ending bound m r ⟨.token (.invalid .missingBracket), .take 0,
        { m with grammar := g, brackets := m.brackets.pop, phase := p }⟩
  /-- The dash before the close delimiter. -/
  | trimRight {g : γ} (hb : m.brackets.isEmpty = true)
      (hd : '-' :: m.tag.form.closer <+: r.rest)
      (hg : Grammar.Moves m.grammar g) :
      TagStep ending bound m r
        ⟨.token .trimRight, .take 1, { m with grammar := g, phase := .close ending }⟩
  /-- The close delimiter. -/
  | closed {g : γ} (hb : m.brackets.isEmpty = true) (hc : m.tag.form.closer <+: r.rest)
      (hg : Grammar.Moves m.grammar g) :
      TagStep ending bound m r ⟨.token (if ending then .endDelimiter else .closeDelimiter),
        .take m.tag.form.closer.length, { m with grammar := g }.leaveTag⟩
  /-- The close delimiter does not come before another tag opens. -/
  | abandoned {g : γ} (hb : m.brackets.isEmpty = true) (he : tagEnd? m.tag.form r.rest = none)
      (hg : Grammar.Moves m.grammar g) :
      TagStep ending bound m r
        ⟨.token (.invalid .missingClose), .take 0, { m with grammar := g }.leaveTag⟩

variable {ending : Bool} {bound : Nat} {m : Machine γ} {r : Reader} {reply : Reply γ}

/-- What a machine can answer in a grammar that it moves to, it can answer where it comes from. -/
theorem TagStep.of_grammar {g : γ} (hg : Grammar.Moves m.grammar g)
    (h : TagStep ending bound { m with grammar := g } r reply) :
    TagStep ending bound m r reply := by
  cases h with
  | space hk hn hc hm hb => exact .space hk hn hc (hg.trans hm) hb
  | trimLeft hp ho hd hm => exact .trimLeft hp ho hd (hg.trans hm)
  | outputTag hp hf hb hm => exact .outputTag hp hf hb (hg.trans hm)
  | startTag hp hn he hm => exact .startTag hp hn he (hg.trans hm)
  | endTag hp hn hb hm hf => exact .endTag hp hn hb (hg.trans hm) hf
  | part hk hn hc hp he hm hd => exact .part hk hn hc hp he (hg.trans hm) hd
  | mark hf hp he hb hm => exact .mark hf hp he hb (hg.trans hm)
  | recovered hf he hb hm => exact .recovered hf he hb (hg.trans hm)
  | openBracket hh hp he hb hm => exact .openBracket hh hp he hb (hg.trans hm)
  | closeBracket hh hb hp he hr hm => exact .closeBracket hh hb hp he hr (hg.trans hm)
  | keyPath hk hn hc hp he hm hd => exact .keyPath hk hn hc hp he (hg.trans hm) hd
  | dropBracket hb hp hr hl hm => exact .dropBracket hb hp hr hl (hg.trans hm)
  | trimRight hb hd hm => exact .trimRight hb hd (hg.trans hm)
  | closed hb hc hm => exact .closed hb hc (hg.trans hm)
  | abandoned hb he hm => exact .abandoned hb he (hg.trans hm)

-- ── the way to the close delimiter ───────────────────────────────────────────────

/-- A dash with spaces behind it is no trim dash. -/
theorem spacedDash?_eq_some {form : TagForm} {text : List Char} {n : Nat}
    (h : spacedDash? form text = some n) :
    0 < n ∧ Clear form n text ∧ ¬ Dashed form n text := by
  unfold spacedDash? at h
  split at h
  · next tail =>
      simp only [Option.ite_none_right_eq_some, Option.some.injEq, Bool.and_eq_true,
        Bool.not_eq_true', List.isEmpty_eq_false_iff] at h
      obtain ⟨⟨hne, -⟩, rfl⟩ := h
      have hpre : '-' :: tail.takeWhile isSpacing <+: '-' :: tail :=
        List.cons_prefix_cons.mpr ⟨rfl, List.takeWhile_prefix _⟩
      have hspacing : ∀ c ∈ tail.takeWhile isSpacing, isSpacing c = true :=
        List.all_eq_true.mp List.all_takeWhile
      refine ⟨by omega, ?_, ?_⟩
      · rw [Nat.add_comm]
        refine Clear.of_prefix hpre fun c hc => ?_
        rcases List.mem_cons.mp hc with rfl | hc
        · rfl
        · exact isDelimiterChar_eq_false rfl rfl rfl (hspacing c hc)
      · -- spaces stand between the dash and the close delimiter
        rw [Nat.add_comm]
        refine not_dashed_of_leading hpre (List.getLast?_eq_some_getLast (List.cons_ne_nil _ _)) ?_
        rw [List.getLast_cons hne]
        intro hdash
        have hs := hspacing _ (List.getLast_mem hne)
        rw [hdash] at hs
        cases hs
  · cases h

/-- On the way to the close delimiter a bracket is given up, or a dash, the delimiter or a fault is
    taken; or the tag is abandoned. -/
theorem tagStep_close (hb : 1 ≤ bound) : TagStep ending bound m r (m.close ending r.rest) := by
  unfold close
  by_cases he : m.brackets.isEmpty = true
  · simp only [he, Bool.not_true, Bool.false_eq_true, if_false]
    by_cases hd : ('-' :: m.tag.form.closer).isPrefixOf r.rest = true
    · rw [if_pos hd]
      exact .trimRight he (List.isPrefixOf_iff_prefix.mp hd) .refl
    · rw [if_neg hd]
      split
      · next n hn =>
          obtain ⟨hpos, hclear, hdash⟩ := spacedDash?_eq_some hn
          exact .part rfl hpos hclear rfl rfl .refl (.of_not hdash)
      · by_cases hc : m.tag.form.closer.isPrefixOf r.rest = true
        · rw [if_pos hc]
          exact .closed he (List.isPrefixOf_iff_prefix.mp hc) .refl
        · rw [if_neg hc]
          split
          · next n hn =>
              have hpos : 0 < n :=
                tagEnd?_pos hn (fun h => hc (List.isPrefixOf_iff_prefix.mpr h))
                  (fun h => hd (List.isPrefixOf_iff_prefix.mpr h))
              refine .part ?_ hpos (clear_tagEnd hn) rfl rfl .refl (.of_not (not_dashed_tagEnd hn))
              split <;> rfl
          · next hn => exact .abandoned he hn .refl
  · rw [Bool.not_eq_true] at he
    rw [he]
    exact .dropBracket he (Or.inr rfl) hb (Or.inl rfl) .refl

theorem tagStep_recover {fault : Fault} (hf : fault.isLocal = true) (hb : 2 ≤ bound) :
    TagStep false bound m r (m.recover fault r.rest) :=
  .recovered hf rfl hb .refl

theorem tagStep_unexpected (hb : 2 ≤ bound) : TagStep false bound m r (m.unexpected r.rest) := by
  unfold unexpected
  split
  · exact tagStep_close (by omega)
  · split
    · exact tagStep_recover rfl hb
    · exact tagStep_recover rfl hb

/-- The rest of a tag is a part; with nothing left the tag ends. -/
theorem tagStep_skipRest (hb : 2 ≤ bound) : TagStep false bound m r (m.skipRest r.rest) := by
  unfold skipRest
  by_cases hn : recoveryEnd m.tag.form r.rest = 0
  · simp only [hn, if_true]
    exact tagStep_close (by omega)
  · simp only [hn, if_false]
    exact .part rfl (Nat.pos_of_ne_zero hn) (clear_recoveryEnd _ _) rfl rfl .refl
      (.of_not (not_dashed_recoveryEnd _ _))

end Machine

end TemplateScan
