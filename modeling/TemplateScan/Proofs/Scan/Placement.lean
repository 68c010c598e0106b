import TemplateScan.Proofs.Scan.BodyEnd
import TemplateScan.Proofs.Scan.PrintedTags

/-! # Placement — the innermost opening that waits decides where a tag may stand

    A rule can list the tags directly inside which its tag may stand.  Before the name of a tag is
    taken, the latest opening that still waits in the replay of the tokens so far, of a tag or of an
    element, is the one that surrounds it.  Nothing else is asked, and nothing but the kind of the
    token depends on the answer.

    * **`Follows.parent?_eq`** — the innermost block is the latest opening that waits.
    * **`NamesTag.takes`** — the scan that takes the name, in any run.
    * **`placement_by_innermost`** — which tags are out of place, in any run. -/

namespace TemplateScan

open Text

/-- The rule lists the openings directly inside which its tag may stand, and the latest of those
    that wait is not among them, or none waits. -/
structure TagRule.MisplacedIn (rule : TagRule) (waiting : List Opening) : Prop where
  restricted : rule.parents ≠ []
  outside : ∀ o, waiting.head? = some o → o.key.text ∉ rule.parents

/-- The innermost block is the latest opening that waits. -/
theorem Follows.parent?_eq {dialect : Dialect} {m : Machine Lookup} {r : Reader} {p : Replay}
    (h : Follows dialect m r p) : m.blocks.parent? = p.waiting.head?.map fun o => o.key.text := by
  have hlast := congrArg List.head? h.blocks
  rw [List.head?_reverse, List.head?_map] at hlast
  rw [Blocks.parent?, Blocks.innermost?, hlast, Option.map_map]
  rfl

/-- A rule forbids what surrounds its tag exactly when the tag is out of place there. -/
theorem TagRule.forbids_iff {rule : TagRule} {waiting : List Opening} :
    (rule.hasPlacement && !rule.allowsParent (waiting.head?.map fun o => o.key.text)) = true ↔
      rule.MisplacedIn waiting := by
  have hplacement : rule.hasPlacement = true ↔ rule.parents ≠ [] := by
    rw [TagRule.hasPlacement, Bool.not_eq_true', List.isEmpty_eq_false_iff]
  rw [Bool.and_eq_true, Bool.not_eq_true', hplacement]
  constructor
  · rintro ⟨hrestricted, hforbids⟩
    refine ⟨hrestricted, fun o ho hmem => ?_⟩
    rw [ho] at hforbids
    obtain ⟨-, hnot⟩ := Bool.or_eq_false_iff.mp hforbids
    rw [← List.contains_iff_mem, hnot] at hmem
    exact Bool.false_ne_true hmem
  · rintro ⟨hrestricted, houtside⟩
    refine ⟨hrestricted, ?_⟩
    cases hhead : waiting.head? with
    | none => rw [Option.map_none, TagRule.allowsParent, hplacement.mpr hrestricted]; rfl
    | some o =>
        have hnot : rule.parents.contains o.key.text = false := by
          rw [Bool.eq_false_iff, ne_eq, List.contains_iff_mem]
          exact houtside o hhead
        rw [Option.map_some, TagRule.allowsParent, hplacement.mpr hrestricted, hnot]
        rfl

namespace Scanner

variable {dialect : Dialect} {source : String} {i : Nat} {name : List Char} {rule : TagRule}

/-- The scan takes the name, as a fault when the rule forbids what surrounds the tag, and goes on in
    the same way as elsewhere. -/
theorem NamesTag.takes (h : (ofString source dialect.lookup).NamesTag dialect i name rule) :
    let s := ofString source dialect.lookup
    let parent? := (s.replayUpTo dialect i).waiting.head?.map fun o => o.key.text
    s.lexemeAt i = some ⟨if rule.hasPlacement && !rule.allowsParent parent? then
        .invalid .misplacedTag else rule.identity.1, name⟩ ∧
      (s.after (i + 1)).machine = (s.after i).machine.named name rule s.reader.document := by
  intro s parent?
  have hstep : (s.after i).machine.step (s.after i).reader = _ := h.step_eq
  have hevent : s.eventAt i ≠ .finished := by
    rw [eventAt, event_scanHere, hstep]
    rintro ⟨⟩
  obtain ⟨hfollows, -⟩ := follows_after source dialect (not_finished_of_not_finished hevent)
  rw [hfollows.parent?_eq] at hstep
  constructor
  · have hname := List.prefix_iff_eq_take.mp (identifier?_eq_some h.reads).1
    rw [lexemeAt_of_token (congrArg Reply.event hstep), after_succ, reader_scanHere, hstep]
    show some (Lexeme.mk _ ((s.after i).reader.capture name.length).token) = _
    rw [Reader.token_capture, ← hname]
  · rw [after_succ, machine_scanHere, hstep]

/-- **Placement.**  In a run from the start of any text, in any dialect, let a scan take the name of
    a tag.  It reports the name as out of place exactly when the rule of the tag is restricted and
    the latest opening that waits before the scan, in the replay of the tokens so far, is not one of
    those listed, or none waits; otherwise it finds the token of the tag's category.  Either way the
    tag opens its block, has its body passed over and goes on as its rule says. -/
theorem placement_by_innermost
    (h : (ofString source dialect.lookup).NamesTag dialect i name rule) :
    let s := ofString source dialect.lookup
    let waiting := (s.replayUpTo dialect i).waiting
    (s.lexemeAt i = some ⟨.invalid .misplacedTag, name⟩ ↔ rule.MisplacedIn waiting) ∧
      (s.lexemeAt i = some ⟨rule.identity.1, name⟩ ↔ ¬ rule.MisplacedIn waiting) ∧
      (s.after (i + 1)).machine = (s.after i).machine.named name rule s.reader.document := by
  intro s waiting
  obtain ⟨hlexeme, hmachine⟩ := h.takes
  have hordinary : rule.identity.1 ≠ .invalid .misplacedTag := by
    intro hinvalid
    have hnot := rule.isOrdinary_identity
    rw [hinvalid] at hnot
    cases hnot
  cases hforbids : rule.hasPlacement &&
      !rule.allowsParent (waiting.head?.map fun o => o.key.text) with
  | true =>
      have hmisplaced := TagRule.forbids_iff.mp hforbids
      rw [hforbids, if_pos rfl] at hlexeme
      refine ⟨iff_of_true hlexeme hmisplaced, iff_of_false ?_ (not_not_intro hmisplaced), hmachine⟩
      rw [hlexeme]
      exact fun heq => hordinary (congrArg Lexeme.kind (Option.some.inj heq)).symm
  | false =>
      have hplaced : ¬ rule.MisplacedIn waiting := fun h =>
        Bool.false_ne_true (hforbids.symm.trans (TagRule.forbids_iff.mpr h))
      rw [hforbids, if_neg Bool.false_ne_true] at hlexeme
      refine ⟨iff_of_false ?_ hplaced, iff_of_true hlexeme hplaced, hmachine⟩
      rw [hlexeme]
      exact fun heq => hordinary (congrArg Lexeme.kind (Option.some.inj heq))

/-- Inside a loop inside a condition, a tag that may stand in a condition only is out of place. -/
theorem placement_by_innermost_loop :
    let s := ofString "\x7b%if a%\x7d\x7b%for b in c%\x7d\x7b%elsif d%\x7d" Dialect.standard.lookup
    let name := "elsif".toList
    let rule := (TagRule.ofKind .control).withArguments.within ["if", "unless"]
    s.NamesTag Dialect.standard 15 name rule ∧
      (s.replayUpTo Dialect.standard 15).waiting.map (fun o => o.key.text) = ["for", "if"] ∧
      rule.MisplacedIn (s.replayUpTo Dialect.standard 15).waiting ∧
      s.lexemeAt 15 = some ⟨.invalid .misplacedTag, name⟩ := by
  intro s name rule
  obtain ⟨hopened, hform, hreads⟩ : (s.after 15).machine.phase = .opened ∧
      (s.after 15).machine.tag.form = .statement ∧
      identifier? (s.after 15).reader.rest = some name := by
    decide +kernel
  have hwaiting : (s.replayUpTo Dialect.standard 15).waiting.map (fun o => o.key.text) =
      ["for", "if"] := by
    decide +kernel
  have hmisplaced : rule.MisplacedIn (s.replayUpTo Dialect.standard 15).waiting := by
    refine ⟨by rintro ⟨⟩, fun o ho hmem => ?_⟩
    have hhead := congrArg List.head? hwaiting
    rw [List.head?_map, ho] at hhead
    have hfor : o.key.text = "for" := Option.some.inj hhead
    rw [hfor] at hmem
    exact absurd hmem (by decide)
  have hnames : s.NamesTag Dialect.standard 15 name rule :=
    ⟨hopened, hform, hreads, rfl, by decide +kernel⟩
  exact ⟨hnames, hwaiting, hmisplaced, (placement_by_innermost hnames).1.mpr hmisplaced⟩

end Scanner

end TemplateScan
