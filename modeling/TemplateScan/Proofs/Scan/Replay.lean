import TemplateScan.Dialect.Lookup
import TemplateScan.Text.Blank
import TemplateScan.Text.Literal
import TemplateScan.Token

/-! # Replays — which opening each end belongs to, read off the tokens

    The tokens of a document say by themselves which openings its ends close.  A replay goes through
    them with the openings that wait for their end: every name of a block, and every element, waits;
    the end of a tag or of an element closes the latest opening of its key; and markup that ends in
    `/>` closes the element that it began.

    * **`Replay.step`** — what one token does; **`Replay.step_effect`** — the cases of it.
    * **`Replay.length_waiting`** — every opening either waits or has been closed.
    * **`traces_replay`** — every opening that waits comes from a token, whose number it has.
    * **`Replay.Sound`** — no two openings have the same number.
    * **`Replay.Retired.step`** — an opening that has been closed never waits again.
    * **`Replay.Sound.closed_end`** — an end closes an opening of its own kind, for good. -/

namespace TemplateScan

open Text

-- ── openings ─────────────────────────────────────────────────────────────────────

/-- What an opening has in common with its end. -/
inductive Key where
  /-- The name of a tag. -/
  | tag (name : List Char)
  /-- The name of an HTML element, in lower case. -/
  | element (name : List Char)
deriving DecidableEq, Repr

namespace Key

/-- The name of a tag as it is, and that of an element in angle brackets. -/
def chars : Key → List Char
  | .tag name => name
  | .element name => '<' :: name ++ ['>']

/-- The name under which an opening is reported. -/
def text (key : Key) : String :=
  String.ofList key.chars

end Key

/-- A tag or an element that waits for its end. -/
structure Opening where
  key : Key
  /-- Its number among all tags and tracked elements. -/
  node : Nat
  /-- The place of its open delimiter, or of the name of the element. -/
  span : Span
deriving DecidableEq, Repr

namespace Opening

/-- The report of an opening that still waits where the document ends. -/
def notice (documentEnd : Nat) (o : Opening) : Notice :=
  ⟨o.key.text, { o.span with stop := documentEnd }⟩

end Opening

-- ── names ────────────────────────────────────────────────────────────────────────

/-- A character that may stand between an open delimiter and the name of the tag. -/
def isFiller (c : Char) : Bool :=
  c == '-' || isSpacing c || isLineBreak c

/-- The name that an end tag closes: what stands behind its `end`. -/
def endedName (text : List Char) : List Char :=
  ((text.drop 2).dropWhile isFiller).drop 3

/-- The text is the name of a tag that opens a block. -/
def Dialect.namesBlock (dialect : Dialect) (text : List Char) : Bool :=
  decide (identifier? text = some text) &&
    (dialect.tags.get? (String.ofList text)).any (·.block)

-- ── replays ──────────────────────────────────────────────────────────────────────

/-- What is known of a document after some of its tokens. -/
structure Replay where
  /-- The openings that wait for their end, latest first. -/
  waiting : List Opening := []
  /-- The number of tags and tracked elements so far. -/
  nodes : Nat := 0
  /-- The number and the place of the tag whose name is still to come. -/
  unnamed : Option (Nat × Span) := none
  /-- The number of the latest element. -/
  element : Option Nat := none
  /-- The opening closed by the latest end, if there was one. -/
  closed : Option Opening := none
  opened : Nat := 0
  /-- How many of them have been closed. -/
  matched : Nat := 0

namespace Replay

def push (p : Replay) (o : Opening) : Replay :=
  { p with waiting := o :: p.waiting, opened := p.opened + 1 }

/-- The latest opening of the given kind is closed, if there is one. -/
def close (p : Replay) (which : Opening → Bool) : Replay :=
  { p with
    waiting := p.waiting.eraseP which
    closed := p.waiting.find? which
    matched := if p.waiting.any which then p.matched + 1 else p.matched }

/-- The first token of a tag behind trim dash and white space: it may be the name of a block. -/
def name (p : Replay) (dialect : Dialect) (text : List Char) : Replay :=
  match p.unnamed with
  | none => p
  | some (node, span) =>
      if dialect.namesBlock text then { p with unnamed := none }.push ⟨.tag text, node, span⟩
      else { p with unnamed := none }

/-- What one token does. -/
def step (dialect : Dialect) (p : Replay) (kind : TokenKind) (span : Span) (text : List Char) :
    Replay :=
  match kind with
  | .openDelimiter => { p with nodes := p.nodes + 1, unnamed := some (p.nodes, span) }
  | .trimLeft | .spacing | .lineBreak => p
  | .endTag => { p.close (·.key = .tag (endedName text)) with unnamed := none }
  | .markupName =>
      { p.push ⟨.element ((text.drop 1).map Char.toLower), p.nodes, span⟩ with
        nodes := p.nodes + 1
        element := some p.nodes }
  | .endMarkupName => p.close (·.key = .element ((text.drop 2).map Char.toLower))
  | .markupClose => if text = ['/', '>'] then p.close (some ·.node = p.element) else p
  | _ => p.name dialect text

def next (dialect : Dialect) (d : Document) (p : Replay) (t : Token) : Replay :=
  p.step dialect t.kind t.span ((t.text? d).getD [])

end Replay

def replay (dialect : Dialect) (d : Document) (tokens : List Token) : Replay :=
  tokens.foldl (Replay.next dialect d) {}

variable {dialect : Dialect} {d : Document} {tokens : List Token}

/-- One more token is replayed last. -/
theorem replay_concat (t : Token) :
    replay dialect d (tokens ++ [t]) = (replay dialect d tokens).next dialect d t := by
  rw [replay, List.foldl_append]
  rfl

/-- What holds at first, and is kept by every token, holds of every replay. -/
theorem replay_induction {P : Replay → Prop} (start : P {})
    (step : ∀ p kind span text, P p → P (p.step dialect kind span text)) :
    P (replay dialect d tokens) :=
  List.foldlRecOn tokens _ start fun p h _ _ => step p _ _ _ h

-- ── heads ────────────────────────────────────────────────────────────────────────

/-- A token with which a tag or a tracked element begins. -/
def TokenKind.isHead : TokenKind → Bool
  | .openDelimiter | .markupName => true
  | _ => false

/-- The tokens with which tags and tracked elements begin.  Each tag and each element has the number
    of its own among them. -/
def heads (tokens : List Token) : List Token :=
  tokens.filter (·.kind.isHead)

/-- Heads are found token by token. -/
theorem heads_append (l l' : List Token) : heads (l ++ l') = heads l ++ heads l' := by
  rw [heads, List.filter_append, heads, heads]

/-- A head is added at the end. -/
theorem heads_concat_of_isHead {t : Token} (h : t.kind.isHead = true) :
    heads (tokens ++ [t]) = heads tokens ++ [t] := by
  have hone : heads [t] = [t] := List.filter_cons_of_pos h
  rw [heads_append, hone]

/-- Any other token adds none. -/
theorem heads_concat_of_not_isHead {t : Token} (h : t.kind.isHead = false) :
    heads (tokens ++ [t]) = heads tokens := by
  have hnone : heads [t] = [] := List.filter_cons_of_neg (Bool.eq_false_iff.mp h)
  rw [heads_append, hnone, List.append_nil]

/-- A head keeps its number when more tokens come. -/
theorem getElem?_heads_concat {node : Nat} {head : Token} (h : (heads tokens)[node]? = some head)
    (t : Token) : (heads (tokens ++ [t]))[node]? = some head := by
  rw [heads_append, List.getElem?_append_left (List.getElem?_eq_some_iff.mp h).1]
  exact h

/-- The token that opens what the key stands for. -/
def Key.opener : Key → TokenKind
  | .tag _ => .openDelimiter
  | .element _ => .markupName

/-- The token that ends it. -/
def Key.closer : Key → TokenKind
  | .tag _ => .endTag
  | .element _ => .endMarkupName

/-- What ends alike has begun alike. -/
theorem Key.opener_eq_of_closer_eq (k k' : Key) (h : k.closer = k'.closer) :
    k.opener = k'.opener := by
  cases k <;> cases k' <;> first | rfl | cases h

namespace Replay

variable {p : Replay} {kind : TokenKind} {span : Span} {text : List Char} {a : Nat}

-- ── effects ──────────────────────────────────────────────────────────────────────

/-- What one token can do. -/
inductive Effect (p : Replay) (kind : TokenKind) (span : Span) : Replay → Prop where
  | tag (hk : kind = .openDelimiter) :
      Effect p kind span { p with nodes := p.nodes + 1, unnamed := some (p.nodes, span) }
  | element {name} (hk : kind = .markupName) :
      Effect p kind span { p.push ⟨.element name, p.nodes, span⟩ with
        nodes := p.nodes + 1
        element := some p.nodes }
  | named {name node place} (hk : kind.isHead = false) (hu : p.unnamed = some (node, place)) :
      Effect p kind span ({ p with unnamed := none }.push ⟨.tag name, node, place⟩)
  /-- A tag has no name, or not that of a block. -/
  | unnamed (hk : kind.isHead = false) : Effect p kind span { p with unnamed := none }
  | endTag {which} (hk : kind.isHead = false) :
      Effect p kind span { p.close which with unnamed := none }
  | close {which} (hk : kind.isHead = false) : Effect p kind span (p.close which)
  | skip (hk : kind.isHead = false) : Effect p kind span p

/-- The name of a tag opens a block, or none. -/
theorem name_effect (hk : kind.isHead = false) : Effect p kind span (p.name dialect text) := by
  rw [name]
  split
  · exact .skip hk
  · next hu =>
      split
      · exact .named hk hu
      · exact .unnamed hk

/-- Each token has one of the effects listed. -/
theorem step_effect (dialect : Dialect) (p : Replay) (kind : TokenKind) (span : Span)
    (text : List Char) : Effect p kind span (p.step dialect kind span text) := by
  unfold step
  split
  · exact .tag rfl
  · exact .skip rfl
  · exact .skip rfl
  · exact .skip rfl
  · exact .endTag rfl
  · exact .element rfl
  · exact .close rfl
  · split
    · exact .close rfl
    · exact .skip rfl
  · next hdelimiter _ _ _ _ helement _ _ =>
      refine name_effect ?_
      cases kind with
      | openDelimiter => exact absurd rfl hdelimiter
      | markupName => exact absurd rfl helement
      | _ => rfl

-- ── counting ─────────────────────────────────────────────────────────────────────

/-- Closing keeps the count: what no longer waits is matched. -/
theorem length_waiting_close {which : Opening → Bool}
    (h : p.waiting.length + p.matched = p.opened) :
    (p.close which).waiting.length + (p.close which).matched = (p.close which).opened := by
  show (p.waiting.eraseP which).length + (if p.waiting.any which then p.matched + 1 else p.matched)
    = p.opened
  cases hany : p.waiting.any which with
  | false =>
      rw [List.length_eraseP, hany, if_neg Bool.false_ne_true, if_neg Bool.false_ne_true]
      exact h
  | true =>
      obtain ⟨o, ho, hwhich⟩ := List.any_eq_true.mp hany
      have hpos := List.length_pos_of_mem ho
      rw [List.length_eraseP_of_mem ho hwhich, if_pos rfl]
      omega

/-- Every opening waits for its end, or has been closed. -/
theorem length_waiting (dialect : Dialect) (d : Document) (tokens : List Token) :
    (replay dialect d tokens).waiting.length + (replay dialect d tokens).matched =
      (replay dialect d tokens).opened := by
  refine replay_induction (P := fun p => p.waiting.length + p.matched = p.opened) rfl ?_
  intro p kind span text h
  have hpush : p.waiting.length + 1 + p.matched = p.opened + 1 := by omega
  have heffect := step_effect dialect p kind span text
  generalize p.step dialect kind span text = next at heffect ⊢
  cases heffect with
  | tag _ => exact h
  | element _ => exact hpush
  | named _ _ => exact hpush
  | unnamed _ => exact h
  | endTag _ => exact length_waiting_close h
  | close _ => exact length_waiting_close h
  | skip _ => exact h

-- ── origins ──────────────────────────────────────────────────────────────────────

/-- Every number has been given to a token, and every opening has that of a token of its kind. -/
structure Traces (tokens : List Token) (p : Replay) : Prop where
  nodes : p.nodes = (heads tokens).length
  unnamed : ∀ node span, p.unnamed = some (node, span) →
    (heads tokens)[node]? = some ⟨.openDelimiter, span⟩
  waiting : ∀ o ∈ p.waiting, (heads tokens)[o.node]? = some ⟨o.key.opener, o.span⟩

/-- Closing an opening keeps what is known of the others. -/
theorem Traces.close (h : Traces tokens p) (which : Opening → Bool) :
    Traces tokens (p.close which) where
  nodes := h.nodes
  unnamed := h.unnamed
  waiting o ho := h.waiting o (List.mem_of_mem_eraseP ho)

/-- Once the tag has its name, it waits for none. -/
theorem Traces.unname (h : Traces tokens p) : Traces tokens { p with unnamed := none } where
  nodes := h.nodes
  unnamed _ _ hu := absurd hu.symm (Option.some_ne_none _)
  waiting := h.waiting

/-- A token that begins neither a tag nor an element gets no number. -/
theorem Traces.skip {t : Token} (h : Traces tokens p) (ht : t.kind.isHead = false) :
    Traces (tokens ++ [t]) p := by
  have hsame : heads (tokens ++ [t]) = heads tokens := heads_concat_of_not_isHead ht
  constructor <;> rw [hsame]
  · exact h.nodes
  · exact h.unnamed
  · exact h.waiting

/-- One more token keeps the openings at their heads. -/
theorem Traces.next (h : Traces tokens p) (t : Token) :
    Traces (tokens ++ [t]) (p.next dialect d t) := by
  have hself : t.kind.isHead = true → (heads (tokens ++ [t]))[p.nodes]? = some t := by
    intro ht
    rw [heads_concat_of_isHead ht, h.nodes, List.getElem?_concat_length]
  have hcount : t.kind.isHead = true → p.nodes + 1 = (heads (tokens ++ [t])).length := by
    intro ht
    rw [heads_concat_of_isHead ht, h.nodes, List.length_append, List.length_singleton]
  have hold : ∀ o ∈ p.waiting,
      (heads (tokens ++ [t]))[o.node]? = some ⟨o.key.opener, o.span⟩ :=
    fun o ho => getElem?_heads_concat (h.waiting o ho) t
  rw [Replay.next]
  have heffect := step_effect dialect p t.kind t.span ((t.text? d).getD [])
  generalize p.step dialect t.kind t.span ((t.text? d).getD []) = next at heffect ⊢
  obtain ⟨kind, span⟩ := t
  cases heffect with
  | tag hk =>
      obtain rfl : kind = .openDelimiter := hk
      refine ⟨hcount rfl, fun node place hu => ?_, hold⟩
      obtain ⟨rfl, rfl⟩ := Prod.mk.inj (Option.some.inj hu)
      exact hself rfl
  | element hk =>
      obtain rfl : kind = .markupName := hk
      refine ⟨hcount rfl, fun node place hu => ?_, List.forall_mem_cons.mpr ⟨hself rfl, hold⟩⟩
      exact getElem?_heads_concat (h.unnamed node place hu) _
  | @named _ node place hk hu =>
      have hskip := h.skip (t := ⟨kind, span⟩) hk
      refine ⟨hskip.nodes, hskip.unname.unnamed, ?_⟩
      exact List.forall_mem_cons.mpr ⟨hskip.unnamed node place hu, hskip.waiting⟩
  | unnamed hk => exact (h.skip hk).unname
  | endTag hk => exact ((h.skip hk).close _).unname
  | close hk => exact (h.skip hk).close _
  | skip hk => exact h.skip hk

/-- **Every opening comes from a token**, whose number it has. -/
theorem traces_replay (dialect : Dialect) (d : Document) (tokens : List Token) :
    Traces tokens (replay dialect d tokens) := by
  have hrest : ∀ rest done p, Traces done p →
      Traces (done ++ rest) (rest.foldl (Replay.next dialect d) p) := by
    intro rest
    induction rest with
    | nil =>
        intro done p h
        rw [List.append_nil]
        exact h
    | cons t rest ih =>
        intro done p h
        have hnext : Traces (done ++ [t]) (p.next dialect d t) := h.next t
        have hall := ih _ _ hnext
        rw [List.append_assoc] at hall
        exact hall
  exact hrest tokens [] {} ⟨rfl, fun _ _ hu => absurd hu.symm (Option.some_ne_none _),
    fun _ ho => absurd ho List.not_mem_nil⟩

-- ── numbers ──────────────────────────────────────────────────────────────────────

/-- The numbers of the tags and elements that wait, for their name or their end. -/
def numbers (p : Replay) : List Nat :=
  (p.unnamed.map (·.1)).toList ++ p.waiting.map (·.node)

/-- Closing takes one number out and adds none. -/
theorem numbers_close (which : Opening → Bool) : (p.close which).numbers.Sublist p.numbers :=
  List.Sublist.append (List.Sublist.refl _) (List.eraseP_sublist.map _)

/-- Forgetting that a tag has no name yet takes its number out, and adds none. -/
theorem numbers_unnamed (p : Replay) : ({ p with unnamed := none } : Replay).numbers.Sublist
    p.numbers :=
  List.sublist_append_right _ _

/-- A token keeps the numbers, forgets some, or takes the next one. -/
theorem numbers_step :
    (p.step dialect kind span text).nodes = p.nodes ∧
        (p.step dialect kind span text).numbers.Sublist p.numbers ∨
      (p.step dialect kind span text).nodes = p.nodes + 1 ∧
        ∃ l, l.Sublist p.numbers ∧
          (p.step dialect kind span text).numbers.Perm (p.nodes :: l) := by
  have heffect := step_effect dialect p kind span text
  generalize p.step dialect kind span text = next at heffect ⊢
  cases heffect with
  | tag _ => exact Or.inr ⟨rfl, _, List.sublist_append_right _ _, List.Perm.refl _⟩
  | element _ => exact Or.inr ⟨rfl, _, List.Sublist.refl _, List.perm_middle⟩
  | named _ hu =>
      -- the name takes over the number of its open delimiter
      refine Or.inl ⟨rfl, ?_⟩
      rw [numbers, numbers, hu]
      exact List.Sublist.refl _
  | unnamed _ => exact Or.inl ⟨rfl, numbers_unnamed p⟩
  | endTag _ => exact Or.inl ⟨rfl, (numbers_unnamed _).trans (numbers_close _)⟩
  | close _ => exact Or.inl ⟨rfl, numbers_close _⟩
  | skip _ => exact Or.inl ⟨rfl, List.Sublist.refl _⟩

/-- No number is used twice, and the next one has not been used. -/
structure Sound (p : Replay) : Prop where
  distinct : p.numbers.Nodup
  used : ∀ a ∈ p.numbers, a < p.nodes

/-- Each token keeps the replay sound. -/
theorem Sound.step (h : p.Sound) : (p.step dialect kind span text).Sound := by
  rcases @numbers_step dialect p kind span text with ⟨hnodes, hsub⟩ | ⟨hnodes, l, hsub, hperm⟩
  · refine ⟨hsub.nodup h.distinct, fun a ha => ?_⟩
    rw [hnodes]
    exact h.used a (hsub.subset ha)
  · constructor
    · refine hperm.nodup_iff.mpr (List.nodup_cons.mpr ⟨fun hmem => ?_, hsub.nodup h.distinct⟩)
      exact Nat.lt_irrefl _ (h.used _ (hsub.subset hmem))
    · intro a ha
      rw [hnodes]
      rcases List.mem_cons.mp (hperm.mem_iff.mp ha) with rfl | ha
      · exact Nat.lt_succ_self _
      · exact Nat.lt_succ_of_lt (h.used a (hsub.subset ha))

/-- The replay of any list of tokens is sound. -/
theorem sound_replay (dialect : Dialect) (d : Document) (tokens : List Token) :
    (replay dialect d tokens).Sound := by
  refine replay_induction ⟨List.nodup_nil, fun a ha => ?_⟩ fun _ _ _ _ h => h.step
  exact absurd ha List.not_mem_nil

/-- The number has been used, by a tag or element that no longer waits. -/
structure Retired (p : Replay) (a : Nat) : Prop where
  used : a < p.nodes
  absent : a ∉ p.numbers

/-- What no longer waits never waits again. -/
theorem Retired.step (h : p.Retired a) : (p.step dialect kind span text).Retired a := by
  rcases @numbers_step dialect p kind span text with ⟨hnodes, hsub⟩ | ⟨hnodes, l, hsub, hperm⟩
  · refine ⟨?_, fun ha => h.absent (hsub.subset ha)⟩
    rw [hnodes]
    exact h.used
  · refine ⟨?_, fun ha => ?_⟩
    · rw [hnodes]
      exact Nat.lt_succ_of_lt h.used
    · rcases List.mem_cons.mp (hperm.mem_iff.mp ha) with rfl | ha
      · exact Nat.lt_irrefl _ h.used
      · exact h.absent (hsub.subset ha)

/-- The first element of its kind that is taken out of a list leaves none with the same number. -/
theorem not_mem_map_eraseP {which : Opening → Bool} {l : List Opening} {o : Opening}
    (h : (l.map (·.node)).Nodup) (ho : l.find? which = some o) :
    o.node ∉ (l.eraseP which).map (·.node) := by
  induction l with
  | nil => cases ho
  | cons x l ih =>
      rw [List.map_cons, List.nodup_cons] at h
      cases hx : which x with
      | true =>
          rw [List.find?_cons_of_pos hx] at ho
          obtain rfl := Option.some.inj ho
          rw [List.eraseP_cons_of_pos hx]
          exact h.1
      | false =>
          have hneg : ¬ which x = true := by rw [hx]; exact Bool.false_ne_true
          rw [List.find?_cons_of_neg hneg] at ho
          rw [List.eraseP_cons_of_neg hneg, List.map_cons, List.mem_cons]
          rintro (heq | hmem)
          · have hin := List.mem_map_of_mem (f := (·.node)) (List.mem_of_find?_eq_some ho)
            rw [heq] at hin
            exact h.1 hin
          · exact ih h.2 ho hmem

/-- What has been closed does not wait any longer. -/
theorem Sound.retired_close (h : p.Sound) {which : Opening → Bool} {o : Opening}
    (ho : p.waiting.find? which = some o) : (p.close which).Retired o.node := by
  have hmem : o.node ∈ p.waiting.map (·.node) :=
    List.mem_map_of_mem (List.mem_of_find?_eq_some ho)
  refine ⟨h.used _ (List.mem_append_right _ hmem), fun ha => ?_⟩
  have hdistinct := List.nodup_append.mp h.distinct
  rcases List.mem_append.mp ha with ha | ha
  · exact hdistinct.2.2 _ ha _ hmem rfl
  · exact not_mem_map_eraseP hdistinct.2.1 ho ha

/-- What no longer waits is not closed. -/
theorem Retired.not_waiting (h : p.Retired a) {o : Opening} (ho : o ∈ p.waiting) : o.node ≠ a := by
  rintro rfl
  exact h.absent (List.mem_append_right _ (List.mem_map_of_mem ho))

-- ── ends ─────────────────────────────────────────────────────────────────────────

/-- The opening that an end closes has waited for such an end, and waits no longer. -/
theorem Sound.closed_end (h : p.Sound) (hk : kind = .endTag ∨ kind = .endMarkupName) {o : Opening}
    (ho : (p.step dialect kind span text).closed = some o) :
    o ∈ p.waiting ∧ o.key.closer = kind ∧ (p.step dialect kind span text).Retired o.node := by
  have hkey : ∀ {key : Key}, p.waiting.find? (·.key = key) = some o → o.key = key := by
    intro key hfind
    have hfound := List.find?_some hfind
    exact of_decide_eq_true hfound
  rcases hk with rfl | rfl
  · have ho : p.waiting.find? (·.key = .tag (endedName text)) = some o := ho
    refine ⟨List.mem_of_find?_eq_some ho, by rw [hkey ho, Key.closer], ?_⟩
    have hclosed := h.retired_close ho
    exact ⟨hclosed.used, fun ha => hclosed.absent ((numbers_unnamed _).subset ha)⟩
  · have ho : p.waiting.find? (·.key = .element ((text.drop 2).map Char.toLower)) = some o := ho
    exact ⟨List.mem_of_find?_eq_some ho, by rw [hkey ho, Key.closer], h.retired_close ho⟩

end Replay

end TemplateScan
