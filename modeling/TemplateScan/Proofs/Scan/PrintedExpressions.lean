import TemplateScan.Proofs.Scan.PrintedFilters

/-! # Printed expressions — an output tag written down is scanned back

    An expression is written as an output tag and scanned in a dialect that knows no object but all
    of its filters.  Its tokens are those of the tree, in their order, and the scanner is afterwards
    between tags again as it was before.

    * **`Holds`** — what the scanner holds between two tags, and keeps inside one.
    * **`passes_expression`** — an output tag, wherever it stands.
    * **`tokenize_print`** — an output tag by itself as a document. -/

namespace TemplateScan

open Text

-- ── between tags ─────────────────────────────────────────────────────────────────

namespace Machine

variable {dialect : Dialect} {blocks : Blocks} {nodes : Nat} {m m' : Machine Lookup}

/-- No body waits and nothing has been reported; the dialect, the open blocks and the number of the
    next tag are the given ones. -/
structure Holds (dialect : Dialect) (blocks : Blocks) (nodes : Nat) (m : Machine Lookup) :
    Prop where
  body : m.body = none
  dialect : m.grammar.dialect = dialect
  object : m.grammar.object = none
  blocks : m.blocks = blocks
  nodes : m.nodes = nodes
  notices : m.notices = []
  flushed : m.flushed = false

/-- Without objects no path is checked. -/
theorem Holds.unchecked (h : m.Holds dialect blocks nodes) (hobjects : dialect.objects = ∅) :
    m.Unchecked :=
  ⟨by rw [h.dialect, hobjects], h.object⟩

/-- Inside one tag the machine holds the same. -/
theorem Holds.sameTag (h : m.Holds dialect blocks nodes) (hs : m.SameTag m') :
    m'.Holds dialect blocks nodes where
  body := by rw [hs.same]; exact h.body
  dialect := hs.dialect.trans h.dialect
  object := hs.object
  blocks := by rw [hs.same]; exact h.blocks
  nodes := by rw [hs.same]; exact h.nodes
  notices := by rw [hs.same]; exact h.notices
  flushed := by rw [hs.same]; exact h.flushed

/-- A tag that opens gets the next number. -/
theorem Holds.openTag (h : m.Holds dialect blocks nodes) (form : TagForm) (offset : Nat) :
    (m.openTag form offset).machine.Holds dialect blocks (nodes + 1) :=
  ⟨h.body, h.dialect, h.object, h.blocks, congrArg (· + 1) h.nodes, h.notices, h.flushed⟩

/-- A tag that ends leaves what the machine holds. -/
theorem Holds.leaveTag (h : m.Holds dialect blocks nodes) :
    m.leaveTag.Holds dialect blocks nodes :=
  ⟨h.body, h.dialect, rfl, h.blocks, h.nodes, h.notices, h.flushed⟩

/-- Nothing is reported at the end of a document in which no block is open. -/
theorem Holds.notices_flush (h : m.Holds dialect ∅ nodes) (size : Nat) :
    (m.flush size).notices = [] := by
  rw [Machine.flush, h.flushed, if_neg Bool.false_ne_true]
  show m.notices ++ m.blocks.notices size = []
  rw [h.notices, h.blocks]
  rfl

/-- Behind the space after its open delimiter an output tag is marked. -/
theorem step_outputMark {r : Reader} {c : Char} {tail : List Char} (hp : m.phase = .opened)
    (hf : m.tag.form = .output) (ho : r.offset ≠ m.tag.start + m.tag.form.opener.length)
    (hr : r.rest = c :: tail) (hblank : isTagBlank c = false) :
    m.step r = m.emit .outputTag 0 .outputValue := by
  rw [step_eq_stepOpened hp (by rw [hr]; rfl) hblank, stepOpened, if_neg fun h => ho h.1]
  simp only [hf]

/-- Behind the value of an output tag, filters may follow. -/
theorem AfterValue.awaitsFilter_filters (h : m.AfterValue .filters) (hm : m.Filtering) :
    m.AwaitsFilter where
  phase_ne := h.phase_ne
  step := by
    refine ⟨m, ⟨rfl, rfl, hm.unchecked.object⟩, fun r hends => ?_⟩
    obtain ⟨c, tail, hr, hblank, hc, -⟩ := exists_head_of_ends hends
    exact h.step hm.unchecked hm.settled hr hblank hc

/-- Where the end of the tag comes next, the tag is closed. -/
structure AwaitsClose (m : Machine Lookup) : Prop where
  phase_ne : m.phase ≠ .literal
  step : ∃ m', m.SameTag m' ∧ ∀ r : Reader, m.tag.form.closer <+: r.rest →
    m.step r = m'.close false r.rest

/-- No filter follows where a tag ends. -/
theorem head_ne_of_closer {form : TagForm} {r : Reader} (h : form.closer <+: r.rest) :
    r.rest.head? ≠ some '|' := by
  obtain ⟨tail, htail⟩ := h
  rw [← htail]
  cases form <;> nofun

/-- Where a filter may come, the tag may end. -/
theorem AwaitsFilter.awaitsClose (h : m.AwaitsFilter) : m.AwaitsClose where
  phase_ne := h.phase_ne
  step := by
    obtain ⟨m', hsame, hstep⟩ := h.step
    refine ⟨m', hsame, fun r hcloses => ?_⟩
    have hform : m'.tag.form = m.tag.form := by rw [hsame.same]
    rw [hstep r (Or.inr hcloses), stepPipe, if_neg (head_ne_of_closer hcloses),
      if_pos (by rw [hform]; exact atClose_closer hcloses)]

end Machine

namespace Scanner

variable {dialect : Dialect} {blocks : Blocks} {nodes : Nat} {s : Scanner Lookup} {k : List Char}

/-- The close delimiter of a tag and the space before it are passed over. -/
theorem passes_tagEnd {form : TagForm} (hm : s.machine.Holds dialect blocks nodes)
    (ha : s.machine.AwaitsClose) (hf : s.machine.tag.form = form)
    (hb : s.machine.brackets.isEmpty = true) (hr : s.reader.rest = ' ' :: (form.closer ++ k)) :
    ∃ t, s.Passes (' ' :: form.closer) [⟨.closeDelimiter, form.closer⟩] t ∧ t.reader.rest = k ∧
      t.machine.Holds dialect blocks nodes ∧ t.machine.phase = .literal := by
  obtain ⟨m, hsame, hstep⟩ := ha.step
  rw [hf] at hstep
  obtain ⟨t, ht, htm, hrest⟩ := passes_closer ha.phase_ne hr hstep (by rw [hsame.same]; exact hf)
    (by rw [hsame.same]; exact hb)
  refine ⟨t, ht, hrest, ?_, by rw [htm]; rfl⟩
  rw [htm]
  exact (hm.sameTag hsame).leaveTag

/-- **The front of an output tag is passed over**: its open delimiter and its value, of which the
    names reported are those of its walk. -/
theorem walks_front (v : Value)
    (hopen : s.machine.step s.reader = s.machine.openTag .output s.reader.offset)
    (hr : s.reader.rest = TagForm.opener .output ++ ' ' :: (v.print ++ k)) (hk : EndsValue k) :
    ∃ t, s.Passes (TagForm.opener .output ++ ' ' :: v.print)
        (⟨.openDelimiter, TagForm.opener .output⟩ :: ⟨.outputTag, []⟩ ::
          v.checked s.machine.grammar.dialect.objects .object) t ∧
      t.reader.rest = k ∧ t.machine.AfterValue .filters ∧ ∃ expect object phase,
        object.map Schema.shape =
          v.knownAtEnd s.machine.grammar.dialect.objects s.machine.known ∧
        t.machine = { (s.machine.openTag .output s.reader.offset).machine.reaching expect
          object with phase } := by
  obtain ⟨c, cs, hhead, hblank, hspacing, -⟩ := (v.begins hk.name).head
  rw [hhead] at hr
  -- the open delimiter and the mark of the tag
  obtain ⟨t, ht, htm, hrest, hoffset⟩ := passes_openTag hopen hr hspacing
  obtain ⟨u, hu, hum, hrest', -⟩ := passes_token [] (s := t) rfl
    (Machine.step_outputMark (by rw [htm]; rfl) (by rw [htm]; rfl)
      (by rw [htm]; exact Nat.ne_of_gt hoffset) hrest hblank) (by rintro ⟨⟩)
  have hrest : u.reader.rest = v.print ++ k := hrest'.trans (hrest.trans hhead.symm)
  rw [htm] at hum
  -- the value
  have hvalue : u.machine.stepPhase u.reader =
      u.machine.expectValue .missingTagName .object .filters u.reader.rest := by
    rw [Machine.stepPhase, hum]
    rfl
  obtain ⟨w, hw, hrest, hafter, expect, object, phase, hobject, hwm⟩ := walks_value v
    (by rw [hum]; rfl) (by rw [hum]; rintro ⟨⟩) hvalue (by rintro ⟨⟩) hrest hk
  rw [hum] at hw hobject hwm
  have hw : u.Passes v.print (v.checked s.machine.grammar.dialect.objects .object) w := hw
  refine ⟨w, ?_, hrest, hafter, expect, object, phase, hobject, hwm⟩
  simpa using ht.trans (hu.trans hw)

/-- **An output tag is passed over** with the tokens of its expression. -/
theorem passes_expression (e : Expression) (hobjects : dialect.objects = ∅) (hfits : e.Fits dialect)
    (hm : s.machine.Holds dialect blocks nodes) (hp : s.machine.phase = .literal)
    (hr : s.reader.rest = e.print ++ k) :
    ∃ t, s.Passes e.print e.lexemes t ∧ t.reader.rest = k ∧
      t.machine.Holds dialect blocks (nodes + 1) ∧ t.machine.phase = .literal := by
  have hr : s.reader.rest = TagForm.opener .output ++ ' ' :: (e.head.print ++
      (e.filters.flatMap Call.print ++ ' ' :: (TagForm.closer .output ++ k))) := by
    rw [hr]
    simp [Expression.print]
  have hend : ∃ k', e.filters.flatMap Call.print ++ ' ' :: (TagForm.closer .output ++ k) =
      ' ' :: k' := by
    cases e.filters <;> exact ⟨_, rfl⟩
  obtain ⟨k', hk⟩ := hend
  rw [hk] at hr
  -- the value
  have hnone := hm.unchecked hobjects
  obtain ⟨t, ht, hrest, hafter, expect, object, phase, hobject, htm⟩ := walks_front e.head
    (Machine.step_opens hp hm.body (hr ▸ List.prefix_append ..)) hr (endsValue_space k')
  rw [hnone.none_known, e.head.checked_empty] at ht
  rw [hnone.none_known, hnone.known, e.head.knownAtEnd_empty, Option.map_eq_none_iff] at hobject
  subst hobject
  have hinside : t.machine.Holds dialect blocks (nodes + 1) := by
    rw [htm]
    exact ⟨hm.body, hm.dialect, rfl, hm.blocks, congrArg (· + 1) hm.nodes, hm.notices, hm.flushed⟩
  have hfiltering : t.machine.Filtering :=
    ⟨hinside.unchecked hobjects, by rw [htm]; rfl, by rw [htm]; rfl⟩
  -- the filters
  obtain ⟨w, hw, hrest, hsame, hawaits⟩ := passes_calls e.filters hfiltering
    (hafter.awaitsFilter_filters hfiltering) (by rw [hinside.dialect]; exact hfits)
    (hrest.trans hk.symm)
  have hfiltering := hsame.filtering hfiltering
  -- the close delimiter
  obtain ⟨x, hx, hrest, hfinal⟩ := passes_tagEnd (hinside.sameTag hsame) hawaits.awaitsClose
    hfiltering.form hfiltering.settled hrest
  refine ⟨x, ?_, hrest, hfinal⟩
  have hall := ht.trans (hw.trans hx)
  simpa [Expression.print, Expression.lexemes] using hall

end Scanner

-- ── whole documents ──────────────────────────────────────────────────────────────

/-- A kind of token that is neither a fault nor a part of an end tag. -/
def TokenKind.isOrdinary : TokenKind → Bool
  | .invalid _ | .endTag | .endDelimiter => false
  | _ => true

/-- Ordinary tokens carry no fault. -/
theorem TokenKind.fault?_of_isOrdinary {kind : TokenKind} (h : kind.isOrdinary = true) :
    kind.fault? = none := by
  cases kind <;> first | rfl | cases h

/-- The tokens of a path are ordinary. -/
theorem isOrdinary_of_path (p : Path) : ∀ l ∈ p.lexemes, l.kind.isOrdinary = true := by
  induction p with
  | nil => nofun
  | property name next ih => simpa [Path.lexemes, TokenKind.isOrdinary] using ih
  | key string _ next ih | index number next ih =>
      simpa [Path.lexemes, TokenKind.isOrdinary] using ih
  | path head inner next ihInner ihNext =>
      simpa [Path.lexemes, TokenKind.isOrdinary, or_imp, forall_and] using ⟨ihInner, ihNext⟩

/-- The tokens of a value are ordinary, if its name is. -/
theorem isOrdinary_of_value (v : Value) {name : TokenKind} (hname : name.isOrdinary = true) :
    ∀ l ∈ v.lexemes name, l.kind.isOrdinary = true := by
  cases v with
  | path head _ p => simpa [Value.lexemes, hname] using isOrdinary_of_path p
  | _ => simp [Value.lexemes, TokenKind.isOrdinary]

/-- The tokens of an argument are ordinary. -/
theorem isOrdinary_of_argument (v : Value) :
    ∀ l ∈ v.argumentLexemes, l.kind.isOrdinary = true := by
  cases v with
  | path head _ p => simpa [Value.argumentLexemes, TokenKind.isOrdinary] using isOrdinary_of_path p
  | number n =>
      cases hf : n.form <;>
        simp [Value.argumentLexemes, Numeral.argumentKind, TokenKind.isOrdinary, hf]
  | _ => simp [Value.argumentLexemes, TokenKind.isOrdinary]

/-- The tokens of a filter are ordinary. -/
theorem isOrdinary_of_call (c : Call) : ∀ l ∈ c.lexemes, l.kind.isOrdinary = true := by
  have hmore : ∀ vs : List Value, ∀ l ∈ lexemesOfMore vs, l.kind.isOrdinary = true := by
    intro vs
    simp only [lexemesOfMore, List.mem_flatMap, List.mem_cons]
    rintro l ⟨v, -, rfl | hl⟩
    · rfl
    · exact isOrdinary_of_argument v l hl
  cases harguments : c.arguments with
  | nil => simp [Call.lexemes, lexemesOfArguments, harguments, TokenKind.isOrdinary]
  | cons v vs =>
      simpa [Call.lexemes, lexemesOfArguments, harguments, TokenKind.isOrdinary, or_imp,
        forall_and] using ⟨isOrdinary_of_argument v, hmore vs⟩

/-- None of the tokens of an expression is a fault, and none belongs to an end tag. -/
theorem isOrdinary_of_expression (e : Expression) : ∀ l ∈ e.lexemes, l.kind.isOrdinary = true := by
  intro l hl
  simp only [Expression.lexemes, List.mem_cons, List.mem_append, List.mem_flatMap,
    List.not_mem_nil, or_false] at hl
  rcases hl with rfl | rfl | hl | ⟨c, -, hl⟩ | rfl
  · rfl
  · rfl
  · exact isOrdinary_of_value e.head rfl l hl
  · exact isOrdinary_of_call c l hl
  · rfl

/-- **Printing and scanning an expression gives back its tokens**, in any dialect that knows no
    object and has its filters: no fault is found, nothing is reported, and apart from spaces the
    tokens are those of the tree, in their order, between the delimiters. -/
theorem tokenize_print (dialect : Dialect) (e : Expression) (hobjects : dialect.objects = ∅)
    (hfits : e.Fits dialect) :
    (tokenize (String.ofList e.print) dialect.lookup).faults = [] ∧
      (tokenize (String.ofList e.print) dialect.lookup).notices = [] ∧
      (tokenize (String.ofList e.print) dialect.lookup).words (.ofString (String.ofList e.print)) =
        e.lexemes.map fun l => (l.kind, some l.text) := by
  have hrest : (Scanner.ofString (String.ofList e.print) dialect.lookup).reader.rest =
      e.print ++ [] := by
    rw [List.append_nil]
    exact String.toList_ofList
  have hstart : (Scanner.ofString (String.ofList e.print) dialect.lookup).machine.Holds
      dialect ∅ 0 := ⟨rfl, rfl, rfl, rfl, rfl, rfl, rfl⟩
  obtain ⟨t, ⟨n, hpass⟩, hend, hholds, hphase⟩ :=
    Scanner.passes_expression e hobjects hfits hstart rfl hrest
  have hfinds := hpass.findsWords hend hphase
  refine ⟨hfinds.faults fun l hl => ?_, ?_, hfinds.tokens⟩
  · exact TokenKind.fault?_of_isOrdinary (isOrdinary_of_expression e l hl)
  rw [hpass.tokenize hend hphase]
  exact hholds.notices_flush _

/-- A dialect with two filters, one of which must be given a string. -/
def cuttingDialect : Dialect where
  filters := .ofList
    [("cut", .ofArguments [(ArgumentRule.ofTypes [.string]).asRequired, .ofTypes [.integer]]),
     ("trim", .ofArguments [])]

/-- A path with a path and a string as keys, cut and trimmed. -/
def cutPath : Expression where
  head := .path ⟨"a".toList, rfl⟩ (by decide)
    (.path ⟨"b".toList, rfl⟩ (.property ⟨"c".toList, rfl⟩ .nil)
      (.key ⟨'"', "k".toList, rfl, by decide, by decide⟩ (by decide)
        (.index ⟨.integer, "0".toList, rfl⟩ .nil)))
  filters :=
    [⟨⟨"cut".toList, rfl⟩,
      [.string ⟨'\'', "x y".toList, rfl, by decide, by decide⟩,
       .number ⟨.integer, "-1".toList, rfl⟩]⟩,
     ⟨⟨"trim".toList, rfl⟩, []⟩]

theorem tokenize_print_cutPath :
    cutPath.print = "\x7b\x7b a[b.c][\"k\"][0] | cut: 'x y', -1 | trim \x7d\x7d".toList ∧
      cuttingDialect.objects = ∅ ∧ cutPath.Fits cuttingDialect ∧
      (tokenize (String.ofList cutPath.print) cuttingDialect.lookup).faults = [] ∧
      (tokenize (String.ofList cutPath.print) cuttingDialect.lookup).words
          (.ofString (String.ofList cutPath.print)) =
        cutPath.lexemes.map fun l => (l.kind, some l.text) := by
  have hfits : cutPath.Fits cuttingDialect := by decide
  obtain ⟨hfaults, -, hwords⟩ := tokenize_print cuttingDialect cutPath rfl hfits
  exact ⟨by decide, rfl, hfits, hfaults, hwords⟩

end TemplateScan
