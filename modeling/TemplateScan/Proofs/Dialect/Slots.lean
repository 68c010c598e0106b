import Mathlib.Data.List.Induction
import TemplateScan.Dialect.Lookup

/-! # Slots — a lookup as three lookups that know nothing of each other

    All requests go through one lookup and one expected category, and those for tags, filters and
    objects come in any order.  Yet a request is addressed to one slot: a name goes to the slot of
    the category expected at that moment, and every other request has a slot of its own.  Taken by
    slot, a sequence of requests falls into three, each of which could be made alone.

    * **`only`** — a lookup with the other two slots taken away.
    * **`perform_own`**, **`perform_other`** — one request, as its own slot and another one see it.
    * **`replies_eq`** — any sequence of them, as one slot sees it.
    * **`slots_independent`** — what every slot holds and answers, after any sequence. -/

namespace TemplateScan

/-- The tag that a name stands for. -/
def Dialect.tagNamed? (d : Dialect) (name : String) : Option (String × TagRule) :=
  (d.tags.get? name).map fun rule => (name, rule)

namespace Lookup

-- ── requests ─────────────────────────────────────────────────────────────────────

/-- What a lookup can be asked to do. -/
inductive Request where
  | setExpect (expect : Expect)
  | resolve (name : String)
  | nextArgument
  | resetFilter
  | property (name : String)
  | releaseObject
deriving DecidableEq, Repr

/-- What a request answers. -/
inductive Answer where
  | done
  /-- Whether the name is known. -/
  | known (known : Bool)
  /-- Whether there was another argument to go on to. -/
  | moved (moved : Bool)
  /-- Whether the object has the property; `none` when the path is not checked. -/
  | property (has : Option Bool)
deriving DecidableEq, Repr

namespace Request

/-- The lookup after a request. -/
def perform (l : Lookup) : Request → Lookup
  | setExpect expect => l.setExpect expect
  | resolve name => l.resolve name
  | nextArgument => l.nextArgument
  | resetFilter => l.resetFilter
  | property name => l.enterProperty name
  | releaseObject => l.releaseObject

/-- What a request answers of the lookup before it. -/
def answer (l : Lookup) : Request → Answer
  | resolve name => .known (l.isKnown name)
  | nextArgument => .moved !l.isLastArgument
  | property name => .property (l.hasProperty? name)
  | setExpect _ | resetFilter | releaseObject => .done

/-- The slot that a request is addressed to, given the category expected; slots are named by their
    categories. -/
def slot? (expected : Expect) : Request → Option Expect
  | setExpect _ => none
  | resolve _ => some expected
  | nextArgument | resetFilter => some .filter
  | property _ | releaseObject => some .object

/-- The category expected after a request. -/
def expectAfter (expected : Expect) : Request → Expect
  | setExpect expect => expect
  | _ => expected

/-- The name that a request looks up. -/
def resolved? : Request → Option String
  | resolve name => some name
  | _ => none

end Request

/-- The lookup after a sequence of requests. -/
def performAll (l : Lookup) (requests : List Request) : Lookup :=
  requests.foldl Request.perform l

/-- The requests addressed to a slot, the categories expected being taken from the whole
    sequence. -/
def addressed (slot : Expect) : (expected : Expect) → List Request → List Request
  | _, [] => []
  | expected, request :: requests =>
      let rest := addressed slot (request.expectAfter expected) requests
      if request.slot? expected = some slot then request :: rest else rest

/-- The sequence without the requests addressed to other slots; the category expected is set as
    before. -/
def keepSlot (slot : Expect) : (expected : Expect) → List Request → List Request
  | _, [] => []
  | expected, request :: requests =>
      let rest := keepSlot slot (request.expectAfter expected) requests
      match request.slot? expected with
      | none => request :: rest
      | some other => if other = slot then request :: rest else rest

/-- The lookup with nothing in it but the given slot, in whose category names are expected. -/
def only (slot : Expect) (l : Lookup) : Lookup :=
  match slot with
  | .tag => { dialect := l.dialect, expect := .tag, tag := l.tag }
  | .object => { dialect := l.dialect, expect := .object, object := l.object }
  | .filter =>
      { dialect := l.dialect, expect := .filter, filter := l.filter,
        argumentIndex := l.argumentIndex }

/-- The answers to the requests addressed to a slot, each with what the slot holds then. -/
def replies (slot : Expect) : Lookup → List Request → List (Answer × Lookup)
  | _, [] => []
  | l, request :: requests =>
      let rest := replies slot (request.perform l) requests
      if request.slot? l.expect = some slot then
        (request.answer l, (request.perform l).only slot) :: rest
      else rest

-- ── one request ──────────────────────────────────────────────────────────────────

variable {slot : Expect} {l : Lookup} {request : Request} {requests : List Request}

theorem expect_only (slot : Expect) (l : Lookup) : (l.only slot).expect = slot := by
  cases slot <;> rfl

theorem only_only (slot : Expect) (l : Lookup) : (l.only slot).only slot = l.only slot := by
  cases slot <;> rfl

theorem expect_perform (request : Request) (l : Lookup) :
    (request.perform l).expect = request.expectAfter l.expect := by
  cases request with
  | resolve name =>
      rw [Request.perform, resolve]
      split <;> rfl
  | nextArgument =>
      rw [Request.perform, nextArgument]
      split <;> rfl
  | property name =>
      obtain ⟨object, h⟩ := l.enterProperty_eq name
      rw [Request.perform, h]
      rfl
  | setExpect | resetFilter | releaseObject => rfl

/-- A request does to its slot, and answers of it, what it would if there were no other slot. -/
theorem perform_own (h : request.slot? l.expect = some slot) :
    (request.perform l).only slot = request.perform (l.only slot) ∧
      request.answer l = request.answer (l.only slot) := by
  cases request with
  | setExpect expect => exact nomatch h
  | resolve name =>
      obtain rfl : l.expect = slot := Option.some.inj h
      cases hexpect : l.expect <;>
        simp only [Request.perform, Request.answer, resolve, isKnown, hexpect, only, and_self]
  | nextArgument =>
      obtain rfl : Expect.filter = slot := Option.some.inj h
      refine ⟨?_, rfl⟩
      have hlast : (l.only .filter).isLastArgument = l.isLastArgument := rfl
      rw [Request.perform, Request.perform, nextArgument, nextArgument, hlast]
      split <;> rfl
  | resetFilter =>
      obtain rfl : Expect.filter = slot := Option.some.inj h
      exact ⟨rfl, rfl⟩
  | property name =>
      obtain rfl : Expect.object = slot := Option.some.inj h
      have hanswer : (l.only .object).answer name = l.answer name := rfl
      simp only [Request.perform, Request.answer, enterProperty, hasProperty?, hanswer]
      refine ⟨?_, trivial⟩
      split <;> rfl
  | releaseObject =>
      obtain rfl : Expect.object = slot := Option.some.inj h
      exact ⟨rfl, rfl⟩

/-- A request that is not addressed to a slot leaves it as it is. -/
theorem perform_other (h : request.slot? l.expect ≠ some slot) :
    (request.perform l).only slot = l.only slot := by
  cases request with
  | setExpect expect => cases slot <;> rfl
  | resolve name =>
      have hne : l.expect ≠ slot := fun heq => h (congrArg some heq)
      cases hexpect : l.expect <;> cases slot <;>
        first
        | exact absurd hexpect hne
        | simp only [Request.perform, resolve, hexpect, only]
  | nextArgument =>
      rw [Request.perform, nextArgument]
      split
      · rfl
      · cases slot with
        | filter => exact absurd rfl h
        | tag | object => rfl
  | resetFilter =>
      cases slot with
      | filter => exact absurd rfl h
      | tag | object => rfl
  | property name =>
      obtain ⟨object, heq⟩ := l.enterProperty_eq name
      rw [Request.perform, heq]
      cases slot with
      | object => exact absurd rfl h
      | tag | filter => rfl
  | releaseObject =>
      cases slot with
      | object => exact absurd rfl h
      | tag | filter => rfl

/-- A request that is addressed to a slot is addressed to it where there is no other slot. -/
theorem slot?_of_expected {expected : Expect} (h : request.slot? expected = some slot) :
    request.slot? slot = some slot := by
  cases request with
  | setExpect expect => exact nomatch h
  | resolve name => rfl
  | nextArgument | resetFilter | property | releaseObject => exact h

/-- Such a request leaves the category expected as it is. -/
theorem expectAfter_of_slot? {expected : Expect} (h : request.slot? expected = some slot) :
    request.expectAfter expected = expected := by
  cases request with
  | setExpect expect => exact nomatch h
  | resolve | nextArgument | resetFilter | property | releaseObject => rfl

-- ── sequences of requests ────────────────────────────────────────────────────────

/-- **One slot sees its own requests only**: made in a lookup with nothing but the slot, they leave
    in it what the whole sequence does. -/
theorem only_performAll (slot : Expect) (l : Lookup) (requests : List Request) :
    (l.performAll requests).only slot =
      (l.only slot).performAll (addressed slot l.expect requests) := by
  induction requests generalizing l with
  | nil => rfl
  | cons request requests ih =>
      have hrest := ih (request.perform l)
      rw [expect_perform] at hrest
      show ((request.perform l).performAll requests).only slot = _
      rw [hrest, addressed]
      by_cases h : request.slot? l.expect = some slot
      · rw [if_pos h, (perform_own h).1]
        rfl
      · rw [if_neg h, perform_other h]

/-- The answers of one slot are those to its own requests. -/
theorem replies_eq (slot : Expect) (l : Lookup) (requests : List Request) :
    replies slot l requests = replies slot (l.only slot) (addressed slot l.expect requests) := by
  induction requests generalizing l with
  | nil => rfl
  | cons request requests ih =>
      have hrest := ih (request.perform l)
      rw [expect_perform] at hrest
      rw [replies, hrest, addressed]
      by_cases h : request.slot? l.expect = some slot
      · obtain ⟨hperform, hanswer⟩ := perform_own h
        rw [if_pos h, if_pos h, replies, expect_only, if_pos (slot?_of_expected h), hanswer,
          ← hperform, only_only]
      · rw [if_neg h, if_neg h, perform_other h]

/-- Nothing addressed to a slot is lost when the requests of the others are taken away. -/
theorem addressed_keepSlot (slot expected : Expect) (requests : List Request) :
    addressed slot expected (keepSlot slot expected requests) =
      addressed slot expected requests := by
  induction requests generalizing expected with
  | nil => rfl
  | cons request requests ih =>
      have hrest := ih (request.expectAfter expected)
      cases h : request.slot? expected with
      | none => simp only [keepSlot, addressed, h, hrest]
      | some other =>
          have hexpect := expectAfter_of_slot? h
          rw [hexpect] at hrest
          by_cases hslot : other = slot
          · simp only [keepSlot, addressed, h, hslot, hexpect, hrest, if_true]
          · have hne : some other ≠ some slot := fun heq => hslot (Option.some.inj heq)
            simp only [keepSlot, addressed, h, if_neg hslot, if_neg hne, hexpect, hrest]

-- ── the tag ──────────────────────────────────────────────────────────────────────

/-- A slot to which a request is not addressed keeps the dialect as well. -/
theorem dialect_perform (request : Request) (l : Lookup) :
    (request.perform l).dialect = l.dialect := by
  by_cases h : request.slot? l.expect = some .tag
  · show ((request.perform l).only .object).dialect = (l.only .object).dialect
    rw [perform_other (by rw [h]; nofun)]
  · show ((request.perform l).only .tag).dialect = (l.only .tag).dialect
    rw [perform_other h]

theorem dialect_performAll (l : Lookup) (requests : List Request) :
    (l.performAll requests).dialect = l.dialect := by
  induction requests generalizing l with
  | nil => rfl
  | cons request requests ih => exact (ih (request.perform l)).trans (dialect_perform request l)

/-- The requests addressed to the tag look names up. -/
theorem exists_names (expected : Expect) (requests : List Request) :
    ∃ names : List String, addressed .tag expected requests = names.map Request.resolve := by
  induction requests generalizing expected with
  | nil => exact ⟨[], rfl⟩
  | cons request requests ih =>
      obtain ⟨names, hnames⟩ := ih (request.expectAfter expected)
      rw [addressed, hnames]
      split
      · next h =>
          cases request with
          | resolve name => exact ⟨name :: names, rfl⟩
          | setExpect | nextArgument | resetFilter | property | releaseObject => exact nomatch h
      · exact ⟨names, rfl⟩

/-- Looking names up leaves the category expected as it is. -/
theorem expect_resolves (l : Lookup) (names : List String) :
    (l.performAll (names.map Request.resolve)).expect = l.expect := by
  induction names generalizing l with
  | nil => rfl
  | cons name names ih => exact (ih (l.resolve name)).trans (expect_perform (.resolve name) l)

/-- The current tag is the one asked for last, if there is such a tag. -/
theorem tag_performAll (d : Dialect) (requests : List Request) :
    (d.lookup.performAll requests).tag =
      ((addressed .tag .tag requests).filterMap Request.resolved?).getLast?.bind d.tagNamed? := by
  obtain ⟨names, hnames⟩ := exists_names .tag requests
  have honly : (d.lookup.performAll requests).tag =
      ((d.lookup.only .tag).performAll (names.map Request.resolve)).tag := by
    show ((d.lookup.performAll requests).only .tag).tag = _
    rw [only_performAll, ← hnames]
    rfl
  have hresolved : (names.map Request.resolve).filterMap Request.resolved? = names := by
    rw [List.filterMap_map]
    exact List.filterMap_some
  rw [honly, hnames, hresolved]
  cases names using List.reverseRecOn with
  | nil => rfl
  | append_singleton names name =>
      have hexpect := expect_resolves (d.lookup.only .tag) names
      have hdialect := dialect_performAll (d.lookup.only .tag) (names.map Request.resolve)
      rw [List.getLast?_concat, List.map_append, performAll, List.foldl_append, ← performAll]
      show (((d.lookup.only .tag).performAll (names.map Request.resolve)).resolve name).tag = _
      rw [resolve, hexpect]
      show (Dialect.tagNamed? _ name) = _
      rw [hdialect]
      rfl

-- ── the argument ─────────────────────────────────────────────────────────────────

/-- The place of the current argument is one of the current filter, or the first one. -/
structure InRange (l : Lookup) : Prop where
  zero_or_lt : l.argumentIndex = 0 ∨
    ∃ rule, l.filter = some rule ∧ l.argumentIndex < rule.arguments.length
  zero_of_none : l.filter = none → l.argumentIndex = 0

theorem InRange.perform (h : l.InRange) (request : Request) : (request.perform l).InRange := by
  cases request with
  | setExpect expect => exact ⟨h.zero_or_lt, h.zero_of_none⟩
  | resolve name =>
      rw [Request.perform, resolve]
      split
      · exact ⟨h.zero_or_lt, h.zero_of_none⟩
      · exact ⟨h.zero_or_lt, h.zero_of_none⟩
      · exact ⟨Or.inl rfl, fun _ => rfl⟩
  | nextArgument =>
      rw [Request.perform, nextArgument]
      cases hfilter : l.filter with
      | none =>
          rw [if_pos (by rw [isLastArgument, hfilter]; rfl)]
          exact h
      | some rule =>
          by_cases hlast : l.isLastArgument = true
          · rw [if_pos hlast]
            exact h
          · rw [if_neg hlast]
            rw [isLastArgument, hfilter, Option.all_some, decide_eq_true_eq] at hlast
            exact ⟨Or.inr ⟨rule, rfl, Nat.lt_of_not_le hlast⟩, nofun⟩
  | resetFilter => exact ⟨Or.inl rfl, fun _ => rfl⟩
  | property name =>
      obtain ⟨object, heq⟩ := l.enterProperty_eq name
      rw [Request.perform, heq]
      exact ⟨h.zero_or_lt, h.zero_of_none⟩
  | releaseObject => exact ⟨h.zero_or_lt, h.zero_of_none⟩

theorem InRange.performAll (h : l.InRange) (requests : List Request) :
    (l.performAll requests).InRange := by
  induction requests generalizing l with
  | nil => exact h
  | cons request requests ih => exact ih (h.perform request)

/-- **The slots are independent.**  After any sequence of requests to a new lookup, in any order:

    * every slot holds, and has answered to each of its own requests, what it would if its requests
      had been made alone in a lookup with no other slot — and hence, if the requests addressed to
      the other slots had been left out, and the category expected been set as before;
    * the current tag is the one asked for last, if there is such a tag;
    * the place of the current argument is one of the current filter, or zero, and it is zero when
      there is no current filter. -/
theorem slots_independent (d : Dialect) (requests : List Request) :
    (∀ slot,
      (d.lookup.performAll requests).only slot =
          (d.lookup.only slot).performAll (addressed slot .tag requests) ∧
        replies slot d.lookup requests =
          replies slot (d.lookup.only slot) (addressed slot .tag requests) ∧
        (d.lookup.performAll (keepSlot slot .tag requests)).only slot =
          (d.lookup.performAll requests).only slot ∧
        replies slot d.lookup (keepSlot slot .tag requests) = replies slot d.lookup requests) ∧
    (d.lookup.performAll requests).tag =
      ((addressed .tag .tag requests).filterMap Request.resolved?).getLast?.bind d.tagNamed? ∧
    ∀ n, (d.lookup.performAll (requests.take n)).InRange := by
  refine ⟨fun slot => ⟨only_performAll slot d.lookup requests, replies_eq slot d.lookup requests,
    ?_, ?_⟩, tag_performAll d requests, fun n => ?_⟩
  · rw [only_performAll, only_performAll]
    exact congrArg (d.lookup.only slot).performAll (addressed_keepSlot slot .tag requests)
  · rw [replies_eq, replies_eq slot d.lookup requests]
    exact congrArg (replies slot (d.lookup.only slot)) (addressed_keepSlot slot .tag requests)
  · have hnew : d.lookup.InRange := ⟨Or.inl rfl, fun _ => rfl⟩
    exact hnew.performAll (requests.take n)

end Lookup

end TemplateScan
