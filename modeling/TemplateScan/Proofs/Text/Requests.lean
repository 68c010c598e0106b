import TemplateScan.Proofs.Text.Bytes
import TemplateScan.Proofs.Text.Captures
import TemplateScan.Proofs.Text.Lines

/-! # Requests — whatever is asked of a reader, it can answer

    A reader is asked for what it sees, for a move, or for a capture.  Some requests name offsets
    of their own; every other offset is computed from the cursor.  None of these falls inside a
    character, so that no request is refused which itself names only boundaries.

    * **`Request.perform?`** — what a request answers, and the reader after it.
    * **`Request.slices`** — the parts of the document that it looks at.
    * **`Request.served`** — one request; **`requests_served`** — after any sequence of them. -/

namespace TemplateScan.Text

/-- The offset is the first boundary that is not before the target. -/
structure Document.FirstBoundary (d : Document) (target offset : Nat) : Prop where
  boundary : IsBoundary offset d.chars
  le : target ≤ offset
  least : ∀ o, IsBoundary o d.chars → target ≤ o → offset ≤ o

namespace Reader

variable {r : Reader}

-- ── requests ─────────────────────────────────────────────────────────────────────

/-- A look leaves the reader as it is. -/
inductive Look where
  | source
  | atEnd
  | start
  | offset
  | range
  | token
  | rest
  | span
  | peek
  | peekAt (n : Nat)
  | isNext (pattern : List Char)
  | nextIs (p : Char → Bool)
  | isWord (pattern : List Char)
  | identifier
  | find (pattern : List Char) (stops : List (List Char))
  | seek (bytes : List UInt8)
  | slice (a b : Nat)
  | position (o : Nat)
  | spanOf (a b : Nat)

/-- A move changes where the token starts or ends. -/
inductive Move where
  | mark
  | forward (n : Nat)
  | extendTo (o : Nat)
  | skipBlanks
  | rewindStart (o : Nat)
  | jump (o : Nat)

/-- What a reader can be asked for. -/
inductive Request where
  | look (l : Look)
  | move (m : Move)
  | capture (c : Capture)

/-- What a look answers; the parts of the document that it shows are cut out by byte offset. -/
def Look.answer? (r : Reader) : Look → Option Answer
  | source => some (.text r.document.chars)
  | atEnd => some (.flag r.atEnd)
  | start => some (.count r.start)
  | offset => some (.count r.offset)
  | range => some (.range r.start r.offset)
  | token => (r.document.slice? r.start r.offset).map .text
  | rest => (r.document.slice? r.offset r.document.size).map .text
  | span => (r.document.spanOf? r.start r.offset).map .span
  | peek => some (.char r.peek?)
  | peekAt n => some (.char (r.peekAt? n))
  | isNext pattern => some (.flag (r.isNext pattern))
  | nextIs p => some (.flag (r.peek?.any p))
  | isWord pattern => some (.flag (startsWithWord pattern r.rest))
  | identifier => some (.name (identifier? r.rest))
  | find pattern stops => some (.place (r.find? pattern stops))
  | seek bytes => some (.place (r.seekByte? bytes))
  | slice a b => (r.document.slice? a b).map .text
  | position o => (r.document.position? o).map .position
  | spanOf a b => (r.document.spanOf? a b).map .span

/-- What a move answers, and the reader after it. -/
def Move.perform? (r : Reader) : Move → Option (Answer × Reader)
  | mark => some (.done, r.mark)
  | forward n => some (.count (r.forward n).1, (r.forward n).2)
  | extendTo o => (r.extendTo? o).map Answer.ofFlag
  | skipBlanks => some (Answer.ofFlag r.skipBlanks)
  | rewindStart o => (r.rewindStart? o).map (.done, ·)
  | jump o => some (.done, r.jump o)

/-- What a request answers, and the reader after it; `none` if it is refused. -/
def Request.perform? (r : Reader) : Request → Option (Answer × Reader)
  | look l => (l.answer? r).map (·, r)
  | move m => m.perform? r
  | capture c => c.perform? r

/-- The reader after a sequence of requests; `none` if one of them is refused. -/
def performAll? : Reader → List Request → Option Reader
  | r, [] => some r
  | r, request :: requests =>
      (request.perform? r).bind fun served => performAll? served.2 requests

/-- The request names only boundaries of the text, in order, and patterns that are not empty. -/
def Request.Allowed (text : List Char) : Request → Prop
  | look (.slice a b) | look (.spanOf a b) => a ≤ b ∧ IsBoundary a text ∧ IsBoundary b text
  | look (.position o) | move (.extendTo o) | move (.rewindStart o) => IsBoundary o text
  | look _ | move _ => True
  | capture c => c.Allowed text

-- ── what a request looks at ──────────────────────────────────────────────────────

/-- The range is that of a slice of the document. -/
def HasSlice (r : Reader) (range : Nat × Nat) : Prop :=
  ∃ text, r.document.slice? range.1 range.2 = some text

/-- The range of the rest. -/
def restRange (r : Reader) : Nat × Nat :=
  (r.offset, r.document.size)

/-- The range whose characters are counted for the column of an offset. -/
def columnRange (r : Reader) (offset : Nat) : Nat × Nat :=
  let stop := min offset r.document.size
  (r.document.lines.startOf (r.document.lines.lineAt stop), stop)

/-- The range behind a word, if it comes next. -/
def wordRange? (r : Reader) (word : List Char) : Option (Nat × Nat) :=
  if r.isNext word then some (r.offset + byteSize word, r.document.size) else none

/-- The range in which the closing quote of a string is looked for. -/
def stringRange? (r : Reader) (stops : List (List Char)) : Option (Nat × Nat) :=
  match r.rest with
  | quote :: tail =>
      if isQuote quote then
        some (r.offset + 1, match earliest? stops tail with
          | some k => r.offset + 1 + byteSize (tail.take k)
          | none => r.document.size)
      else none
  | [] => none

/-- The parts of the document that a request looks at. -/
def Request.slices (r : Reader) : Request → List (Nat × Nat)
  | look .source | look .atEnd | look .start | look .offset | look .range => []
  | look .token => [(r.start, r.offset)]
  | look .span => [r.columnRange r.start]
  | look (.isWord pattern) | capture (.word pattern) =>
      r.restRange :: (r.wordRange? pattern).toList
  | look .identifier =>
      r.restRange ::
        ((identifier? r.rest).map fun name => (r.offset, r.offset + byteSize name)).toList
  | look (.slice a b) => [(a, b)]
  | look (.position o) | look (.spanOf o _) => [r.columnRange o]
  | look .rest | look .peek | look (.peekAt _) | look (.isNext _) | look (.nextIs _)
  | look (.find _ _) | look (.seek _) => [r.restRange]
  | move (.forward _) | move .skipBlanks => [r.restRange]
  | move _ => []
  | capture (.upTo _) | capture .toEnd => []
  | capture (.quoted stops) => r.restRange :: (r.stringRange? stops).toList
  | capture _ => [r.restRange]

-- ── moves ────────────────────────────────────────────────────────────────────────

/-- A jump leads to the first boundary that is not before its offset. -/
theorem firstBoundary_jump (r : Reader) (o : Nat) :
    r.document.FirstBoundary (min o r.document.size) (r.jump o).offset := by
  have hoffset : (r.jump o).offset = byteSize (splitAtByte o r.document.chars).1 := by
    rw [offset, jump, byteSize_reverse, byteSize_nil, Nat.add_zero]
  refine ⟨isBoundary_offset (r.jump o), ?_, fun b hb hle => ?_⟩
  · rw [hoffset]
    exact min_le_byteSize_splitAtByte o r.document.chars
  · rcases Nat.le_total o r.document.size with ho | ho
    · rw [Nat.min_eq_left ho] at hle
      rw [hoffset]
      exact byteSize_splitAtByte_le hb hle
    · rw [Nat.min_eq_right ho] at hle
      exact Nat.le_trans (offset_le_size (r.jump o)) hle

theorem offset_le_extend (n : Nat) (r : Reader) : r.offset ≤ (r.extend n).offset := by
  have h := offset_forward n r
  rw [show (r.forward n).2 = r.extend n from rfl] at h
  rw [h]
  exact Nat.le_add_right _ _

/-- A move that names a boundary is answered; nothing but a jump moves the cursor back. -/
theorem Move.exists_moved (m : Move) (h : (Request.move m).Allowed r.document.chars) :
    ∃ answer next, m.perform? r = some (answer, next) ∧ next.document = r.document ∧
      ((∀ o, m ≠ .jump o) → r.offset ≤ next.offset) := by
  cases m with
  | mark => exact ⟨_, _, rfl, rfl, fun _ => Nat.le_of_eq (offset_mark r).symm⟩
  | forward n => exact ⟨_, _, rfl, rfl, fun _ => offset_le_extend n r⟩
  | extendTo o =>
      obtain ⟨w, -, hmove⟩ := extendTo?_of_isBoundary h
      exact ⟨_, _, congrArg (Option.map Answer.ofFlag) hmove, rfl,
        fun _ => offset_le_extend w.length r⟩
  | skipBlanks => exact ⟨_, _, rfl, rfl, fun _ => offset_le_extend _ r⟩
  | rewindStart o =>
      have hmove : r.rewindStart? o = some (r.rewindStart o) :=
        if_pos (isBoundary_min h r.isBoundary_offset)
      exact ⟨_, _, congrArg (Option.map _) hmove, rfl,
        fun _ => Nat.le_of_eq (offset_rewindStart o r).symm⟩
  | jump o => exact ⟨_, _, rfl, rfl, fun hne => absurd rfl (hne o)⟩

-- ── one request ──────────────────────────────────────────────────────────────────

/-- What a request comes to. -/
structure Served (r : Reader) (request : Request) (answer : Answer) (next : Reader) : Prop where
  answered : request.perform? r = some (answer, next)
  /-- The parts of the document that it looks at are slices. -/
  slices : ∀ range ∈ request.slices r, r.HasSlice range
  document : next.document = r.document
  /-- A look changes nothing. -/
  look : ∀ l, request = .look l → next = r
  /-- Nothing but a jump moves the cursor back. -/
  forward : (∀ o, request ≠ .move (.jump o)) → r.offset ≤ next.offset
  /-- A jump begins a token at a boundary that is as near as can be. -/
  jump : ∀ o, request = .move (.jump o) →
    next.start = next.offset ∧ r.document.FirstBoundary (min o r.document.size) next.offset
  capture : ∀ c, request = .capture c → c.Outcome r answer next

namespace Request

/-- The rest is a slice. -/
theorem hasSlice_restRange (r : Reader) : r.HasSlice r.restRange := by
  have h := slice?_drop r 0
  rw [offsetAt_zero] at h
  exact ⟨_, h⟩

/-- The column of a boundary is counted in a slice. -/
theorem hasSlice_columnRange {o : Nat} (h : IsBoundary o r.document.chars) :
    r.HasSlice (r.columnRange o) := by
  have hsize : IsBoundary r.document.size r.document.chars :=
    isBoundary_iff.mpr ⟨_, [], (List.append_nil _).symm, rfl⟩
  obtain ⟨-, -, hle, hline⟩ := r.document.lines.lineAt_spec (min o r.document.size)
  exact ⟨_, Document.slice?_eq_some hle hline (isBoundary_min h hsize)⟩

/-- What follows a word that comes next is a slice. -/
theorem hasSlice_wordRange {word : List Char} {range : Nat × Nat}
    (h : range ∈ (r.wordRange? word).toList) : r.HasSlice range := by
  rw [Option.mem_toList, wordRange?, Option.ite_none_right_eq_some] at h
  obtain ⟨hnext, hrange⟩ := h
  obtain rfl := Option.some.inj hrange
  have hslice := slice?_drop r word.length
  rw [offsetAt_length (List.isPrefixOf_iff_prefix.mp hnext)] at hslice
  exact ⟨_, hslice⟩

/-- The part of a string in which the closing quote is looked for is a slice. -/
theorem hasSlice_stringRange {stops : List (List Char)} {range : Nat × Nat}
    (h : range ∈ (r.stringRange? stops).toList) : r.HasSlice range := by
  rw [Option.mem_toList, stringRange?] at h
  cases hr : r.rest with
  | nil =>
      rw [hr] at h
      exact nomatch h
  | cons quote tail =>
      rw [hr, Option.ite_none_right_eq_some] at h
      obtain ⟨hquote, hrange⟩ := h
      obtain rfl := Option.some.inj hrange
      exact ⟨_, slice?_string stops hr hquote⟩

/-- The slices that a request takes are slices of the document. -/
theorem hasSlice_of_mem_slices {request : Request} (h : request.Allowed r.document.chars) :
    ∀ range ∈ request.slices r, r.HasSlice range := by
  have hone : ∀ {range}, r.HasSlice range → ∀ x ∈ [range], r.HasSlice x :=
    fun hrange => List.forall_mem_singleton.mpr hrange
  have hcons : ∀ {ranges}, (∀ x ∈ ranges, r.HasSlice x) →
      ∀ x ∈ r.restRange :: ranges, r.HasSlice x :=
    fun hranges => List.forall_mem_cons.mpr ⟨hasSlice_restRange r, hranges⟩
  cases request with
  | look l =>
      cases l with
      | source | atEnd | start | offset | range => exact nofun
      | token => exact hone ⟨_, slice?_token r⟩
      | span => exact hone (hasSlice_columnRange r.isBoundary_start)
      | isWord word => exact hcons fun _ => hasSlice_wordRange
      | identifier =>
          refine hcons fun range hrange => ?_
          obtain ⟨name, hname, rfl⟩ := Option.map_eq_some_iff.mp (Option.mem_toList.mp hrange)
          have hslice := slice?_of_prefix (r := r) (n := 0) (identifier?_eq_some hname).1
          rw [offsetAt_zero] at hslice
          exact ⟨_, hslice⟩
      | slice a b => exact hone ⟨_, Document.slice?_eq_some h.1 h.2.1 h.2.2⟩
      | position o => exact hone (hasSlice_columnRange h)
      | spanOf a b => exact hone (hasSlice_columnRange h.2.1)
      | rest | peek | peekAt | isNext | nextIs | find | seek => exact hone (hasSlice_restRange r)
  | move m =>
      cases m with
      | forward | skipBlanks => exact hone (hasSlice_restRange r)
      | mark | extendTo | rewindStart | jump => exact nofun
  | capture c =>
      cases c with
      | upTo | toEnd => exact nofun
      | word word => exact hcons fun _ => hasSlice_wordRange
      | quoted stops => exact hcons fun _ => hasSlice_stringRange
      | advance | run | char | text | identifier | number => exact hone (hasSlice_restRange r)

/-- A look that names boundaries is answered. -/
theorem exists_answer {l : Look} (h : (look l).Allowed r.document.chars) :
    ∃ answer, l.answer? r = some answer := by
  cases l with
  | token => exact ⟨_, congrArg (Option.map Answer.text) (slice?_token r)⟩
  | rest =>
      obtain ⟨text, htext⟩ := hasSlice_restRange r
      exact ⟨_, congrArg (Option.map Answer.text) htext⟩
  | span =>
      exact ⟨_, congrArg (Option.map Answer.span)
        ((Document.position?_of_isBoundary r.isBoundary_start).2 r.offset)⟩
  | slice a b =>
      exact ⟨_, congrArg (Option.map Answer.text) (Document.slice?_eq_some h.1 h.2.1 h.2.2)⟩
  | position o =>
      exact ⟨_, congrArg (Option.map Answer.position) (Document.position?_of_isBoundary h).1⟩
  | spanOf a b =>
      exact ⟨_, congrArg (Option.map Answer.span) ((Document.position?_of_isBoundary h.2.1).2 b)⟩
  | _ => exact ⟨_, rfl⟩

/-- A request that names boundaries is answered, and comes to what it should. -/
theorem served {request : Request} (h : request.Allowed r.document.chars) :
    ∃ answer next, r.Served request answer next := by
  have hslices := hasSlice_of_mem_slices h
  cases request with
  | look l =>
      obtain ⟨answer, hanswer⟩ := exists_answer h
      refine ⟨answer, r, congrArg (Option.map (·, r)) hanswer, hslices, rfl, fun _ _ => rfl,
        fun _ => Nat.le_refl _, nofun, nofun⟩
  | move m =>
      obtain ⟨answer, next, hperform, hdocument, hforward⟩ := Move.exists_moved m h
      refine ⟨answer, next, hperform, hslices, hdocument, nofun, fun hne => ?_, fun o ho => ?_,
        nofun⟩
      · exact hforward fun o ho => hne o (congrArg Request.move ho)
      · obtain rfl := Request.move.inj ho
        obtain rfl : r.jump o = next := congrArg Prod.snd (Option.some.inj hperform)
        exact ⟨(Nat.add_zero _).symm, firstBoundary_jump r o⟩
  | capture c =>
      obtain ⟨answer, next, hperform, houtcome⟩ := Capture.exists_outcome c h
      refine ⟨answer, next, hperform, hslices, houtcome.document_and_offset.1, nofun,
        fun _ => houtcome.document_and_offset.2, nofun, fun c' hc' => ?_⟩
      obtain rfl := Request.capture.inj hc'
      exact houtcome

end Request

-- ── any sequence of requests ─────────────────────────────────────────────────────

/-- The reader stands in the source: the ends of the token are boundaries in order, and the token,
    the rest and the span can be taken. -/
structure StandsIn (source : String) (r : Reader) : Prop where
  document : r.document = .ofString source
  ordered : r.start ≤ r.offset ∧ r.offset ≤ source.utf8ByteSize
  start : IsBoundary r.start source.toList
  offset : IsBoundary r.offset source.toList
  token : r.document.slice? r.start r.offset = some r.token
  rest : r.document.slice? r.offset source.utf8ByteSize = some r.rest
  span : r.document.spanOf? r.start r.offset = some r.span
  /-- The line of every offset is a line of the table. -/
  line : ∀ o, 0 < r.document.lines.lineAt o ∧
    r.document.lines.lineAt o ≤ r.document.lines.starts.size
  /-- Where the bytes of a pattern are found, a character begins. -/
  bytes : ∀ pattern ≠ [], ∀ o, utf8Bytes pattern <+: (utf8Bytes source.toList).drop o →
    IsBoundary o source.toList

/-- A reader of the source stands in it. -/
theorem standsIn_of_document {source : String} (h : r.document = .ofString source) :
    r.StandsIn source := by
  have hchars : r.document.chars = source.toList := by
    rw [h]
    rfl
  have hsize : r.document.size = source.utf8ByteSize := by
    rw [Document.size, hchars, byteSize_toList]
  have hrest := slice?_drop r 0
  rw [offsetAt_zero, hsize] at hrest
  refine ⟨h, ⟨r.start_le_offset, ?_⟩, ?_, ?_, slice?_token r, hrest,
    (Document.position?_of_isBoundary r.isBoundary_start).2 r.offset, fun o => ?_,
    fun pattern hne o ho => ?_⟩
  · rw [← hsize]
    exact r.offset_le_size
  · rw [← hchars]
    exact r.isBoundary_start
  · rw [← hchars]
    exact r.isBoundary_offset
  · obtain ⟨hpos, hle, -, -⟩ := r.document.lines.lineAt_spec o
    exact ⟨hpos, hle⟩
  · exact ((Document.occursAt_iff_bytes (d := .ofString source) hne).mpr ho).1

/-- A sequence of requests that name boundaries is answered to its end, in the same document. -/
theorem performAll?_eq_some {requests : List Request}
    (h : ∀ request ∈ requests, request.Allowed r.document.chars) :
    ∃ next, r.performAll? requests = some next ∧ next.document = r.document := by
  induction requests generalizing r with
  | nil => exact ⟨r, rfl, rfl⟩
  | cons request requests ih =>
      obtain ⟨hfirst, hothers⟩ := List.forall_mem_cons.mp h
      obtain ⟨answer, next, hserved⟩ := request.served hfirst
      obtain ⟨last, hlast, hdocument⟩ := ih (r := next) (by rwa [hserved.document])
      refine ⟨last, ?_, hdocument.trans hserved.document⟩
      rw [performAll?, hserved.answered, Option.bind_some, hlast]

/-- **Requests.**  Any sequence of requests that name boundaries of the source is answered; the
    reader then stands in the source, and the next request comes to what it should. -/
theorem requests_served (source : String) (requests : List Request)
    (h : ∀ request ∈ requests, request.Allowed source.toList) :
    ∃ r, (ofString source).performAll? requests = some r ∧ r.StandsIn source ∧
      ∀ request : Request, request.Allowed source.toList →
        ∃ answer next, r.Served request answer next := by
  obtain ⟨r, hr, hdocument⟩ := performAll?_eq_some (r := ofString source) h
  refine ⟨r, hr, standsIn_of_document hdocument, fun request hrequest => ?_⟩
  refine request.served ?_
  rw [hdocument]
  exact hrequest

/-- A jump into a character, a line break, a string, and offsets around the character. -/
theorem requests_served_of_string :
    (∀ request ∈ [.move (.jump 2), .capture (.run isLineBreak), .capture (.quoted []),
        .look (.slice 1 3)], Request.Allowed "aé\n'b'".toList request) ∧
      ∃ r, (ofString "aé\n'b'").performAll? [.move (.jump 2), .capture (.run isLineBreak),
          .capture (.quoted []), .look (.slice 1 3)] = some r ∧ r.StandsIn "aé\n'b'" ∧
        ∀ request : Request, request.Allowed "aé\n'b'".toList →
          ∃ answer next, r.Served request answer next := by
  have hallowed : ∀ request ∈ [.move (.jump 2), .capture (.run isLineBreak), .capture (.quoted []),
      .look (.slice 1 3)], Request.Allowed "aé\n'b'".toList request := by
    simp only [List.forall_mem_cons, List.not_mem_nil, false_implies, implies_true, and_true,
      true_and, Request.Allowed, Capture.Allowed]
    decide
  exact ⟨hallowed, requests_served _ _ hallowed⟩

end Reader

end TemplateScan.Text
