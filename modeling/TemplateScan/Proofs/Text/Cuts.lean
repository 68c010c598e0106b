import TemplateScan.Proofs.Text.Occurrence
import TemplateScan.Text.Reader

/-! # Cuts — where a text may be cut at a byte offset

    A cut at a boundary splits the text into the characters before and after it; nothing is lost
    and no character is cut in two.

    * **`byteSize_toList`** — the size of a text is that of its UTF-8 encoding.
    * **`splitAtByte_append_of_le`** — a cut in the first part leaves the second part alone.
    * **`Reader.start_rewindStart`** — a token may begin at any boundary before the cursor.
    * **`Reader.occursAt_iff`**, **`Reader.firstFrom_iff`** — the places of patterns, by offset.
    * **`Reader.captures_capture`** — a capture makes the text it passes over the token. -/

namespace TemplateScan.Text

-- ── sizes ────────────────────────────────────────────────────────────────────────

theorem byteSize_ofList (cs : List Char) : (String.ofList cs).utf8ByteSize = byteSize cs := by
  induction cs with
  | nil => rfl
  | cons c cs ih =>
      have hc : (String.ofList [c]).utf8ByteSize = c.utf8Size := by
        rw [← String.singleton_eq_ofList, String.utf8ByteSize_singleton]
      rw [← List.singleton_append, String.ofList_append, String.utf8ByteSize_append, ih, hc,
        List.singleton_append, byteSize_cons]

/-- The size of a text is the number of bytes of its UTF-8 encoding. -/
theorem byteSize_toList (s : String) : byteSize s.toList = s.utf8ByteSize := by
  rw [← byteSize_ofList, String.ofList_toList]

-- ── cuts ─────────────────────────────────────────────────────────────────────────

variable {a b : List Char} {n : Nat}

/-- A cut in the first part leaves the second part alone. -/
theorem splitAtByte_append_of_le (h : n ≤ byteSize a) :
    splitAtByte n (a ++ b) = ((splitAtByte n a).1, (splitAtByte n a).2 ++ b) := by
  induction a generalizing n with
  | nil =>
      obtain rfl : n = 0 := Nat.le_zero.mp h
      simp
  | cons c a ih =>
      cases n with
      | zero => rfl
      | succ n =>
          have hn : n + 1 - c.utf8Size ≤ byteSize a := by
            rw [byteSize_cons] at h
            omega
          rw [List.cons_append, splitAtByte, ih hn]
          rfl

@[simp] theorem dropBytes_zero (cs : List Char) : dropBytes 0 cs = cs := by
  rw [dropBytes_eq, splitAtByte_zero]

theorem dropBytes_byteSize (a b : List Char) : dropBytes (byteSize a) (a ++ b) = b := by
  rw [dropBytes_eq, splitAtByte_byteSize]

/-- Longer beginnings of a text have more bytes. -/
theorem byteSize_take_lt {i j : Nat} (hij : i < j) (hj : j ≤ a.length) :
    byteSize (a.take i) < byteSize (a.take j) := by
  induction a generalizing i j with
  | nil =>
      rw [List.length_nil] at hj
      omega
  | cons c a ih =>
      have hc := c.utf8Size_pos
      cases j with
      | zero => exact absurd hij (Nat.not_lt_zero i)
      | succ j =>
          cases i with
          | zero =>
              rw [List.take_zero, byteSize_nil, List.take_succ_cons, byteSize_cons]
              omega
          | succ i =>
              have hlt := ih (Nat.lt_of_succ_lt_succ hij) (Nat.le_of_succ_le_succ hj)
              rw [List.take_succ_cons, List.take_succ_cons, byteSize_cons, byteSize_cons]
              omega

/-- The boundaries of a text are the ends of its beginnings. -/
theorem isBoundary_iff_take : IsBoundary n a ↔ ∃ i ≤ a.length, n = byteSize (a.take i) := by
  rw [isBoundary_iff]
  constructor
  · rintro ⟨x, y, rfl, rfl⟩
    exact ⟨x.length, by rw [List.length_append]; omega, by rw [List.take_left]⟩
  · rintro ⟨i, -, rfl⟩
    exact ⟨a.take i, a.drop i, (List.take_append_drop i a).symm, rfl⟩

theorem le_byteSize_of_isBoundary (h : IsBoundary n a) : n ≤ byteSize a := by
  obtain ⟨x, y, rfl, rfl⟩ := isBoundary_iff.mp h
  rw [byteSize_append]
  exact Nat.le_add_right _ _

theorem isBoundary_min {m : Nat} (hm : IsBoundary m a) (hn : IsBoundary n a) :
    IsBoundary (min m n) a := by
  rcases Nat.le_total m n with hle | hle
  · rwa [Nat.min_eq_left hle]
  · rwa [Nat.min_eq_right hle]

/-- A boundary of the whole in the first part is a boundary of that part. -/
theorem isBoundary_of_append (h : n ≤ byteSize a) (hb : IsBoundary n (a ++ b)) :
    IsBoundary n a := by
  rw [IsBoundary, splitAtByte_append_of_le h] at hb
  exact hb

/-- A cut falls at its offset or after it, or at the end of the text. -/
theorem min_le_byteSize_splitAtByte (n : Nat) (cs : List Char) :
    min n (byteSize cs) ≤ byteSize (splitAtByte n cs).1 := by
  induction cs generalizing n with
  | nil => simp
  | cons c cs ih =>
      cases n with
      | zero => simp
      | succ n =>
          have hrest := ih (n + 1 - c.utf8Size)
          simp only [splitAtByte, byteSize_cons]
          omega

/-- A cut falls at the first boundary that is not before its offset. -/
theorem byteSize_splitAtByte_le {m : Nat} (hm : IsBoundary m a) (h : n ≤ m) :
    byteSize (splitAtByte n a).1 ≤ m := by
  obtain ⟨x, y, rfl, rfl⟩ := isBoundary_iff.mp hm
  have hsize := congrArg byteSize (splitAtByte_append n x)
  rw [byteSize_append] at hsize
  rw [splitAtByte_append_of_le h]
  exact Nat.le_of_add_right_le (Nat.le_of_eq hsize)

-- ── readers ──────────────────────────────────────────────────────────────────────

namespace Reader

variable {r : Reader}

theorem byteSize_behind (r : Reader) : byteSize r.behind.reverse = r.offset := by
  rw [byteSize_reverse, behind, byteSize_append, byteSize_reverse, offset, Nat.add_comm]

theorem behind_append_rest (r : Reader) : r.behind.reverse ++ r.rest = r.document.chars := by
  rw [behind, List.reverse_append, List.reverse_reverse, List.append_assoc, r.covers]

/-- A jump to the cursor of a reader leads where that reader is. -/
theorem jump_offset {r' : Reader} (h : r'.document = r.document) :
    r'.jump r.offset = r.mark := by
  have hsplit : splitAtByte r.offset r.document.chars = (r.behind.reverse, r.rest) := by
    rw [← byteSize_behind, ← behind_append_rest, splitAtByte_byteSize]
  simp only [jump, mark, h, hsplit, List.reverse_reverse]

theorem offset_add_rest (r : Reader) : r.offset + byteSize r.rest = r.document.size := by
  rw [← byteSize_behind, ← byteSize_append, behind_append_rest]
  rfl

/-- Where two readers of a document have the same text left, they are at the same place. -/
theorem mark_of_rest {r' : Reader} (hd : r'.document = r.document) (hr : r'.rest = r.rest) :
    r'.mark = r.mark := by
  have hr' := offset_add_rest r'
  rw [hr, hd, ← offset_add_rest r, Nat.add_right_cancel_iff] at hr'
  rw [← jump_offset hd, ← hr', jump_offset rfl]

/-- A token may begin at any boundary before the cursor. -/
theorem start_rewindStart {o : Nat} (h : IsBoundary o r.document.chars) (ho : o ≤ r.offset) :
    (r.rewindStart o).start = o := by
  rw [← behind_append_rest] at h
  rw [← byteSize_behind] at ho
  rw [start, rewindStart, byteSize_reverse]
  exact isBoundary_of_append ho h

theorem behind_capture (r : Reader) (n : Nat) :
    (r.capture n).behind.reverse = r.behind.reverse ++ r.rest.take n := by
  rw [behind, token_capture, List.reverse_append, List.reverse_reverse]
  rfl

/-- A token that reaches back before the text captured begins where the text behind is cut. -/
theorem parts_rewindStart (r : Reader) (n : Nat) {o : Nat} (ho : o ≤ r.offset) :
    ((r.capture n).rewindStart o).start = byteSize (splitAtByte o r.behind.reverse).1 ∧
      ((r.capture n).rewindStart o).token =
        (splitAtByte o r.behind.reverse).2 ++ r.rest.take n := by
  have hcut : splitAtByte o (r.capture n).behind.reverse = ((splitAtByte o r.behind.reverse).1,
      (splitAtByte o r.behind.reverse).2 ++ r.rest.take n) := by
    rw [behind_capture, splitAtByte_append_of_le (by rw [byteSize_behind]; exact ho)]
  constructor
  · rw [start, rewindStart, byteSize_reverse, hcut]
  · show (splitAtByte o (r.capture n).behind.reverse).2 = _
    rw [hcut]

-- ── places after the cursor ──────────────────────────────────────────────────────

theorem offsetAt_zero (r : Reader) : r.offsetAt 0 = r.offset := by
  rw [offsetAt, List.take_zero, byteSize_nil, Nat.add_zero]

theorem offset_le_offsetAt (r : Reader) (n : Nat) : r.offset ≤ r.offsetAt n :=
  Nat.le_add_right _ _

theorem offsetAt_lt {i j : Nat} (hij : i < j) (hj : j ≤ r.rest.length) :
    r.offsetAt i < r.offsetAt j :=
  Nat.add_lt_add_left (byteSize_take_lt hij hj) _

theorem offsetAt_le {i j : Nat} (hij : i ≤ j) (hj : j ≤ r.rest.length) :
    r.offsetAt i ≤ r.offsetAt j := by
  rcases Nat.lt_or_eq_of_le hij with hlt | rfl
  · exact Nat.le_of_lt (offsetAt_lt hlt hj)
  · exact Nat.le_refl _

/-- What has the smaller offset comes first. -/
theorem lt_of_offsetAt_lt {i j : Nat} (hi : i ≤ r.rest.length)
    (h : r.offsetAt i < r.offsetAt j) : i < j :=
  Nat.lt_of_not_le fun hle => Nat.not_lt.mpr (offsetAt_le hle hi) h

/-- What has the same offset is at the same place. -/
theorem eq_of_offsetAt_eq {i j : Nat} (hi : i ≤ r.rest.length) (hj : j ≤ r.rest.length)
    (h : r.offsetAt i = r.offsetAt j) : i = j := by
  rcases Nat.lt_trichotomy i j with hlt | heq | hlt
  · exact absurd h (Nat.ne_of_lt (offsetAt_lt hlt hj))
  · exact heq
  · exact absurd h (Nat.ne_of_gt (offsetAt_lt hlt hi))

/-- The boundaries from the cursor on are the places of the characters after it. -/
theorem isBoundary_iff_offsetAt {o : Nat} :
    IsBoundary o r.document.chars ∧ r.offset ≤ o ↔ ∃ n ≤ r.rest.length, o = r.offsetAt n := by
  rw [← behind_append_rest]
  constructor
  · rintro ⟨hb, ho⟩
    obtain ⟨k, rfl⟩ := Nat.exists_eq_add_of_le ho
    rw [← byteSize_behind, IsBoundary, splitAtByte_add, byteSize_append] at hb
    obtain ⟨n, hn, hk⟩ := isBoundary_iff_take.mp (Nat.add_left_cancel hb)
    exact ⟨n, hn, by rw [offsetAt, ← hk]⟩
  · rintro ⟨n, hn, rfl⟩
    refine ⟨?_, offset_le_offsetAt r n⟩
    rw [offsetAt, ← byteSize_behind, IsBoundary, splitAtByte_add, byteSize_append]
    exact congrArg _ (isBoundary_iff_take.mpr ⟨n, hn, rfl⟩)

theorem offsetAt_add (r : Reader) (m n : Nat) :
    r.offsetAt (m + n) = r.offsetAt m + byteSize ((r.rest.drop m).take n) := by
  rw [offsetAt, List.take_add, byteSize_append, ← Nat.add_assoc]
  rfl

theorem dropBytes_offsetAt (r : Reader) (n : Nat) :
    dropBytes (r.offsetAt n) r.document.chars = r.rest.drop n := by
  rw [← behind_append_rest, offsetAt, ← byteSize_behind, dropBytes_eq, splitAtByte_add]
  have hcut := splitAtByte_byteSize (r.rest.take n) (r.rest.drop n)
  rw [List.take_append_drop] at hcut
  rw [hcut]

theorem offsetAt_le_size (r : Reader) (n : Nat) : r.offsetAt n ≤ r.document.size := by
  have hsplit := congrArg byteSize (List.take_append_drop n r.rest)
  rw [byteSize_append] at hsplit
  rw [← r.offset_add_rest, offsetAt]
  omega

/-- One character further, the offset is the size of the character further. -/
theorem offsetAt_succ {n : Nat} {c : Char} (h : r.rest[n]? = some c) :
    r.offsetAt (n + 1) = r.offsetAt n + c.utf8Size := by
  have htake : (r.rest.drop n).take 1 = [c] := by
    rw [List.take_one, List.head?_drop, h]
    rfl
  rw [offsetAt_add, htake, byteSize_cons, byteSize_nil, Nat.add_zero]

/-- A first character of one byte is passed over with one byte. -/
theorem offsetAt_one {c : Char} {tail : List Char} (h : r.rest = c :: tail)
    (hc : c.utf8Size = 1) : r.offsetAt 1 = r.offset + 1 := by
  rw [offsetAt, h, List.take_succ_cons, List.take_zero, byteSize_cons, hc]
  rfl

theorem extend_length_take (r : Reader) (n : Nat) :
    r.extend (r.rest.take n).length = r.extend n := by
  have htake : r.rest.take (r.rest.take n).length = r.rest.take n := by
    rw [← List.prefix_iff_eq_take.mp (List.take_prefix n r.rest)]
  have hdrop : r.rest.drop (r.rest.take n).length = r.rest.drop n := by
    have hsame := List.take_append_drop (r.rest.take n).length r.rest
    rw [htake] at hsame
    exact List.append_cancel_left (hsame.trans (List.take_append_drop n r.rest).symm)
  simp only [extend, htake, hdrop]

@[simp] theorem extend_zero (r : Reader) : r.extend 0 = r := by
  simp [extend]

/-- A move over whole characters is not refused. -/
theorem extendTo?_offsetAt (r : Reader) (n : Nat) :
    r.extendTo? (r.offsetAt n) = some (decide (r.offset < r.offsetAt n), r.extend n) := by
  have htarget : min (r.offsetAt n) r.document.size = r.offsetAt n :=
    Nat.min_eq_left (offsetAt_le_size r n)
  rw [extendTo?]
  simp only [htarget]
  by_cases hle : r.offsetAt n ≤ r.offset
  · -- nothing is passed over
    have hnil : r.rest.take n = [] := by
      rw [offsetAt] at hle
      exact byteSize_eq_zero.mp (by omega)
    have hsame := extend_length_take r n
    rw [hnil, List.length_nil, extend_zero] at hsame
    rw [if_pos hle, ← hsame, decide_eq_false (Nat.not_lt.mpr hle)]
  · have hcut : r.offsetAt n - r.offset = byteSize (r.rest.take n) := by
      rw [offsetAt, Nat.add_sub_cancel_left]
    have hsplit := splitAtByte_byteSize (r.rest.take n) (r.rest.drop n)
    rw [List.take_append_drop] at hsplit
    have hbound : IsBoundary (byteSize (r.rest.take n)) r.rest := by rw [IsBoundary, hsplit]
    rw [if_neg hle, hcut, splitAtByte?, if_pos hbound, hsplit,
      decide_eq_true (Nat.lt_of_not_le hle)]
    exact congrArg (fun next => some (true, next)) (extend_length_take r n)

theorem until?_offsetAt (r : Reader) (n : Nat) :
    r.until? (r.offsetAt n) = some (decide (r.offset < r.offsetAt n), r.capture n) := by
  have h := extendTo?_offsetAt r.mark n
  rw [offset_mark, show r.mark.offsetAt n = r.offsetAt n by rw [offsetAt, offset_mark]; rfl] at h
  exact h

end Reader

/-- The pattern occurs at a byte offset of the document. -/
def Document.OccursAt (d : Document) (pattern : List Char) (offset : Nat) : Prop :=
  IsBoundary offset d.chars ∧ pattern <+: dropBytes offset d.chars

/-- The occurrences from the cursor on are those in the rest. -/
theorem Reader.occursAt_iff {r : Reader} {pattern : List Char} {o : Nat} :
    r.document.OccursAt pattern o ∧ r.offset ≤ o ↔
      ∃ n ≤ r.rest.length, o = r.offsetAt n ∧ pattern <+: r.rest.drop n := by
  constructor
  · rintro ⟨⟨hb, hp⟩, ho⟩
    obtain ⟨n, hn, rfl⟩ := isBoundary_iff_offsetAt.mp ⟨hb, ho⟩
    rw [dropBytes_offsetAt] at hp
    exact ⟨n, hn, rfl, hp⟩
  · rintro ⟨n, hn, rfl, hp⟩
    obtain ⟨hb, ho⟩ := isBoundary_iff_offsetAt.mpr ⟨n, hn, rfl⟩
    refine ⟨⟨hb, ?_⟩, ho⟩
    rw [dropBytes_offsetAt]
    exact hp

/-- The occurrences of a character from the cursor on are its places in the rest. -/
theorem Reader.occursAt_char_iff {r : Reader} {c : Char} {o : Nat} :
    r.document.OccursAt [c] o ∧ r.offset ≤ o ↔ ∃ n, o = r.offsetAt n ∧ r.rest[n]? = some c := by
  have hhead : ∀ n, [c] <+: r.rest.drop n ↔ r.rest[n]? = some c := by
    intro n
    rw [← List.head?_drop]
    cases r.rest.drop n with
    | nil => simp
    | cons c cs => simp [eq_comm]
  rw [Reader.occursAt_iff]
  constructor
  · rintro ⟨n, -, ho, hpre⟩
    exact ⟨n, ho, (hhead n).mp hpre⟩
  · rintro ⟨n, ho, hchar⟩
    obtain ⟨hlt, -⟩ := List.getElem?_eq_some_iff.mp hchar
    exact ⟨n, Nat.le_of_lt hlt, ho, (hhead n).mpr hchar⟩

/-- Where no stop begins in the next `n` characters, none occurs there in the document. -/
theorem Avoids.not_occursAt {r : Reader} {stops : List (List Char)} {n o : Nat} {p : List Char}
    (h : Avoids stops n r.rest) (hp : p ∈ stops) (hle : r.offset ≤ o) (hlt : o < r.offsetAt n) :
    ¬ r.document.OccursAt p o := by
  intro hocc
  obtain ⟨j, hj, rfl, hpre⟩ := Reader.occursAt_iff.mp ⟨hocc, hle⟩
  exact h.no_stop j (Reader.lt_of_offsetAt_lt hj hlt) p hp hpre

/-- The offset is the first place from `start` on where one of the patterns occurs. -/
structure Document.FirstFrom (d : Document) (patterns : List (List Char)) (start offset : Nat) :
    Prop where
  le : start ≤ offset
  occurs : ∃ p ∈ patterns, d.OccursAt p offset
  first : ∀ o, start ≤ o → o < offset → ∀ p ∈ patterns, ¬ d.OccursAt p o

/-- The first place from the cursor on is what the search in the rest finds. -/
theorem Reader.firstFrom_iff {r : Reader} {patterns : List (List Char)} {o : Nat} :
    r.document.FirstFrom patterns r.offset o ↔
      ∃ n ≤ r.rest.length, o = r.offsetAt n ∧ earliest? patterns r.rest = some n := by
  constructor
  · rintro ⟨ho, ⟨p, hp, hocc⟩, hfirst⟩
    obtain ⟨n, hn, rfl, hpre⟩ := occursAt_iff.mp ⟨hocc, ho⟩
    refine ⟨n, hn, rfl, earliest?_eq_some_iff.mpr ⟨⟨p, hp, hpre⟩, fun j hj q hq hqj => ?_⟩⟩
    obtain ⟨hat, hle⟩ := occursAt_iff.mpr ⟨j, by omega, rfl, hqj⟩
    exact hfirst _ hle (offsetAt_lt hj hn) q hq hat
  · rintro ⟨n, hn, rfl, he⟩
    obtain ⟨⟨p, hp, hpre⟩, hbefore⟩ := earliest?_eq_some_iff.mp he
    refine ⟨offset_le_offsetAt r n, ⟨p, hp, (occursAt_iff.mpr ⟨n, hn, rfl, hpre⟩).1⟩,
      fun o ho hlt q hq hat => ?_⟩
    obtain ⟨j, hj, rfl, hqj⟩ := occursAt_iff.mp ⟨hat, ho⟩
    exact hbefore j (lt_of_offsetAt_lt hj hlt) q hq hqj

-- ── slices ───────────────────────────────────────────────────────────────────────

/-- The slice of a middle part, whose ends are boundaries, is that part. -/
theorem Document.slice?_of_append {d : Document} {a b c : List Char} (h : d.chars = a ++ (b ++ c)) :
    d.slice? (byteSize a) (byteSize a + byteSize b) = some b := by
  have hstart : IsBoundary (byteSize a) d.chars := isBoundary_iff.mpr ⟨a, b ++ c, h, rfl⟩
  have hstop : IsBoundary (byteSize a + byteSize b) d.chars :=
    isBoundary_iff.mpr ⟨a ++ b, c, by rw [h, List.append_assoc], byteSize_append a b⟩
  rw [slice?, if_pos ⟨Nat.le_add_right _ _, hstart, hstop⟩, between, h, dropBytes_byteSize,
    Nat.add_sub_cancel_left, splitAtByte_byteSize]

/-- A boundary has a position, and a region that starts there has a span. -/
theorem Document.position?_of_isBoundary {d : Document} {o : Nat} (h : IsBoundary o d.chars) :
    d.position? o = some (d.position o) ∧ ∀ stop, d.spanOf? o stop = some (d.spanOf o stop) := by
  have hposition : d.position? o = some (d.position o) := by
    rw [position?, if_pos]
    rwa [size, Nat.min_eq_left (le_byteSize_of_isBoundary h)]
  refine ⟨hposition, fun stop => ?_⟩
  rw [spanOf?, hposition]
  rfl

/-- Between two boundaries in order there is a slice. -/
theorem Document.slice?_eq_some {d : Document} {start stop : Nat} (hle : start ≤ stop)
    (hstart : IsBoundary start d.chars) (hstop : IsBoundary stop d.chars) :
    d.slice? start stop = some (d.between start stop) :=
  if_pos ⟨hle, hstart, hstop⟩

namespace Reader

variable {r : Reader}

/-- The token is the slice that its range names. -/
theorem slice?_token (r : Reader) : r.document.slice? r.start r.offset = some r.token := by
  have h := Document.slice?_of_append r.covers.symm
  rwa [byteSize_reverse] at h

/-- The text before the cursor is a slice. -/
theorem slice?_behind (r : Reader) :
    r.document.slice? 0 r.offset = some r.behind.reverse := by
  have hsplit : r.document.chars = [] ++ (r.behind.reverse ++ r.rest) :=
    (behind_append_rest r).symm
  have h := Document.slice?_of_append hsplit
  rwa [byteSize_nil, Nat.zero_add, byteSize_behind] at h

/-- A text that comes `n` characters after the cursor is a slice. -/
theorem slice?_of_prefix {n : Nat} {w : List Char} (h : w <+: r.rest.drop n) :
    r.document.slice? (r.offsetAt n) (r.offsetAt n + byteSize w) = some w := by
  obtain ⟨tail, htail⟩ := h
  have hsplit : r.document.chars = (r.behind.reverse ++ r.rest.take n) ++ (w ++ tail) := by
    rw [htail, List.append_assoc, List.take_append_drop, behind_append_rest]
  have hslice := Document.slice?_of_append hsplit
  rwa [byteSize_append, byteSize_behind] at hslice

/-- The next `n` characters are a slice. -/
theorem slice?_take (r : Reader) (n : Nat) :
    r.document.slice? r.offset (r.offsetAt n) = some (r.rest.take n) := by
  have h := slice?_of_prefix (r := r) (n := 0) (List.take_prefix n r.rest)
  rwa [offsetAt_zero] at h

/-- What is left `n` characters after the cursor is a slice. -/
theorem slice?_drop (r : Reader) (n : Nat) :
    r.document.slice? (r.offsetAt n) r.document.size = some (r.rest.drop n) := by
  have h := slice?_of_prefix (r := r) (n := n) (List.prefix_refl _)
  have hsize : r.offsetAt n + byteSize (r.rest.drop n) = r.document.size := by
    rw [offsetAt, Nat.add_assoc, ← byteSize_append, List.take_append_drop, offset_add_rest]
  rwa [hsize] at h

/-- After a given text that comes next, the offset is its size further. -/
theorem offsetAt_length {w : List Char} (h : w <+: r.rest) :
    r.offsetAt w.length = r.offset + byteSize w := by
  rw [offsetAt, ← List.prefix_iff_eq_take.mp h]

-- ── captures ─────────────────────────────────────────────────────────────────────

/-- The token of `next` is a given text, which stands between the cursor of `r` and its own. -/
structure Captures (r next : Reader) (text : List Char) : Prop where
  document : next.document = r.document
  start : next.start = r.offset
  token : next.token = text
  slice : r.document.slice? r.offset next.offset = some text

/-- A capture makes the text it passes over the token. -/
theorem captures_capture {w : List Char} (h : w <+: r.rest) :
    r.Captures (r.capture w.length) w where
  document := rfl
  start := start_capture _ r
  token := by rw [token_capture, ← List.prefix_iff_eq_take.mp h]
  slice := by
    have hslice := slice?_of_prefix (r := r) (n := 0) h
    rwa [offsetAt_zero, ← offsetAt_length h, ← offset_capture] at hslice

end Reader

-- ── strings ──────────────────────────────────────────────────────────────────────

/-- A quote has one byte. -/
theorem utf8Size_of_isQuote {quote : Char} (h : isQuote quote = true) : quote.utf8Size = 1 := by
  simp only [isQuote, Bool.or_eq_true, beq_iff_eq] at h
  rcases h with rfl | rfl <;> rfl

/-- The part of a string before the first stop ends where that stop is found. -/
theorem Reader.slice?_string {r : Reader} {quote : Char} {tail : List Char}
    (stops : List (List Char)) (h : r.rest = quote :: tail) (hq : isQuote quote = true) :
    r.document.slice? (r.offset + 1)
        (match earliest? stops tail with
          | some k => r.offset + 1 + byteSize (tail.take k)
          | none => r.document.size) = some (beforeStops stops tail) := by
  have hone := offsetAt_one h (utf8Size_of_isQuote hq)
  have hdrop : r.rest.drop 1 = tail := by rw [h]; rfl
  rw [← hone]
  cases he : earliest? stops tail with
  | some k =>
      have hbody : beforeStops stops tail = tail.take k := by rw [beforeStops, he]; rfl
      rw [hbody]
      refine slice?_of_prefix ?_
      rw [hdrop]
      exact List.take_prefix k tail
  | none =>
      have hbody : beforeStops stops tail = tail := by
        rw [beforeStops, he, Option.getD_none, List.take_length]
      have hslice := slice?_drop r 1
      rw [hdrop] at hslice
      rw [hbody]
      exact hslice

end TemplateScan.Text
