import TemplateScan.Proofs.Text.Cuts

/-! # Bytes — a text is searched by characters, and could be by bytes

    Offsets are numbers of bytes, while texts are cut and searched by characters.  The two agree,
    because the first byte of a character is told from all others: a pattern occurs in the bytes of
    a text only where a character begins, and there it occurs in the characters as well.

    * **`isBoundary_of_firstByte`** — where a first byte stands, a character begins.
    * **`utf8Bytes_prefix_iff`** — the bytes of a text begin with those of its prefixes alone.
    * **`Document.occursAt_iff_bytes`** — the places of a pattern are those of its bytes. -/

namespace TemplateScan.Text

variable {a b cs : List Char} {o : Nat}

/-- The bytes of a text in UTF-8. -/
def utf8Bytes (cs : List Char) : List UInt8 :=
  cs.flatMap String.utf8EncodeChar

@[simp] theorem utf8Bytes_nil : utf8Bytes [] = [] := rfl

@[simp] theorem utf8Bytes_cons (c : Char) (cs : List Char) :
    utf8Bytes (c :: cs) = String.utf8EncodeChar c ++ utf8Bytes cs := rfl

@[simp] theorem utf8Bytes_append (a b : List Char) :
    utf8Bytes (a ++ b) = utf8Bytes a ++ utf8Bytes b :=
  List.flatMap_append

@[simp] theorem length_utf8Bytes (cs : List Char) : (utf8Bytes cs).length = byteSize cs := by
  induction cs with
  | nil => rfl
  | cons c cs ih => simp [ih]

-- ── first bytes ──────────────────────────────────────────────────────────────────

/-- Where a first byte stands, a character begins. -/
theorem isBoundary_of_firstByte {byte : UInt8} (h : (utf8Bytes cs)[o]? = some byte)
    (hb : byte.IsUTF8FirstByte) : IsBoundary o cs := by
  induction cs generalizing o with
  | nil => exact nomatch h
  | cons c cs ih =>
      rw [utf8Bytes_cons] at h
      rcases Nat.lt_or_ge o (String.utf8EncodeChar c).length with hlt | hge
      · rw [List.getElem?_append_left hlt, List.getElem?_eq_getElem hlt] at h
        obtain rfl := Option.some.inj h
        obtain rfl : o = 0 := UInt8.isUTF8FirstByte_getElem_utf8EncodeChar.mp hb
        exact isBoundary_iff.mpr ⟨[], c :: cs, rfl, rfl⟩
      · rw [List.getElem?_append_right hge] at h
        obtain ⟨x, y, rfl, hx⟩ := isBoundary_iff.mp (ih h)
        refine isBoundary_iff.mpr ⟨c :: x, y, rfl, ?_⟩
        rw [String.length_utf8EncodeChar] at hge hx
        rw [byteSize_cons, hx]
        omega

/-- The bytes of a text that is not empty begin with a first byte. -/
theorem exists_firstByte (h : cs ≠ []) :
    ∃ byte tail, utf8Bytes cs = byte :: tail ∧ byte.IsUTF8FirstByte := by
  obtain ⟨c, rest, rfl⟩ := List.exists_cons_of_ne_nil h
  obtain ⟨byte, tail, hbytes⟩ :=
    List.exists_cons_of_ne_nil (String.utf8EncodeChar_ne_nil (c := c))
  refine ⟨byte, tail ++ utf8Bytes rest, by rw [utf8Bytes_cons, hbytes]; rfl, ?_⟩
  have hfirst := UInt8.isUTF8FirstByte_getElem_zero_utf8EncodeChar (c := c)
  simpa only [hbytes, List.getElem_cons_zero] using hfirst

-- ── prefixes ─────────────────────────────────────────────────────────────────────

/-- The first character is read off the bytes, whatever follows. -/
theorem char_eq_of_bytes_eq {c c' : Char} {u v : List UInt8}
    (h : String.utf8EncodeChar c ++ u = String.utf8EncodeChar c' ++ v) : c = c' := by
  have hdecode : ∀ (c : Char) (u : List UInt8),
      ((String.utf8EncodeChar c ++ u).toByteArray).utf8DecodeChar? 0 = some c := by
    intro c u
    rw [List.toByteArray_append]
    exact ByteArray.utf8DecodeChar?_utf8EncodeChar_append
  have hleft := hdecode c u
  rw [h, hdecode c' v] at hleft
  exact (Option.some.inj hleft).symm

/-- The bytes of a text begin with those of its prefixes alone. -/
theorem utf8Bytes_prefix_iff : utf8Bytes a <+: utf8Bytes b ↔ a <+: b := by
  constructor
  · intro h
    induction a generalizing b with
    | nil => exact List.nil_prefix
    | cons c a ih =>
        obtain ⟨tail, htail⟩ := h
        rw [utf8Bytes_cons, List.append_assoc] at htail
        cases b with
        | nil => exact absurd (List.append_eq_nil_iff.mp htail).1 String.utf8EncodeChar_ne_nil
        | cons c' b =>
            rw [utf8Bytes_cons] at htail
            obtain rfl := char_eq_of_bytes_eq htail
            exact List.cons_prefix_cons.mpr ⟨rfl, ih ⟨tail, List.append_cancel_left htail⟩⟩
  · rintro ⟨tail, rfl⟩
    rw [utf8Bytes_append]
    exact List.prefix_append _ _

/-- From a boundary on, the bytes are those of the text from there on. -/
theorem drop_utf8Bytes (h : IsBoundary o cs) :
    (utf8Bytes cs).drop o = utf8Bytes (dropBytes o cs) := by
  obtain ⟨x, y, rfl, rfl⟩ := isBoundary_iff.mp h
  rw [dropBytes_byteSize, utf8Bytes_append, ← length_utf8Bytes, List.drop_left]

-- ── occurrences ──────────────────────────────────────────────────────────────────

/-- The places of a pattern are those of its bytes. -/
theorem Document.occursAt_iff_bytes {d : Document} {pattern : List Char} (hne : pattern ≠ []) :
    d.OccursAt pattern o ↔ utf8Bytes pattern <+: (utf8Bytes d.chars).drop o := by
  constructor
  · rintro ⟨hb, hp⟩
    rw [drop_utf8Bytes hb]
    exact utf8Bytes_prefix_iff.mpr hp
  · intro h
    have hb : IsBoundary o d.chars := by
      obtain ⟨byte, tail, hbytes, hfirst⟩ := exists_firstByte hne
      obtain ⟨rest, hrest⟩ := h
      have hget : (utf8Bytes d.chars)[o]? = some byte := by
        rw [← List.head?_drop, ← hrest, hbytes]
        rfl
      exact isBoundary_of_firstByte hget hfirst
    rw [drop_utf8Bytes hb] at h
    exact ⟨hb, utf8Bytes_prefix_iff.mp h⟩

/-- The places of a character of one byte are those of that byte. -/
theorem Document.occursAt_byte_iff {d : Document} {c : Char} {byte : UInt8}
    (hc : utf8Bytes [c] = [byte]) : d.OccursAt [c] o ↔ (utf8Bytes d.chars)[o]? = some byte := by
  rw [Document.occursAt_iff_bytes (List.cons_ne_nil c []), hc, ← List.head?_drop]
  cases (utf8Bytes d.chars).drop o with
  | nil => simp
  | cons b bs => simp [eq_comm]

end TemplateScan.Text
