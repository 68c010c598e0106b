import TemplateScan.Proofs.Text.Cuts
import TemplateScan.Proofs.Text.Positions

/-! # Frames — a place of a document inside a longer one

    A document may be part of a longer one, with more text before and behind it.  A reader of the
    longer document is framed by that text when it holds the same token at the same place of the
    part.  Offsets differ by the size of the text before, and stay so whatever moves are made.

    * **`Reader.Framed`** — the same token, with more text before and behind it.
    * **`Span.moveTo`** — a span of the part as a span of the longer document.
    * **`Reader.Framed.span`** — a framed token has the span that is moved. -/

namespace TemplateScan.Text

/-- The region that lies `k` bytes further on in another document. -/
def Span.moveTo (d : Document) (k : Nat) (s : Span) : Span :=
  d.spanOf (s.start + k) (s.stop + k)

namespace Reader

/-- The reader `r'` is where `r` is, with `front` before and `back` behind the document. -/
structure Framed (front back : List Char) (r r' : Reader) : Prop where
  before : r'.before = r.before ++ front.reverse
  token : r'.token = r.token
  rest : r'.rest = r.rest ++ back

namespace Framed

variable {front back : List Char} {r r' : Reader} {n : Nat}

/-- Behind the cursor stands the front, too. -/
theorem behind (h : r.Framed front back r') : r'.behind = r.behind ++ front.reverse := by
  rw [Reader.behind, Reader.behind, h.token, h.before, List.append_assoc]

/-- The token starts as many bytes later as the front has. -/
theorem start (h : r.Framed front back r') : r'.start = r.start + byteSize front := by
  rw [Reader.start, Reader.start, h.before, byteSize_append, byteSize_reverse]

/-- The cursor is as many bytes later as the front has. -/
theorem offset (h : r.Framed front back r') : r'.offset = r.offset + byteSize front := by
  rw [← byteSize_behind, ← byteSize_behind, h.behind, List.reverse_append, List.reverse_reverse,
    byteSize_append, Nat.add_comm]

/-- What is taken from the part is taken from the longer document, too. -/
theorem take_rest (h : r.Framed front back r') (hn : n ≤ r.rest.length) :
    r'.rest.take n = r.rest.take n := by
  rw [h.rest, List.take_append_of_le_length hn]

/-- So are the places after the cursor, as long as they are in the part. -/
theorem offsetAt (h : r.Framed front back r') (hn : n ≤ r.rest.length) :
    r'.offsetAt n = r.offsetAt n + byteSize front := by
  rw [Reader.offsetAt, Reader.offsetAt, h.take_rest hn, h.offset]
  omega

/-- With nothing behind the part, both documents end together. -/
theorem atEnd (h : r.Framed front [] r') : r'.atEnd = r.atEnd := by
  rw [Reader.atEnd, Reader.atEnd, h.rest, List.append_nil]

/-- With nothing behind the part, the longer document is larger by the front. -/
theorem size (h : r.Framed front [] r') :
    r'.document.size = r.document.size + byteSize front := by
  rw [← offset_add_rest, ← offset_add_rest, h.offset, h.rest, List.append_nil]
  omega

theorem chars (h : r.Framed front back r') :
    r'.document.chars = front ++ (r.document.chars ++ back) := by
  rw [← behind_append_rest, ← behind_append_rest, h.behind, h.rest]
  simp

/-- The span of a framed token is that of the token, moved. -/
theorem span (h : r.Framed front back r') :
    r'.span = r.span.moveTo r'.document (byteSize front) := by
  rw [Reader.span, position, h.start, h.offset]
  rfl

/-- Nothing before the document moves its spans. -/
theorem span_eq (h : r.Framed [] back r') : r'.span = r.span := by
  have hstart := h.start
  have hoffset := h.offset
  have hbefore := h.before
  rw [byteSize_nil, Nat.add_zero] at hstart hoffset
  rw [List.reverse_nil, List.append_nil] at hbefore
  rw [Reader.span, Reader.span, position_eq, position_eq, hbefore, hstart, hoffset]

-- ── moves ────────────────────────────────────────────────────────────────────────

/-- A frame stays in place when a token begins. -/
theorem mark (h : r.Framed front back r') : r.mark.Framed front back r'.mark :=
  ⟨h.behind, rfl, h.rest⟩

/-- A capture within the part is the same in the frame. -/
theorem capture (h : r.Framed front back r') (hn : n ≤ r.rest.length) :
    (r.capture n).Framed front back (r'.capture n) := by
  refine ⟨h.behind, ?_, ?_⟩
  · rw [token_capture, token_capture, h.take_rest hn]
  · rw [rest_capture, rest_capture, h.rest, List.drop_append_of_le_length hn]

/-- A token that reaches back does so in the frame, at the offset that is moved. -/
theorem rewindStart (h : r.Framed front back r') (o : Nat) :
    (r.rewindStart o).Framed front back (r'.rewindStart (o + byteSize front)) := by
  have hsplit : splitAtByte (o + byteSize front) r'.behind.reverse =
      (front ++ (splitAtByte o r.behind.reverse).1, (splitAtByte o r.behind.reverse).2) := by
    rw [h.behind, List.reverse_append, List.reverse_reverse, Nat.add_comm, splitAtByte_add]
  refine ⟨?_, ?_, h.rest⟩
  · show (splitAtByte _ r'.behind.reverse).1.reverse = _
    rw [hsplit, List.reverse_append]
    rfl
  · show (splitAtByte _ r'.behind.reverse).2 = _
    rw [hsplit]
    rfl

end Framed

end Reader

end TemplateScan.Text
