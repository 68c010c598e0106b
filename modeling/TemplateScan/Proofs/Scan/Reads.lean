import TemplateScan.Proofs.Text.Lines
import TemplateScan.Proofs.Scan.Clear

/-! # Reads — the slices of a document that a step looks at

    A step looks at its document in slices, whose ends are byte offsets computed from the cursor:
    one byte after a quote, two bytes after a bracket and a slash, one byte before the close
    delimiter when a dash stands there.  The machine works on the characters of these slices, and
    never on an offset inside one.  `Reads` lists them: the condition under which each is taken, and
    its text in the words of the function that works on it.  The functions that take them, written
    with these slices, are those of `Machine.Cuts`.

    * **`slice?_of_reads`** — each of them is a slice of the document, and is that text. -/

namespace TemplateScan

open Text

/-- A slice that a step at the reader may look at, from its start to its stop, and its text. -/
inductive Reads (r : Reader) : (start stop : Nat) → (text : List Char) → Prop where
  /-- The text before the cursor. -/
  | behind : Reads r 0 r.offset r.behind.reverse
  /-- The token. -/
  | token : Reads r r.start r.offset r.token
  /-- What follows a text that comes next: a word in `startsWithWord`, a dash in `spacedDash?`, a
      bracket, or a bracket and a slash, in `stepMarkupText`. -/
  | after {w} (h : w <+: r.rest) :
      Reads r (r.offset + byteSize w) r.document.size (r.rest.drop w.length)
  /-- A run of characters there: a name in `identifier?`, of an element in `stepMarkupText`, the
      spaces in `spacedDash?`, a value in `bareValue`. -/
  | run {w} (p : Char → Bool) (h : w <+: r.rest) :
      Reads r (r.offset + byteSize w)
        (r.offset + byteSize w + byteSize ((r.rest.drop w.length).takeWhile p))
        ((r.rest.drop w.length).takeWhile p)
  /-- The part of a string in which `quoted?` looks for the closing quote. -/
  | string {quote tail} (stops : List (List Char)) (h : r.rest = quote :: tail)
      (hq : isQuote quote = true) :
      Reads r (r.offset + 1)
        (match earliest? stops tail with
          | some k => r.offset + 1 + byteSize (tail.take k)
          | none => r.document.size)
        (beforeStops stops tail)
  /-- A key without its quotes, which `stepKey` looks up. -/
  | key {stops quote body} (h : quoted? stops r.rest = some (.closed quote body)) :
      Reads r (r.offset + 1) (r.offset + byteSize (Quoted.closed quote body).text - 1) body
  /-- A range without its parentheses, which `stepRange` checks. -/
  | range {stops i} (hh : r.rest.head? = some '(')
      (h : indexBefore? [')'] stops r.rest = some i) :
      Reads r (r.offset + 1) (r.offset + byteSize (r.rest.take (i + 1)) - 1)
        ((r.rest.take i).drop 1)
  /-- The text up to the close delimiter, or up to a dash before it, where `tagEnd?` finds the end
      of the tag. -/
  | tagEnd {form : TagForm} {k} (h : indexBefore? form.closer openers r.rest = some k) :
      Reads r r.offset
        (if 0 < k ∧ r.rest[k - 1]? = some '-' then r.offsetAt k - 1 else r.offsetAt k)
        (r.rest.take (beforeDash r.rest k))
  /-- What follows an open delimiter further on, in `startsEndTag`. -/
  | opener {n} (h : TagForm.opener .statement <+: r.rest.drop n) :
      Reads r (r.offsetAt n + 2) r.document.size (r.rest.drop (n + 2))
  /-- The part of its line before a place, whose length gives the column in `position`. -/
  | line {o} (h : IsBoundary o r.document.chars) :
      Reads r (r.document.lines.startOf (r.document.lines.lineAt o)) o
        (r.document.between (r.document.lines.startOf (r.document.lines.lineAt o)) o)

variable {r : Reader} {start stop : Nat} {text : List Char}

/-- A closed string ends with a quote, and its key is what stands between the quotes. -/
theorem slice?_key {stops : List (List Char)} {quote : Char} {body : List Char}
    (h : quoted? stops r.rest = some (.closed quote body)) :
    r.document.slice? (r.offset + 1) (r.offset + byteSize (Quoted.closed quote body).text - 1) =
      some body := by
  obtain ⟨c, tail, hr, hq, hpre, -, -⟩ := quoted?_eq_some h
  rw [hr, Quoted.text, List.cons_append] at hpre
  obtain ⟨rfl, htail⟩ := List.cons_prefix_cons.mp hpre
  have hsize := utf8Size_of_isQuote hq
  have hstop : r.offset + byteSize (Quoted.closed quote body).text - 1 =
      r.offsetAt 1 + byteSize body := by
    rw [Reader.offsetAt_one hr hsize, Quoted.text, List.cons_append, byteSize_cons, byteSize_append,
      byteSize_cons, byteSize_nil, hsize]
    omega
  rw [hstop, ← Reader.offsetAt_one hr hsize]
  refine Reader.slice?_of_prefix ?_
  rw [hr]
  exact (List.prefix_append body [quote]).trans htail

/-- A range ends with a parenthesis, and its bounds stand between the parentheses. -/
theorem slice?_range {stops : List (List Char)} {i : Nat} (hh : r.rest.head? = some '(')
    (h : indexBefore? [')'] stops r.rest = some i) :
    r.document.slice? (r.offset + 1) (r.offset + byteSize (r.rest.take (i + 1)) - 1) =
      some ((r.rest.take i).drop 1) := by
  obtain ⟨tail, hr⟩ := List.head?_eq_some_iff.mp hh
  obtain ⟨hat, -⟩ := indexOf?_eq_some_iff.mp (indexBefore?_eq_some_iff.mp h).1
  obtain ⟨tail', htail'⟩ := hat
  -- the closing parenthesis is not the opening one
  have hi : i ≠ 0 := by
    rintro rfl
    rw [hr] at htail'
    exact absurd (List.cons.inj htail').1 (by decide)
  obtain ⟨j, rfl⟩ := Nat.exists_eq_succ_of_ne_zero hi
  have htake : r.rest.take (j + 1 + 1) = '(' :: (tail.take j ++ [')']) := by
    rw [List.take_add, ← htail', hr]
    rfl
  have hstop : r.offset + byteSize (r.rest.take (j + 1 + 1)) - 1 =
      r.offsetAt 1 + byteSize (tail.take j) := by
    have hparen : '('.utf8Size = 1 ∧ ')'.utf8Size = 1 := by decide
    rw [Reader.offsetAt_one hr hparen.1, htake, byteSize_cons, byteSize_append, byteSize_cons,
      byteSize_nil, hparen.1, hparen.2]
    omega
  have hinner : (r.rest.take (j + 1)).drop 1 = tail.take j := by
    rw [hr]
    rfl
  rw [hstop, hinner, ← Reader.offsetAt_one hr (by decide)]
  refine Reader.slice?_of_prefix ?_
  rw [hr]
  exact List.take_prefix j tail

/-- A dash before the end of the tag has one byte. -/
theorem offsetAt_beforeDash (r : Reader) (k : Nat) :
    r.offsetAt (beforeDash r.rest k) =
      if 0 < k ∧ r.rest[k - 1]? = some '-' then r.offsetAt k - 1 else r.offsetAt k := by
  by_cases hdash : 0 < k ∧ r.rest[k - 1]? = some '-'
  · rw [beforeDash, if_pos hdash, if_pos hdash]
    obtain ⟨j, rfl⟩ := Nat.exists_eq_succ_of_ne_zero (Nat.ne_of_gt hdash.1)
    rw [Reader.offsetAt_succ (show r.rest[j]? = some '-' from hdash.2)]
    rfl
  · rw [beforeDash, if_neg hdash, if_neg hdash]

/-- The text up to the end of the tag ends one byte before the close delimiter if a dash stands
    there. -/
theorem slice?_tagEnd (r : Reader) (k : Nat) :
    r.document.slice? r.offset
        (if 0 < k ∧ r.rest[k - 1]? = some '-' then r.offsetAt k - 1 else r.offsetAt k) =
      some (r.rest.take (beforeDash r.rest k)) := by
  rw [← offsetAt_beforeDash]
  exact Reader.slice?_take r _

/-- Behind an open delimiter the text goes on two bytes later. -/
theorem slice?_opener {n : Nat} (h : TagForm.opener .statement <+: r.rest.drop n) :
    r.document.slice? (r.offsetAt n + 2) r.document.size = some (r.rest.drop (n + 2)) := by
  have htwo : r.offsetAt (n + 2) = r.offsetAt n + 2 := by
    have htake : (r.rest.drop n).take 2 = TagForm.opener .statement :=
      (List.prefix_iff_eq_take.mp h).symm
    rw [Reader.offsetAt_add, htake]
    rfl
  rw [← htwo]
  exact Reader.slice?_drop r (n + 2)

/-- What a step looks at is a slice of the document. -/
theorem slice?_of_reads (h : Reads r start stop text) :
    r.document.slice? start stop = some text := by
  have hprefix : ∀ {w v : List Char}, w <+: r.rest → v <+: r.rest.drop w.length →
      r.document.slice? (r.offset + byteSize w) (r.offset + byteSize w + byteSize v) = some v := by
    intro w v hw hv
    rw [← Reader.offsetAt_length hw]
    exact Reader.slice?_of_prefix hv
  cases h with
  | behind => exact Reader.slice?_behind r
  | token => exact Reader.slice?_token r
  | after hw =>
      rw [← Reader.offsetAt_length hw]
      exact Reader.slice?_drop r _
  | run p hw => exact hprefix hw (List.takeWhile_prefix p)
  | string stops hr hq => exact Reader.slice?_string stops hr hq
  | key hk => exact slice?_key hk
  | range hh hi => exact slice?_range hh hi
  | @tagEnd form k _ => exact slice?_tagEnd r k
  | opener hn => exact slice?_opener hn
  | line ho =>
      obtain ⟨-, -, hle, hb⟩ := r.document.lines.lineAt_spec _
      exact Document.slice?_eq_some hle hb ho

end TemplateScan
