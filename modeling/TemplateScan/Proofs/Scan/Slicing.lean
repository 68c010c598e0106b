import TemplateScan.Proofs.Scan.Reads
import TemplateScan.Proofs.Scan.TextStep
import TemplateScan.Proofs.Text.Bytes

/-! # Slicing — the functions of a step, as they cut the document

    The functions of a step are written on the characters that follow the cursor.  Those that look
    at a part of these characters are written here a second time, with that part cut out of the
    document by byte offsets: one byte behind a dash, two bytes behind an open delimiter, from one
    byte behind a quote to one byte before the next.  They have no answer when such an offset is no
    boundary, and yet they always have one, which is the answer of the function itself.

    The others compare the text at the cursor with a fixed text, search it for one, or count its
    characters; they cut nothing but what these cut for them.

    * **`Machine.Cuts`** — the equations, one for each function that cuts.
    * **`Machine.cuts`** — they hold wherever the cursor is. -/

namespace TemplateScan

open Text

-- ── words, names and strings ─────────────────────────────────────────────────────

namespace Text.Reader

variable {r : Reader}

/-- What stands some bytes behind the cursor. -/
def after? (r : Reader) (bytes : Nat) : Option (List Char) :=
  r.document.slice? (r.offset + bytes) r.document.size

/-- The text begins with a word: the character behind it is looked at. -/
def word? (r : Reader) (word : List Char) : Option Bool :=
  if r.isNext word then (r.after? (byteSize word)).map fun tail => !continuesIdentifier tail
  else some false

/-- The name that stands some bytes behind the cursor. -/
def name? (r : Reader) (bytes : Nat) : Option (Option (List Char)) := do
  let text ← r.after? bytes
  if startsIdentifier text then
    let start := r.offset + bytes
    let name ← r.document.slice? start (start + byteSize (text.takeWhile isIdentifierChar))
    some (some name)
  else some none

/-- The key in a closed string of so many bytes: what its token holds between its first byte and
    its last. -/
def key? (r : Reader) (bytes : Nat) : Option (List Char) := do
  let token ← r.document.slice? r.offset (r.offset + 1 + bytes + 1)
  r.document.slice? (r.offset + 1) (r.offset + byteSize token - 1)

/-- The string at the cursor: its closing quote is looked for up to the first stop. -/
def string? (r : Reader) (stops : List (List Char)) : Option (Option Quoted) :=
  match r.rest with
  | [] => some none
  | quote :: _ =>
      if isQuote quote then do
        let tail ← r.after? 1
        let limit := match earliest? stops tail with
          | some k => r.offset + 1 + byteSize (tail.take k)
          | none => r.document.size
        let body ← r.document.slice? (r.offset + 1) limit
        if body.contains quote then
          let key ← r.key? (byteSize (body.takeWhile (· != quote)))
          some (some (.closed quote key))
        else some (some (.unclosed quote body))
      else some none

/-- What follows a text that comes next is cut out. -/
theorem after?_eq {w tail : List Char} (h : r.rest = w ++ tail) :
    r.after? (byteSize w) = some tail := by
  have hslice := slice?_of_reads (.after (r := r) (h ▸ List.prefix_append w tail))
  rwa [h, List.drop_left] at hslice

-- the first byte of two is not the end of a character
example : (Reader.ofString "é").after? 1 = none := by decide

/-- A first character of one byte is cut off. -/
theorem after?_one {c : Char} {tail : List Char} (h : r.rest = c :: tail)
    (hc : c.utf8Size = 1) : r.after? 1 = some tail := by
  have hone := after?_eq (w := [c]) h
  rwa [byteSize_cons, byteSize_nil, hc] at hone

/-- Whether a word ends can be looked at. -/
theorem word?_eq (r : Reader) (word : List Char) :
    r.word? word = some (startsWithWord word r.rest) := by
  rw [word?, startsWithWord, isNext]
  cases h : word.isPrefixOf r.rest with
  | false => rfl
  | true =>
      obtain ⟨tail, hr⟩ := List.isPrefixOf_iff_prefix.mp h
      rw [if_pos rfl, after?_eq hr.symm, ← hr, List.drop_left]
      rfl

/-- A name behind a text that comes next can be cut out. -/
theorem name?_eq {w tail : List Char} (h : r.rest = w ++ tail) :
    r.name? (byteSize w) = some (identifier? tail) := by
  rw [name?, after?_eq h, Option.bind_eq_bind, Option.bind_some, identifier?]
  split
  · have hrun := slice?_of_reads
      (.run (r := r) isIdentifierChar (h ▸ List.prefix_append w tail))
    rw [h, List.drop_left] at hrun
    dsimp only
    rw [hrun]
    rfl
  · rfl

/-- The key of a closed string can be cut out. -/
theorem key?_eq {stops : List (List Char)} {quote : Char} {body : List Char}
    (h : quoted? stops r.rest = some (.closed quote body)) :
    r.key? (byteSize body) = some body := by
  obtain ⟨c, tail, hr, hq, hpre, -, -⟩ := quoted?_eq_some h
  have hquote : quote.utf8Size = 1 := by
    rw [hr, Quoted.text, List.cons_append] at hpre
    rw [(List.cons_prefix_cons.mp hpre).1]
    exact utf8Size_of_isQuote hq
  have hsize : byteSize (Quoted.closed quote body).text = 1 + byteSize body + 1 := by
    rw [Quoted.text, List.cons_append, byteSize_cons, byteSize_append, byteSize_cons,
      byteSize_nil, hquote]
    omega
  have htoken := slice?_of_prefix (r := r) (n := 0) hpre
  rw [offsetAt_zero, hsize] at htoken
  rw [key?, show r.offset + 1 + byteSize body + 1 = r.offset + (1 + byteSize body + 1) by omega,
    htoken, Option.bind_eq_bind, Option.bind_some]
  exact slice?_of_reads (.key h)

/-- A string can be cut out. -/
theorem string?_eq (r : Reader) (stops : List (List Char)) :
    r.string? stops = some (quoted? stops r.rest) := by
  rw [string?]
  cases hr : r.rest with
  | nil => rfl
  | cons quote tail =>
      cases hq : isQuote quote with
      | false => simp [quoted?, hq]
      | true =>
          have hbody := slice?_of_reads (.string stops hr hq)
          dsimp only
          rw [if_pos hq, after?_one hr (utf8Size_of_isQuote hq), Option.bind_eq_bind,
            Option.bind_some]
          refine (congrArg (Option.bind · _) hbody).trans ?_
          rw [Option.bind_some]
          cases hc : (beforeStops stops tail).contains quote with
          | false =>
              rw [if_neg Bool.false_ne_true, quoted?, if_pos hq]
              exact congrArg some (if_neg (by rw [hc]; decide)).symm
          | true =>
              have hclosed : quoted? stops (quote :: tail) =
                  some (.closed quote ((beforeStops stops tail).takeWhile (· != quote))) := by
                rw [quoted?, if_pos hq]
                exact if_pos hc
              rw [if_pos rfl, hclosed, key?_eq (by rw [hr]; exact hclosed)]
              rfl

end Text.Reader

-- ── values, colons and delimiters ────────────────────────────────────────────────

namespace Text.Reader

variable {r : Reader}

/-- The value without quotes at the cursor: a run is cut out, and of that run what comes before the
    first open delimiter. -/
def bareValue? (r : Reader) : Option (List Char) := do
  let run := r.rest.takeWhile fun c => !isBlank c && c != '>'
  let run ← r.document.slice? r.offset (r.offset + byteSize run)
  r.document.slice? r.offset (r.offset + byteSize (beforeStops openers run))

/-- A colon stands before the cursor, perhaps with blanks behind it: the text before the cursor is
    cut out. -/
def afterColon? (r : Reader) : Option Bool :=
  (r.document.slice? 0 r.offset).map fun text => (trimEnd text).getLast? == some ':'

/-- A dash and the spaces between it and the close delimiter: what follows the dash is cut out. -/
def spacedDash? (r : Reader) (form : TagForm) : Option (Option Nat) :=
  match r.rest with
  | '-' :: _ => (r.after? 1).map fun tail =>
      let spaces := tail.takeWhile isSpacing
      if !spaces.isEmpty && form.closer.isPrefixOf (afterSpacing tail) then
        some (1 + spaces.length)
      else none
  | _ => some none

/-- The end tag of a body stands some characters further on: what follows its open delimiter is cut
    out. -/
def startsEndTag? (r : Reader) (name : List Char) (n : Nat) : Option Bool :=
  let opener := TagForm.opener .statement
  if opener.isPrefixOf (r.rest.drop n) then
    (r.document.slice? (r.offsetAt n + opener.length) r.document.size).map fun tail =>
      startsWithWord ("end".toList ++ name) (trimStart (tail.dropWhile (· == '-')))
  else some false

/-- The offset where the tag ends: the byte before the close delimiter is compared with a dash. -/
def tagEnd? (r : Reader) (form : TagForm) : Option (Option Nat) :=
  match r.find? form.closer openers with
  | none => some none
  | some stop =>
      if r.offset < stop then
        (utf8Bytes r.document.chars)[stop - 1]?.map fun byte =>
          some (if byte = 0x2D then stop - 1 else stop)
      else some (some stop)

/-- A value without quotes can be cut out. -/
theorem bareValue?_eq (r : Reader) : r.bareValue? = some (Machine.bareValue r.rest) := by
  have hprefix : ∀ {w : List Char}, w <+: r.rest →
      r.document.slice? r.offset (r.offset + byteSize w) = some w := by
    intro w hw
    have hslice := slice?_of_prefix (r := r) (n := 0) hw
    rwa [offsetAt_zero] at hslice
  have hrun := List.takeWhile_prefix (l := r.rest) fun c => !isBlank c && c != '>'
  rw [bareValue?, hprefix hrun, Option.bind_eq_bind, Option.bind_some]
  exact hprefix ((List.take_prefix _ _).trans hrun)

/-- The text before the cursor can be cut out. -/
theorem afterColon?_eq (r : Reader) : r.afterColon? = some (Machine.afterColon r) := by
  rw [afterColon?, slice?_behind r, Option.map_some, trimEnd, List.reverse_reverse,
    List.getLast?_reverse]
  rfl

/-- What follows a dash can be cut out. -/
theorem spacedDash?_eq (r : Reader) (form : TagForm) :
    r.spacedDash? form = some (Machine.spacedDash? form r.rest) := by
  rw [spacedDash?]
  cases hr : r.rest with
  | nil => rfl
  | cons c tail =>
      by_cases hc : c = '-'
      · subst hc
        dsimp only
        rw [after?_one hr (by decide)]
        rfl
      · simp [Machine.spacedDash?, hc]

/-- What follows an open delimiter can be cut out. -/
theorem startsEndTag?_eq (r : Reader) (name : List Char) (n : Nat) :
    r.startsEndTag? name n = some (Machine.startsEndTag name (r.rest.drop n)) := by
  rw [startsEndTag?, Machine.startsEndTag]
  cases h : (TagForm.opener .statement).isPrefixOf (r.rest.drop n) with
  | false => rfl
  | true =>
      have hafter := slice?_of_reads (.opener (List.isPrefixOf_iff_prefix.mp h))
      rw [if_pos rfl, Bool.true_and, List.drop_drop]
      exact congrArg (Option.map _) hafter

/-- The byte before a place behind the cursor is a dash exactly if the character is one. -/
theorem dashByte_iff {k : Nat} (hk : k ≤ r.rest.length) (hlt : r.offset < r.offsetAt k) :
    (utf8Bytes r.document.chars)[r.offsetAt k - 1]? = some 0x2D ↔
      0 < k ∧ r.rest[k - 1]? = some '-' := by
  rw [← Document.occursAt_byte_iff (c := '-') (by decide)]
  constructor
  · intro hocc
    obtain ⟨n, hn, hdash⟩ := occursAt_char_iff.mp ⟨hocc, Nat.le_sub_one_of_lt hlt⟩
    obtain ⟨hlen, -⟩ := List.getElem?_eq_some_iff.mp hdash
    have hsucc : r.offsetAt (n + 1) = r.offsetAt n + 1 := offsetAt_succ hdash
    obtain rfl := eq_of_offsetAt_eq (i := n + 1) hlen hk (by omega)
    exact ⟨Nat.succ_pos n, hdash⟩
  · rintro ⟨hpos, hdash⟩
    obtain ⟨j, rfl⟩ := Nat.exists_eq_succ_of_ne_zero (Nat.ne_of_gt hpos)
    refine (occursAt_char_iff.mpr ⟨j, ?_, hdash⟩).1
    rw [offsetAt_succ (show r.rest[j]? = some '-' from hdash)]
    rfl

/-- The byte before the close delimiter can be looked at. -/
theorem tagEnd?_eq (r : Reader) (form : TagForm) :
    r.tagEnd? form = some ((TemplateScan.tagEnd? form r.rest).map r.offsetAt) := by
  rw [tagEnd?, find?, TemplateScan.tagEnd?]
  cases h : indexBefore? form.closer openers r.rest with
  | none => rfl
  | some k =>
      obtain ⟨hfind, -⟩ := indexBefore?_eq_some_iff.mp h
      have hk : k ≤ r.rest.length := by
        have hlen := indexOf?_add_length_le hfind
        omega
      simp only [Option.map_some, offsetAt_beforeDash]
      by_cases hlt : r.offset < r.offsetAt k
      · have hsize := r.offsetAt_le_size k
        have hin : r.offsetAt k - 1 < (utf8Bytes r.document.chars).length := by
          rw [length_utf8Bytes]
          exact Nat.lt_of_lt_of_le (by omega) hsize
        have hdash := dashByte_iff hk hlt
        rw [List.getElem?_eq_getElem hin, Option.some_inj] at hdash
        rw [if_pos hlt, List.getElem?_eq_getElem hin, Option.map_some, if_congr hdash rfl rfl]
      · obtain rfl : k = 0 := by
          refine Nat.eq_zero_of_not_pos fun hpos => hlt ?_
          rw [← r.offsetAt_zero]
          exact offsetAt_lt hpos hk
        rw [if_neg hlt, if_neg fun h => absurd h.1 (Nat.lt_irrefl 0)]

end Text.Reader

-- ── positions ────────────────────────────────────────────────────────────────────

/-- The line and column of an offset: the part of its line before it is cut out. -/
def Text.Document.linePosition? (d : Document) (offset : Nat) : Option Position :=
  let line := d.lines.lineAt offset
  (d.slice? (d.lines.startOf line) offset).map fun text => ⟨line, text.length + 1⟩

/-- The part of its line before a boundary can be cut out. -/
theorem Text.Document.linePosition?_eq {r : Reader} {offset : Nat}
    (h : IsBoundary offset r.document.chars) :
    r.document.linePosition? offset = some (r.document.position offset) := by
  have hmin : min offset r.document.size = offset :=
    Nat.min_eq_left (le_byteSize_of_isBoundary h)
  rw [linePosition?, position, hmin, slice?_of_reads (.line h)]
  rfl

-- ── steps ────────────────────────────────────────────────────────────────────────

namespace Machine

variable {γ : Type} [Grammar γ]

/-- One step before the close delimiter: the text behind a dash is cut out, and the token up to the
    end of the tag. -/
def close? (m : Machine γ) (ending : Bool) (r : Reader) : Option (Reply γ) := do
  let closer := m.tag.form.closer
  if !m.brackets.isEmpty then
    some ({ m with brackets := m.brackets.pop }.reportHere .missingBracket (.close ending))
  else if r.isNext ('-' :: closer) then some (m.emit .trimRight 1 (.close ending))
  else match ← r.spacedDash? m.tag.form with
  | some n => some (m.report .blankAfterTrim n (.close ending))
  | none =>
    if r.isNext closer then
      some (m.leaveTag.emit (if ending then .endDelimiter else .closeDelimiter) closer.length
        .literal)
    else match tagEnd? m.tag.form r.rest with
    | some n => do
        let token ← r.document.slice? r.offset (r.offsetAt n)
        let fault := if (trimEnd token).length = 1 then .invalidCharacter else .invalidCharacters
        some (m.report fault n (.close ending))
    | none => some (m.leaveTag.reportHere .missingClose .literal)

/-- What comes next is out of place: the token up to the end of the tag is cut out. -/
def unexpected? (m : Machine γ) (r : Reader) : Option (Reply γ) :=
  match tagEnd? m.tag.form r.rest with
  | none => m.close? false r
  | some n => do
      let token ← r.document.slice? r.offset (r.offsetAt n)
      some (m.recover (if 1 < (trimEnd token).length then .invalidCharacters
        else .invalidCharacter) r.rest)

/-- One step over a collection that begins with a parenthesis: the token is cut out, and of it what
    stands between the parentheses. -/
def stepRange? (m : Machine γ) (r : Reader) : Option (Reply γ) :=
  match indexBefore? [')'] m.tag.form.stringStops r.rest with
  | some i => do
      let token ← r.document.slice? r.offset (r.offsetAt (i + 1))
      let inner ← r.document.slice? (r.offset + 1) (r.offset + byteSize token - 1)
      some (if isRange (trim inner) then m.emit .collection (i + 1) (.loop .parameter)
        else m.report .invalidCharacters (i + 1) (.loop .parameter))
  | none => some (m.recover .missingCollection r.rest)

/-- One step over text in which HTML elements are tracked: the name is cut out behind a bracket and
    a slash, or behind a bracket. -/
def stepMarkupText? (m : Machine γ) (r : Reader) : Option (Reply γ) :=
  if r.isNext ['<', '/'] then
    (r.name? 2).map fun name? => match name? with
      | some name => m.stepEndElement name
      | none => m.passText r.rest
  else if r.isNext ['<'] then
    (r.name? 1).map fun name? => match name? with
      | some name => m.stepElement name r
      | none => m.passText r.rest
  else some (m.passText r.rest)

/-- The cuts of a step before the close delimiter are made. -/
theorem close?_eq (m : Machine γ) (ending : Bool) (r : Reader) :
    m.close? ending r = some (m.close ending r.rest) := by
  rw [close?, close, Reader.spacedDash?_eq, Reader.isNext, Reader.isNext]
  dsimp only
  split
  · rfl
  · split
    · rfl
    · rw [Option.bind_eq_bind, Option.bind_some]
      cases spacedDash? m.tag.form r.rest with
      | some n => rfl
      | none =>
          dsimp only
          split
          · rfl
          · cases tagEnd? m.tag.form r.rest with
            | none => rfl
            | some n =>
                dsimp only
                rw [Reader.slice?_take]
                rfl

/-- The cuts of a step over what is out of place are made. -/
theorem unexpected?_eq (m : Machine γ) (r : Reader) :
    m.unexpected? r = some (m.unexpected r.rest) := by
  rw [unexpected?, unexpected]
  cases tagEnd? m.tag.form r.rest with
  | none => exact m.close?_eq false r
  | some n =>
      dsimp only
      rw [Reader.slice?_take]
      rfl

omit [Grammar γ] in
/-- The cuts of a step over a range are made. -/
theorem stepRange?_eq (m : Machine γ) {r : Reader} (hh : r.rest.head? = some '(') :
    m.stepRange? r = some (m.stepRange r.rest) := by
  rw [stepRange?, stepRange]
  cases hi : indexBefore? [')'] m.tag.form.stringStops r.rest with
  | none => rfl
  | some i =>
      dsimp only
      rw [Reader.slice?_take, Option.bind_eq_bind, Option.bind_some,
        slice?_of_reads (.range hh hi), Option.bind_some]

/-- The cuts of a step over text with elements are made. -/
theorem stepMarkupText?_eq (m : Machine γ) (r : Reader) :
    m.stepMarkupText? r = some (m.stepMarkupText r) := by
  rw [stepMarkupText?]
  by_cases hslash : r.isNext ['<', '/'] = true
  · obtain ⟨tail, hr⟩ := List.isPrefixOf_iff_prefix.mp hslash
    have hrest : r.rest = '<' :: '/' :: tail := hr.symm
    have hname : r.name? 2 = some (identifier? tail) := Reader.name?_eq (w := ['<', '/']) hrest
    rw [if_pos hslash, hname, Option.map_some]
    exact congrArg some (stepMarkupText_endElement hrest).symm
  · rw [if_neg hslash]
    by_cases hbracket : r.isNext ['<'] = true
    · obtain ⟨tail, hr⟩ := List.isPrefixOf_iff_prefix.mp hbracket
      have hrest : r.rest = '<' :: tail := hr.symm
      have hname : r.name? 1 = some (identifier? tail) := Reader.name?_eq (w := ['<']) hrest
      have hne : tail.head? ≠ some '/' := by
        intro hhead
        obtain ⟨tail, rfl⟩ := List.head?_eq_some_iff.mp hhead
        exact hslash (List.isPrefixOf_iff_prefix.mpr ⟨tail, hr⟩)
      rw [if_pos hbracket, hname, Option.map_some]
      exact congrArg some (stepMarkupText_element hrest hne).symm
    · have hhead : r.rest.head? ≠ some '<' := by
        intro hhead
        obtain ⟨tail, hr⟩ := List.head?_eq_some_iff.mp hhead
        exact hbracket (List.isPrefixOf_iff_prefix.mpr ⟨tail, hr.symm⟩)
      rw [if_neg hbracket, stepMarkupText_of_ne hhead]

/-- What the functions of a step answer when they cut the document is what they answer. -/
structure Cuts (m : Machine γ) (r : Reader) : Prop where
  /-- The operators, the truth values and the words of a loop. -/
  word : ∀ word, r.word? word = some (startsWithWord word r.rest)
  /-- The names, at the cursor or behind a bracket. -/
  name : ∀ w tail, r.rest = w ++ tail → r.name? (byteSize w) = some (identifier? tail)
  /-- The strings, and the keys in brackets. -/
  string : ∀ stops, r.string? stops = some (quoted? stops r.rest)
  /-- The values of attributes. -/
  bareValue : r.bareValue? = some (Machine.bareValue r.rest)
  /-- The values of parameters. -/
  afterColon : r.afterColon? = some (Machine.afterColon r)
  /-- The dash that blanks separate from the close delimiter. -/
  spacedDash : ∀ form, r.spacedDash? form = some (spacedDash? form r.rest)
  /-- The end tags of bodies. -/
  endTag : ∀ name n, r.startsEndTag? name n = some (startsEndTag name (r.rest.drop n))
  /-- The end of the tag. -/
  tagEnd : ∀ form, r.tagEnd? form = some ((tagEnd? form r.rest).map r.offsetAt)
  /-- The positions in spans. -/
  position : ∀ offset, IsBoundary offset r.document.chars →
    r.document.linePosition? offset = some (r.document.position offset)
  /-- The step before the close delimiter. -/
  close : ∀ ending, m.close? ending r = some (m.close ending r.rest)
  /-- The step over what is out of place. -/
  unexpected : m.unexpected? r = some (m.unexpected r.rest)
  /-- The step over a range. -/
  range : r.rest.head? = some '(' → m.stepRange? r = some (m.stepRange r.rest)
  /-- The step over text with elements. -/
  markupText : m.stepMarkupText? r = some (m.stepMarkupText r)

/-- **Cuts.**  Every function of a step that cuts the document can make its cuts, at any cursor, and
    then answers as it does on the characters that follow the cursor. -/
theorem cuts (m : Machine γ) (r : Reader) : m.Cuts r where
  word := r.word?_eq
  name _ _ h := Reader.name?_eq h
  string := r.string?_eq
  bareValue := r.bareValue?_eq
  afterColon := r.afterColon?_eq
  spacedDash := r.spacedDash?_eq
  endTag := r.startsEndTag?_eq
  tagEnd := r.tagEnd?_eq
  position _ := Document.linePosition?_eq
  close ending := m.close?_eq ending r
  unexpected := m.unexpected?_eq r
  range := m.stepRange?_eq
  markupText := m.stepMarkupText?_eq r

end Machine

end TemplateScan
