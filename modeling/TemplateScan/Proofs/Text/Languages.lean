import TemplateScan.Proofs.Text.Bytes
import TemplateScan.Proofs.Text.Cuts
import TemplateScan.Proofs.Text.Literals

/-! # Languages — the literal readers read their languages, and no more

    A number is read exactly where the text begins with a word of the language `-?[0-9]+(.[0-9]+)?`,
    and it is the longest such word.  A string is read exactly where a quote comes next: up to the
    same quote if that comes before the first of the stops, and otherwise up to that stop, or to the
    end of the document.  A pattern is found at its first place, if no stop has a place before it.

    * **`IsNumeral`** — the language of numbers; **`number?_longest`** — no longer one is there.
    * **`Document.Limit`**, **`Reader.ReadsString`** — how far a string is looked at, and read.
    * **`Reader.find?_eq_some_iff`** — where a pattern is found.
    * **`Reader.literals_exact`** — all of them, at every cursor. -/

namespace TemplateScan.Text

variable {text w : List Char} {form : NumberForm}

-- ── the language of numbers ──────────────────────────────────────────────────────

/-- One decimal digit or more. -/
structure IsDigits (w : List Char) : Prop where
  ne_nil : w ≠ []
  isDigit : ∀ c ∈ w, c.isDigit = true

/-- A minus sign, or nothing. -/
def IsSign (w : List Char) : Prop :=
  w = [] ∨ w = ['-']

/-- The words `-?[0-9]+`, which are integers, and `-?[0-9]+.[0-9]+`, which are not. -/
inductive IsNumeral : NumberForm → List Char → Prop where
  | integer {sign digits : List Char} (hsign : IsSign sign) (hdigits : IsDigits digits) :
      IsNumeral .integer (sign ++ digits)
  | float {sign digits fraction : List Char} (hsign : IsSign sign) (hdigits : IsDigits digits)
      (hfraction : IsDigits fraction) : IsNumeral .float (sign ++ (digits ++ '.' :: fraction))

theorem IsDigits.append {a b : List Char} (ha : IsDigits a) (hb : ∀ c ∈ b, c.isDigit = true) :
    IsDigits (a ++ b) where
  ne_nil h := ha.ne_nil (List.append_eq_nil_iff.mp h).1
  isDigit := List.forall_mem_append.mpr ⟨ha.isDigit, hb⟩

theorem isDigits_takeWhile (h : text.takeWhile Char.isDigit ≠ []) :
    IsDigits (text.takeWhile Char.isDigit) :=
  ⟨h, List.all_eq_true.mp List.all_takeWhile⟩

/-- A number has a fraction exactly if there is a point in it. -/
theorem IsNumeral.float_iff (h : IsNumeral form w) : form = .float ↔ '.' ∈ w := by
  have hnot : ∀ {digits}, IsDigits digits → '.' ∉ digits := fun hd hmem =>
    absurd (hd.isDigit _ hmem) (by decide)
  cases h with
  | @integer sign digits hsign hdigits =>
      refine ⟨nofun, fun hmem => ?_⟩
      rcases List.mem_append.mp hmem with hmem | hmem
      · rcases hsign with rfl | rfl
        · exact nomatch hmem
        · exact absurd (List.mem_singleton.mp hmem) (by decide)
      · exact absurd hmem (hnot hdigits)
  | float => exact ⟨fun _ => by simp, fun _ => rfl⟩

-- ── numbers ──────────────────────────────────────────────────────────────────────

theorem isSign_signOf (text : List Char) : IsSign (signOf text) := by
  unfold signOf
  split
  · exact Or.inr rfl
  · exact Or.inl rfl

/-- A sign before digits is seen. -/
theorem signOf_of_isDigits {sign digits : List Char} (hsign : IsSign sign)
    (hdigits : IsDigits digits) (k : List Char) : signOf (sign ++ (digits ++ k)) = sign := by
  rcases hsign with rfl | rfl
  · obtain ⟨d, ds, rfl⟩ := List.exists_cons_of_ne_nil hdigits.ne_nil
    have hd := hdigits.isDigit d (List.mem_cons_self ..)
    rw [List.nil_append, List.cons_append]
    unfold signOf
    split
    · next heq =>
        obtain rfl := (List.cons.inj heq).1
        exact absurd hd (by decide)
    · rfl
  · rfl

/-- A fraction is nothing, or a point and digits. -/
theorem fractionOf_cases (text : List Char) :
    fractionOf text = [] ∨ ∃ digits, IsDigits digits ∧ fractionOf text = '.' :: digits := by
  unfold fractionOf
  split
  · next tail =>
      by_cases hd : tail.takeWhile Char.isDigit = []
      · simp only [hd, List.isEmpty_nil, if_true, true_or]
      · refine Or.inr ⟨_, isDigits_takeWhile hd, ?_⟩
        exact if_neg (by rwa [List.isEmpty_iff])
  · exact Or.inl rfl

/-- Digits behind a point are read to their end. -/
theorem fractionOf_point {digits : List Char} (h : IsDigits digits) (k : List Char) :
    fractionOf ('.' :: (digits ++ k)) = '.' :: (digits ++ k.takeWhile Char.isDigit) := by
  rw [fractionOf, List.takeWhile_append_of_pos h.isDigit]
  refine if_neg fun hnil => h.ne_nil ?_
  exact (List.append_eq_nil_iff.mp (List.isEmpty_iff.mp hnil)).1

/-- A number that begins with given digits, and has no more before its fraction. -/
theorem number?_of_isDigits {sign digits k : List Char} (hsign : IsSign sign)
    (hdigits : IsDigits digits) (hk : ∀ c, k.head? = some c → c.isDigit = false) :
    number? (sign ++ (digits ++ k)) =
      some (if (fractionOf k).isEmpty then .integer else .float,
        sign ++ digits ++ fractionOf k) := by
  obtain ⟨htake, hdrop⟩ := takeWhile_isDigit_append hdigits.isDigit hk
  simp only [number?, signOf_of_isDigits hsign hdigits, List.drop_left, htake, hdrop,
    List.isEmpty_iff, hdigits.ne_nil, if_false]

/-- What is read as a number is one. -/
theorem isNumeral_of_number? (h : number? text = some (form, w)) : IsNumeral form w := by
  simp only [number?, Option.ite_none_left_eq_some, Option.some.injEq, Prod.mk.injEq,
    List.isEmpty_iff] at h
  obtain ⟨hne, rfl, rfl⟩ := h
  have hsign := isSign_signOf text
  have hdigits := isDigits_takeWhile hne
  rcases fractionOf_cases ((text.drop (signOf text).length).dropWhile Char.isDigit) with
    hnil | ⟨fraction, hfraction, hpoint⟩
  · rw [hnil, if_pos rfl, List.append_nil]
    exact .integer hsign hdigits
  · rw [hpoint, if_neg (by simp), List.append_assoc]
    exact .float hsign hdigits hfraction

/-- Where the text begins with a number, one is read that is no shorter. -/
theorem number?_longest (h : IsNumeral form w) (hw : w <+: text) :
    ∃ found, number? text = some found ∧ w.length ≤ found.2.length := by
  obtain ⟨k, rfl⟩ := hw
  cases h with
  | @integer sign digits hsign hdigits =>
      -- more digits may follow, and they are read as well
      have hrun : k = k.takeWhile Char.isDigit ++ k.dropWhile Char.isDigit :=
        List.takeWhile_append_dropWhile.symm
      have hmore := hdigits.append (b := k.takeWhile Char.isDigit)
        (List.all_eq_true.mp List.all_takeWhile)
      have hread := number?_of_isDigits (k := k.dropWhile Char.isDigit) hsign hmore
        fun _ => isDigit_of_head?_dropWhile
      rw [List.append_assoc, ← hrun, ← List.append_assoc] at hread
      refine ⟨_, hread, ?_⟩
      simp only [List.length_append]
      omega
  | @float sign digits fraction hsign hdigits hfraction =>
      have hstop : ∀ c, ('.' :: (fraction ++ k)).head? = some c → c.isDigit = false := by
        intro c hc
        obtain rfl := Option.some.inj hc
        decide
      have htext : sign ++ (digits ++ '.' :: fraction) ++ k =
          sign ++ (digits ++ '.' :: (fraction ++ k)) := by
        simp
      have hread := number?_of_isDigits hsign hdigits hstop
      rw [← htext, fractionOf_point hfraction] at hread
      refine ⟨_, hread, ?_⟩
      simp only [List.length_append, List.length_cons]
      omega

/-- A second point ends a number. -/
example : number? "1..5".toList = some (.integer, ['1']) := by decide

-- ── how far a string is looked at ────────────────────────────────────────────────

/-- The first place from `start` on where a stop occurs, or the end of the document. -/
inductive Document.Limit (d : Document) (stops : List (List Char)) (start : Nat) : Nat → Prop where
  | stop {o : Nat} (h : d.FirstFrom stops start o) : Limit d stops start o
  | size (h : ∀ o, start ≤ o → ∀ s ∈ stops, ¬ d.OccursAt s o) : Limit d stops start d.size

/-- One pattern is found where a search for that one alone finds it. -/
theorem earliest?_singleton (pattern text : List Char) :
    earliest? [pattern] text = indexOf? pattern text := by
  cases h : indexOf? pattern text <;> simp [earliest?, h]

/-- No pattern is found behind the end of the text. -/
theorem earliest?_le_length {patterns : List (List Char)} {i : Nat}
    (h : earliest? patterns text = some i) : i ≤ text.length := by
  obtain ⟨⟨p, hp, hat⟩, hfirst⟩ := earliest?_eq_some_iff.mp h
  refine Nat.le_of_not_lt fun hlt => ?_
  -- behind the end only the empty pattern occurs, and it occurs at the end as well
  rw [List.drop_eq_nil_of_le (Nat.le_of_lt hlt)] at hat
  refine hfirst text.length hlt p hp ?_
  rwa [List.drop_length]

namespace Reader

variable {r : Reader}

/-- The part before the stops ends at the limit. -/
theorem limit_beforeStops (r : Reader) (stops : List (List Char)) :
    r.document.Limit stops r.offset (r.offsetAt (beforeStops stops r.rest).length) := by
  cases he : earliest? stops r.rest with
  | some k =>
      have hk := earliest?_le_length he
      have hlen : (beforeStops stops r.rest).length = k := by
        rw [beforeStops, he, Option.getD_some, List.length_take_of_le hk]
      rw [hlen]
      exact .stop (firstFrom_iff.mpr ⟨k, hk, rfl, he⟩)
  | none =>
      have hbody : beforeStops stops r.rest = r.rest := by
        rw [beforeStops, he, Option.getD_none, List.take_length]
      have hsize : r.offsetAt r.rest.length = r.document.size := by
        rw [offsetAt, List.take_length, offset_add_rest]
      rw [hbody, hsize]
      refine .size fun o ho s hs hat => ?_
      obtain ⟨n, -, -, hn⟩ := occursAt_iff.mp ⟨hat, ho⟩
      exact earliest?_eq_none_iff.mp he n s hs hn

/-- A pattern is found at its first place from the cursor on, if no stop has a place before. -/
theorem find?_eq_some_iff {pattern : List Char} {stops : List (List Char)} {o : Nat} :
    r.find? pattern stops = some o ↔ r.document.FirstFrom [pattern] r.offset o ∧
      ∀ o', r.offset ≤ o' → o' < o → ∀ s ∈ stops, ¬ r.document.OccursAt s o' := by
  rw [find?, Option.map_eq_some_iff, firstFrom_iff]
  constructor
  · rintro ⟨n, hn, rfl⟩
    obtain ⟨hfirst, hbefore⟩ := indexBefore?_eq_some_iff.mp hn
    rw [← earliest?_singleton] at hfirst
    have hlen := earliest?_le_length hfirst
    have havoids : Avoids stops n r.rest := ⟨hlen, hbefore⟩
    exact ⟨⟨n, hlen, rfl, hfirst⟩, fun o' ho' hlt s hs => havoids.not_occursAt hs ho' hlt⟩
  · rintro ⟨⟨n, hlen, rfl, hfirst⟩, hbefore⟩
    rw [earliest?_singleton] at hfirst
    refine ⟨n, indexBefore?_eq_some_iff.mpr ⟨hfirst, fun j hj s hs hsj => ?_⟩, rfl⟩
    obtain ⟨hat, ho⟩ := occursAt_iff.mpr ⟨j, by omega, rfl, hsj⟩
    exact hbefore _ ho (offsetAt_lt hj hlen) s hs hat

-- ── strings ──────────────────────────────────────────────────────────────────────

/-- A string is read at the cursor, and looked at up to the limit: through the first quote that
    lies before the limit, or if there is none, up to the limit. -/
inductive ReadsString (r : Reader) (limit : Nat) : Option Quoted → Reader → Prop where
  | closed {quote : Char} {body : List Char} {stop : Nat} {next : Reader}
      (hhead : r.peek? = some quote) (hquote : isQuote quote = true)
      (hfirst : r.document.FirstFrom [[quote]] (r.offset + 1) stop) (hlt : stop < limit)
      (hbody : r.document.slice? (r.offset + 1) stop = some body)
      (hnext : r.Captures next (quote :: body ++ [quote])) (hstop : next.offset = stop + 1) :
      ReadsString r limit (some (.closed quote body)) next
  | unclosed {quote : Char} {body : List Char} {next : Reader}
      (hhead : r.peek? = some quote) (hquote : isQuote quote = true)
      (hnone : ∀ o, r.offset + 1 ≤ o → o < limit → ¬ r.document.OccursAt [quote] o)
      (hbody : r.document.slice? (r.offset + 1) limit = some body)
      (hnext : r.Captures next (quote :: body)) (hstop : next.offset = limit) :
      ReadsString r limit (some (.unclosed quote body)) next

/-- A character does not begin in a text in which it is not. -/
theorem avoids_of_not_mem {c : Char} (hw : w <+: text) (hc : c ∉ w) :
    Avoids [[c]] w.length text := by
  refine Avoids.of_prefix hw fun d hd s hs => ?_
  obtain rfl := List.mem_singleton.mp hs
  refine ⟨List.cons_ne_nil c [], fun hhead => hc ?_⟩
  obtain rfl := Option.some.inj hhead
  exact hd

/-- A character is first found behind a text in which it is not. -/
theorem firstFrom_of_not_mem {c : Char} (h : w ++ [c] <+: r.rest) (hc : c ∉ w) :
    r.document.FirstFrom [[c]] r.offset (r.offset + byteSize w) := by
  have hw : w <+: r.rest := (List.prefix_append w [c]).trans h
  rw [← offsetAt_length hw]
  refine firstFrom_iff.mpr ⟨w.length, hw.length_le, rfl, earliest?_eq_some_iff.mpr
    ⟨⟨[c], List.mem_singleton_self _, ?_⟩, (avoids_of_not_mem hw hc).no_stop⟩⟩
  obtain ⟨tail, htail⟩ := h
  rw [← htail, List.append_assoc, List.drop_left]
  exact List.prefix_append [c] tail

/-- A string that is read is captured, and the cursor is behind it. -/
theorem captures_takeQuoted {stops : List (List Char)} {string : Quoted}
    (h : quoted? stops r.rest = some string) :
    ∃ next, r.takeQuoted stops = (some string, next) ∧ r.Captures next string.text ∧
      next.offset = r.offset + byteSize string.text := by
  obtain ⟨-, -, -, -, hpre, -, -⟩ := quoted?_eq_some h
  refine ⟨r.capture string.text.length, by simp only [takeQuoted, h], captures_capture hpre, ?_⟩
  rw [offset_capture, offsetAt_length hpre]

/-- A quote that comes next is the beginning of a string. -/
theorem readsString_takeQuoted {quote : Char} (stops : List (List Char))
    (h : r.peek? = some quote) (hq : isQuote quote = true) :
    ∃ limit, r.document.Limit stops (r.offset + 1) limit ∧
      r.ReadsString limit (r.takeQuoted stops).1 (r.takeQuoted stops).2 := by
  obtain ⟨tail, hr⟩ := List.head?_eq_some_iff.mp h
  have hsize := utf8Size_of_isQuote hq
  -- the search begins where a reader stands that has taken the quote
  have hone : (r.capture 1).offset = r.offset + 1 := by
    rw [offset_capture, offsetAt_one hr hsize]
  have htail : (r.capture 1).rest = tail := by
    rw [rest_capture, hr]
    rfl
  have hbody : beforeStops stops tail <+: (r.capture 1).rest := by
    rw [htail]
    exact List.take_prefix _ _
  have hlimit := limit_beforeStops (r.capture 1) stops
  rw [htail, offsetAt_length hbody, hone] at hlimit
  refine ⟨_, hlimit, ?_⟩
  have hslice : ∀ {w}, w <+: tail →
      r.document.slice? (r.offset + 1) (r.offset + 1 + byteSize w) = some w := by
    intro w hw
    have hinner : w <+: (r.capture 1).rest.drop 0 := by
      rw [htail]
      exact hw
    have hslice := slice?_of_prefix hinner
    rwa [offsetAt_zero, hone] at hslice
  by_cases hmem : quote ∈ beforeStops stops tail
  · obtain ⟨body, others, hsplit, hnot⟩ := List.eq_append_cons_of_mem hmem
    have hstring := quoted?_eq_closed hq hsplit hnot
    rw [← hr] at hstring
    obtain ⟨next, hread, hnext, hoffset⟩ := captures_takeQuoted hstring
    have hclosed : body ++ [quote] <+: tail := by
      rw [htail, hsplit, List.append_cons] at hbody
      exact (List.prefix_append _ _).trans hbody
    have hinner : body ++ [quote] <+: (r.capture 1).rest := by
      rw [htail]
      exact hclosed
    have hfirst := firstFrom_of_not_mem hinner hnot
    rw [hone] at hfirst
    rw [hread]
    refine .closed h hq hfirst ?_ (hslice ((List.prefix_append _ _).trans hclosed)) hnext ?_
    · rw [hsplit, byteSize_append, byteSize_cons, hsize]
      omega
    · rw [hoffset, Quoted.text, List.cons_append, byteSize_cons, byteSize_append, byteSize_cons,
        byteSize_nil, hsize]
      omega
  · have hstring := quoted?_eq_unclosed hq hmem
    rw [← hr] at hstring
    obtain ⟨next, hread, hnext, hoffset⟩ := captures_takeQuoted hstring
    rw [hread]
    refine .unclosed h hq (fun o ho hlt => ?_) (hslice (htail ▸ hbody)) hnext ?_
    · rw [← hone] at ho hlt
      rw [← offsetAt_length hbody] at hlt
      exact (avoids_of_not_mem hbody hmem).not_occursAt (List.mem_singleton_self _) ho hlt
    · rw [hoffset, Quoted.text, byteSize_cons, hsize]
      omega

-- ── all literals ─────────────────────────────────────────────────────────────────

/-- The longest number that the rest begins with is read, if there is any. -/
structure ReadsNumber (r : Reader) (form? : Option NumberForm) (next : Reader) : Prop where
  isSome_iff : form?.isSome = true ↔ ∃ form w, IsNumeral form w ∧ w <+: r.rest
  longest : ∀ form, form? = some form → ∃ w, IsNumeral form w ∧ w <+: r.rest ∧
    (∀ form' w', IsNumeral form' w' → w' <+: r.rest → w'.length ≤ w.length) ∧
    (form = .float ↔ '.' ∈ w) ∧ r.Captures next w
  declined : form? = none → next = r

theorem readsNumber_takeNumber (r : Reader) : r.ReadsNumber r.takeNumber.1 r.takeNumber.2 := by
  cases h : number? r.rest with
  | none =>
      have hread : r.takeNumber = (none, r) := by simp only [takeNumber, h]
      rw [hread]
      refine ⟨⟨nofun, ?_⟩, nofun, fun _ => rfl⟩
      rintro ⟨form, w, hw, hpre⟩
      obtain ⟨found, hfound, -⟩ := number?_longest hw hpre
      rw [h] at hfound
      exact nomatch hfound
  | some found =>
      obtain ⟨form, w⟩ := found
      have hread : r.takeNumber = (some form, r.capture w.length) := by simp only [takeNumber, h]
      have hw := isNumeral_of_number? h
      have hpre := (number?_eq_some h).1
      rw [hread]
      refine ⟨⟨fun _ => ⟨form, w, hw, hpre⟩, fun _ => rfl⟩, ?_, nofun⟩
      rintro _ ⟨⟩
      refine ⟨w, hw, hpre, fun form' w' hw' hpre' => ?_, hw.float_iff, captures_capture hpre⟩
      obtain ⟨found', hfound', hlen⟩ := number?_longest hw' hpre'
      obtain rfl := Option.some.inj (h.symm.trans hfound')
      exact hlen

/-- A string is read up to its quote or the limit, if a quote comes next. -/
structure ReadsQuoted (r : Reader) (stops : List (List Char)) (string? : Option Quoted)
    (next : Reader) : Prop where
  none_iff : string? = none ↔ r.peek? ≠ some '"' ∧ r.peek? ≠ some '\''
  read : string? ≠ none → ∃ limit, r.document.Limit stops (r.offset + 1) limit ∧
    r.ReadsString limit string? next
  declined : string? = none → next = r

/-- There are two quotes that may come next. -/
theorem any_isQuote_eq_false_iff :
    r.peek?.any isQuote = false ↔ r.peek? ≠ some '"' ∧ r.peek? ≠ some '\'' := by
  cases r.peek? with
  | none => exact iff_of_true rfl ⟨nofun, nofun⟩
  | some c => simp [isQuote]

theorem readsQuoted_takeQuoted (r : Reader) (stops : List (List Char)) :
    r.ReadsQuoted stops (r.takeQuoted stops).1 (r.takeQuoted stops).2 := by
  cases hany : r.peek?.any isQuote with
  | true =>
      obtain ⟨quote, hpeek, hq⟩ := (Option.any_eq_true ..).mp hany
      obtain ⟨limit, hlimit, hread⟩ := readsString_takeQuoted stops hpeek hq
      have hsome : (r.takeQuoted stops).1 ≠ none := by
        intro hnone
        rw [hnone] at hread
        exact nomatch hread
      refine ⟨⟨fun h => absurd h hsome, fun h => ?_⟩, fun _ => ⟨limit, hlimit, hread⟩,
        fun h => absurd h hsome⟩
      rw [← any_isQuote_eq_false_iff, hany] at h
      exact nomatch h
  | false =>
      have hnone : quoted? stops r.rest = none := by
        rw [peek?] at hany
        cases hr : r.rest with
        | nil => rfl
        | cons quote tail =>
            rw [hr] at hany
            exact if_neg (Bool.eq_false_iff.mp hany)
      have hread : r.takeQuoted stops = (none, r) := by simp only [takeQuoted, hnone]
      rw [hread]
      exact ⟨iff_of_true rfl (any_isQuote_eq_false_iff.mp hany), fun h => absurd rfl h,
        fun _ => rfl⟩

/-- What the literal readers read at a cursor, and what is found from there on. -/
structure LiteralsExact (r : Reader) : Prop where
  number : r.ReadsNumber r.takeNumber.1 r.takeNumber.2
  string : ∀ stops, r.ReadsQuoted stops (r.takeQuoted stops).1 (r.takeQuoted stops).2
  find : ∀ pattern stops o, r.find? pattern stops = some o ↔
    r.document.FirstFrom [pattern] r.offset o ∧
      ∀ o', r.offset ≤ o' → o' < o → ∀ s ∈ stops, ¬ r.document.OccursAt s o'
  /-- The places of patterns are those at which a search through the bytes finds them. -/
  bytes : ∀ pattern ≠ [], ∀ o, r.document.OccursAt pattern o ↔
    utf8Bytes pattern <+: (utf8Bytes r.document.chars).drop o

/-- **Literals.**  At every cursor the literal readers read exactly their languages. -/
theorem literals_exact (r : Reader) : r.LiteralsExact where
  number := readsNumber_takeNumber r
  string := readsQuoted_takeQuoted r
  find _ _ _ := find?_eq_some_iff
  bytes _ hne _ := Document.occursAt_iff_bytes hne

end Reader

end TemplateScan.Text
