import TemplateScan.Json.Outline
import TemplateScan.Json.Printer

/-! # Printed values — the outline of a text that was printed

    Whatever text a string holds, its escapes are read back unit by unit, and no unit is taken for
    half of a surrogate pair.  So a printed value, read where a value is needed, leads to the place
    after its outline with nothing of the text behind it touched, at every depth and inside whatever
    is open.

    * **`Value.outline`** — a value as an outline in which nothing is broken.
    * **`lexemes_quote`** — a quoted text is one lexeme.
    * **`read_print`** — a printed value is read as its outline. -/

namespace TemplateScan.Json

-- ── values ───────────────────────────────────────────────────────────────────────

namespace Value

/-- What holds of a value if it holds of its parts holds of all values. -/
@[induction_eliminator]
theorem induction {motive : Value → Prop} (null : motive .null)
    (bool : ∀ value, motive (.bool value)) (string : ∀ text, motive (.string text))
    (array : ∀ items : List Value, (∀ item ∈ items, motive item) → motive (.array items))
    (object : ∀ members : List (String × Value),
      (∀ member ∈ members, motive member.2) → motive (.object members))
    (value : Value) : motive value := by
  refine @Value.rec motive (fun items => ∀ item ∈ items, motive item)
    (fun members => ∀ member ∈ members, motive member.2) (fun member => motive member.2)
    null bool string array object (List.forall_mem_nil _) ?_ (List.forall_mem_nil _) ?_ ?_ value
  · intro item items hitem hitems
    exact List.forall_mem_cons.mpr ⟨hitem, hitems⟩
  · intro member members hmember hmembers
    exact List.forall_mem_cons.mpr ⟨hmember, hmembers⟩
  · intro key value hvalue
    exact hvalue

mutual

/-- A value as an outline. -/
def outline : Value → Outline
  | .null => .null
  | .bool value => .bool value
  | .string text => .string (some text)
  | .array items => .array (itemOutlines items) .closed
  | .object members => .object (memberOutlines members) .closed

/-- The outlines of the items of an array. -/
def itemOutlines : List Value → List Outline
  | [] => []
  | item :: items => item.outline :: itemOutlines items

/-- The members of an object with their outlines. -/
def memberOutlines : List (String × Value) → List (Key × Outline)
  | [] => []
  | (key, value) :: members => (some key, value.outline) :: memberOutlines members

end

/-- The items of an array are outlined one by one. -/
theorem itemOutlines_eq (items : List Value) : itemOutlines items = items.map outline := by
  induction items with
  | nil => rfl
  | cons item items ih => rw [itemOutlines, ih, List.map_cons]

/-- The members of an object are outlined one by one, under their names. -/
theorem memberOutlines_eq (members : List (String × Value)) :
    memberOutlines members = members.map fun member => (some member.1, member.2.outline) := by
  induction members with
  | nil => rfl
  | cons member members ih =>
      obtain ⟨key, value⟩ := member
      rw [memberOutlines, ih, List.map_cons]

end Value

theorem printItems_eq (depth : Nat) (items : List Value) :
    printItems depth items = items.map (printAt depth) := by
  induction items with
  | nil => rfl
  | cons item items ih => rw [printItems, ih, List.map_cons]

/-- The members of an object are printed one by one, behind their names. -/
theorem printMembers_eq (depth : Nat) (members : List (String × Value)) :
    printMembers depth members =
      members.map fun member => quote member.1 ++ ':' :: ' ' :: printAt depth member.2 := by
  induction members with
  | nil => rfl
  | cons member members ih =>
      obtain ⟨key, value⟩ := member
      rw [printMembers, ih, List.map_cons]

-- ── strings ──────────────────────────────────────────────────────────────────────

/-- A hexadecimal digit is read back. -/
theorem hexValue?_hexDigit {n : Nat} (h : n < 16) : hexValue? (hexDigit n) = some n := by
  revert n
  decide

/-- The unit stands for the character, whatever follows it. -/
def CodeUnit.StandsFor (unit : CodeUnit) (c : Char) : Prop :=
  ∀ units, joinUnits (unit :: units) = (joinUnits units).map (c :: ·)

theorem CodeUnit.StandsFor.plain (c : Char) : (CodeUnit.plain c).StandsFor c := by
  intro units
  rw [joinUnits]

/-- No character is a surrogate. -/
theorem toNat_valid (c : Char) : c.toNat < 0xD800 ∨ 0xDFFF < c.toNat ∧ c.toNat < 0x110000 :=
  c.valid

/-- The leading surrogates are a range of codes. -/
theorem isLeading_iff {code : Nat} : isLeading code = true ↔ 0xD800 ≤ code ∧ code ≤ 0xDBFF := by
  rw [isLeading, Bool.and_eq_true, decide_eq_true_eq, decide_eq_true_eq]

/-- The trailing surrogates are the range behind it. -/
theorem isTrailing_iff {code : Nat} : isTrailing code = true ↔ 0xDC00 ≤ code ∧ code ≤ 0xDFFF := by
  rw [isTrailing, Bool.and_eq_true, decide_eq_true_eq, decide_eq_true_eq]

/-- A code that is that of a character stands for it beside any other unit. -/
theorem CodeUnit.StandsFor.escaped (c : Char) : (CodeUnit.escaped c.toNat).StandsFor c := by
  have hc := toNat_valid c
  have hleading : isLeading c.toNat = false := by
    rw [← Bool.not_eq_true, isLeading_iff]
    omega
  have htrailing : isTrailing c.toNat = false := by
    rw [← Bool.not_eq_true, isTrailing_iff]
    omega
  intro units
  cases units with
  | nil => simp [joinUnits, hleading, htrailing, Char.ofNat_toNat]
  | cons unit units => cases unit <;> simp [joinUnits, hleading, htrailing, Char.ofNat_toNat]

/-- A backslash and a letter are read as the character that they stand for. -/
theorem readUnits_short {letter c : Char} (h : shortEscape? letter = some c) (rest : List Char) :
    readUnits ('\\' :: letter :: rest) = (.plain c :: (readUnits rest).1, (readUnits rest).2) := by
  have hu : letter ≠ 'u' := by
    rintro rfl
    cases h
  rw [readUnits]
  · rw [h]
  · exact fun _ _ _ _ _ heq => absurd heq hu
  · exact fun heq => absurd heq hu

/-- Four digits behind `\u` are read as the code that they write. -/
theorem readUnits_code {a b c d : Char} {code : Nat} (h : hexCode? a b c d = some code)
    (rest : List Char) :
    readUnits ('\\' :: 'u' :: a :: b :: c :: d :: rest) =
      (.escaped code :: (readUnits rest).1, (readUnits rest).2) := by
  rw [readUnits, h]

/-- Any other character is read as itself. -/
theorem readUnits_plain {c : Char} (hquote : c ≠ '"') (hslash : c ≠ '\\')
    (hcontrol : ¬ c.toNat < 0x20) (rest : List Char) :
    readUnits (c :: rest) = (.plain c :: (readUnits rest).1, (readUnits rest).2) := by
  rw [readUnits]
  · rw [if_neg hquote, if_neg hcontrol]
  -- what is left: a backslash begins the other cases
  · exact fun _ _ _ _ _ heq => absurd heq hslash
  · exact fun _ heq => absurd heq hslash
  · exact fun heq => absurd heq hslash
  · exact fun _ _ heq => absurd heq hslash

/-- A character is written by a letter that stands for it, by its code, or as itself. -/
theorem escape_cases (c : Char) :
    (∃ letter, shortEscape? letter = some c ∧ escape c = ['\\', letter]) ∨
    (c.toNat < 0x20 ∧ escape c =
      ['\\', 'u', '0', '0', hexDigit (c.toNat / 16), hexDigit (c.toNat % 16)]) ∨
    (c ≠ '"' ∧ c ≠ '\\' ∧ ¬ c.toNat < 0x20 ∧ escape c = [c]) := by
  unfold escape
  repeat' split
  iterate 7
    next heq =>
      subst heq
      exact Or.inl ⟨_, rfl, rfl⟩
  · next hcontrol => exact Or.inr (Or.inl ⟨hcontrol, rfl⟩)
  · next hquote hslash _ _ _ _ _ hcontrol => exact Or.inr (Or.inr ⟨hquote, hslash, hcontrol, rfl⟩)

/-- A character as it is written in a string is read as one unit, which stands for it. -/
theorem exists_readUnits_escape (c : Char) : ∃ unit : CodeUnit, unit.StandsFor c ∧
    ∀ rest, readUnits (escape c ++ rest) = (unit :: (readUnits rest).1, (readUnits rest).2) := by
  obtain ⟨letter, hletter, hescape⟩ | ⟨hcontrol, hescape⟩ | ⟨hquote, hslash, hcontrol, hescape⟩ :=
    escape_cases c
  · rw [hescape]
    exact ⟨_, .plain c, readUnits_short hletter⟩
  · have hhigh : hexValue? (hexDigit (c.toNat / 16)) = some (c.toNat / 16) :=
      hexValue?_hexDigit (by omega)
    have hlow : hexValue? (hexDigit (c.toNat % 16)) = some (c.toNat % 16) :=
      hexValue?_hexDigit (by omega)
    have hcode : hexCode? '0' '0' (hexDigit (c.toNat / 16)) (hexDigit (c.toNat % 16)) =
        some c.toNat := by
      rw [hexCode?, hhigh, hlow, show hexValue? '0' = some 0 by decide]
      show some (((0 * 16 + 0) * 16 + c.toNat / 16) * 16 + c.toNat % 16) = some c.toNat
      rw [show ((0 * 16 + 0) * 16 + c.toNat / 16) * 16 + c.toNat % 16 = c.toNat by omega]
    rw [hescape]
    exact ⟨_, .escaped c, readUnits_code hcode⟩
  · rw [hescape]
    exact ⟨_, .plain c, readUnits_plain hquote hslash hcontrol⟩

/-- A text as it is written in a string is read up to its closing quote, and back as it was. -/
theorem exists_readUnits_quoted (text rest : List Char) : ∃ units, joinUnits units = some text ∧
    readUnits (text.flatMap escape ++ '"' :: rest) = (units, .closed rest) := by
  induction text with
  | nil => exact ⟨[], joinUnits.eq_1, by simp [readUnits]⟩
  | cons c text ih =>
      obtain ⟨units, hunits, hread⟩ := ih
      obtain ⟨unit, hunit, hescape⟩ := exists_readUnits_escape c
      refine ⟨unit :: units, by rw [hunit, hunits, Option.map_some], ?_⟩
      rw [List.flatMap_cons, List.append_assoc, hescape, hread]

-- ── lexemes ──────────────────────────────────────────────────────────────────────

/-- Lexemes are read one after the other. -/
theorem lexemes_cons {c : Char} (h : isSpace c = false) (rest : List Char) :
    lexemes (c :: rest) = (readLexeme c rest).1 :: lexemes (readLexeme c rest).2 := by
  have hdrop : (c :: rest).dropWhile isSpace = c :: rest :=
    List.dropWhile_cons_of_neg (by rw [h]; exact Bool.false_ne_true)
  rw [lexemes]
  split
  · next heq =>
      rw [hdrop] at heq
      cases heq
  · next heq =>
      rw [hdrop] at heq
      cases heq
      rfl

/-- Punctuation is a lexeme of one character. -/
theorem lexemes_mark {c : Char} {lexeme : Lexeme} (hread : ∀ rest, readLexeme c rest = (lexeme, rest))
    (hspace : isSpace c = false) (rest : List Char) :
    lexemes (c :: rest) = lexeme :: lexemes rest := by
  rw [lexemes_cons hspace, hread]

theorem lexemes_comma (rest : List Char) : lexemes (',' :: rest) = .comma :: lexemes rest :=
  lexemes_mark (fun _ => rfl) rfl rest

theorem lexemes_colon (rest : List Char) : lexemes (':' :: rest) = .colon :: lexemes rest :=
  lexemes_mark (fun _ => rfl) rfl rest

/-- White space before a lexeme is passed over. -/
theorem lexemes_space {c : Char} (h : isSpace c = true) (rest : List Char) :
    lexemes (c :: rest) = lexemes rest := by
  have hdrop : (c :: rest).dropWhile isSpace = rest.dropWhile isSpace :=
    List.dropWhile_cons_of_pos h
  rw [lexemes, lexemes, hdrop]

/-- A new line is white space, however far it is indented. -/
theorem lexemes_newLine (depth : Nat) (rest : List Char) :
    lexemes (newLine depth ++ rest) = lexemes rest := by
  have spaces : ∀ n, lexemes (List.replicate n ' ' ++ rest) = lexemes rest := by
    intro n
    induction n with
    | zero => rw [List.replicate_zero, List.nil_append]
    | succ n ih => rw [List.replicate_succ, List.cons_append, lexemes_space (by decide), ih]
  rw [newLine, List.cons_append, lexemes_space (by decide), spaces]

/-- A quoted text is one lexeme. -/
theorem lexemes_quote (text : String) (rest : List Char) :
    lexemes (quote text ++ rest) = .string (some text) :: lexemes rest := by
  obtain ⟨units, hunits, hread⟩ := exists_readUnits_quoted text.toList rest
  have hstring : readString (text.toList.flatMap escape ++ '"' :: rest) =
      (.string (some text), rest) := by
    rw [readString, hread]
    show (Lexeme.string ((joinUnits units).map String.ofList), rest) = _
    rw [hunits, Option.map_some, String.ofList_toList]
  have htext : quote text ++ rest = '"' :: (text.toList.flatMap escape ++ '"' :: rest) := by
    simp [quote]
  rw [htext, lexemes_cons (by decide)]
  show (readString _).1 :: lexemes (readString _).2 = _
  rw [hstring]

-- ── places ───────────────────────────────────────────────────────────────────────

namespace Place

/-- A lexeme that fits leads to the next place. -/
theorem outline_cons {place place' : Place} {lexeme : Lexeme}
    (h : place.next? lexeme = some place') (lexemes : List Lexeme) :
    place.outline (lexeme :: lexemes) = place'.outline lexemes := by
  cases place with
  | done => cases h
  | _ =>
      rw [outline, h]
      rintro _ ⟨⟩

/-- A value may stand here, inside the given frames; only the end of an array might as well. -/
def AwaitsValue (place : Place) (frames : List Frame) : Prop :=
  ∀ lexeme, lexeme ≠ .closeArray → place.next? lexeme = afterValue? frames lexeme

/-- A value may stand where one is expected. -/
theorem awaitsValue_atValue (frames : List Frame) : (atValue frames).AwaitsValue frames :=
  fun _ _ => rfl

theorem awaitsValue_atFirstItem (frames : List Frame) :
    (atFirstItem frames).AwaitsValue (.array [] :: frames) := by
  intro lexeme hlexeme
  cases lexeme with
  | closeArray => exact absurd rfl hlexeme
  | _ => rfl

/-- A key may stand here, behind the given members of the innermost object. -/
def AwaitsKey (place : Place) (members : List (Key × Outline)) (frames : List Frame) : Prop :=
  ∀ key, place.next? (.string key) = some (.atColon members key frames)

end Place

-- ── printed values ───────────────────────────────────────────────────────────────

/-- Wherever a value may stand the printed value is read, and the text behind it is left. -/
def Value.ReadsBack (value : Value) : Prop :=
  ∀ (place : Place) (frames : List Frame), place.AwaitsValue frames → ∀ depth tail,
    place.outline (lexemes (printAt depth value ++ tail)) =
      (Place.after value.outline frames).outline (lexemes tail)

/-- A value that is one lexeme is read back. -/
theorem Value.ReadsBack.of_lexeme {value : Value} {lexeme : Lexeme}
    (hprint : ∀ depth tail, lexemes (printAt depth value ++ tail) = lexeme :: lexemes tail)
    (hafter : ∀ frames, Place.afterValue? frames lexeme = some (.after value.outline frames)) :
    value.ReadsBack := by
  intro place frames hplace depth tail
  have hne : lexeme ≠ .closeArray := by
    rintro rfl
    cases hafter []
  rw [hprint, Place.outline_cons ((hplace lexeme hne).trans (hafter frames))]

/-- The items of an array are read one after the other, up to the last. -/
theorem read_items {item : Value} {items : List Value}
    (each : ∀ value ∈ item :: items, value.ReadsBack) {place : Place} {before : List Outline}
    {frames : List Frame} (hplace : place.AwaitsValue (.array before :: frames)) (depth : Nat)
    (tail : List Char) :
    place.outline (lexemes
        (separated ((printItems depth (item :: items)).map (newLine depth ++ ·)) ++ tail)) =
      (Place.afterItem ((Value.itemOutlines (item :: items)).reverse ++ before) frames).outline
        (lexemes tail) := by
  induction items generalizing item place before with
  | nil =>
      rw [printItems, printItems, List.map_singleton, separated, List.append_assoc,
        lexemes_newLine, each item List.mem_cons_self place _ hplace]
      rfl
  | cons next items ih =>
      have htext : separated ((printItems depth (item :: next :: items)).map (newLine depth ++ ·))
            ++ tail =
          newLine depth ++ (printAt depth item ++ ',' ::
            (separated ((printItems depth (next :: items)).map (newLine depth ++ ·)) ++ tail)) := by
        simp [printItems, separated]
      rw [htext, lexemes_newLine, each item List.mem_cons_self place _ hplace,
        lexemes_comma]
      show (Place.atValue (.array (item.outline :: before) :: frames)).outline (lexemes _) = _
      rw [ih (fun value hvalue => each value (List.mem_cons_of_mem _ hvalue))
        (Place.awaitsValue_atValue _)]
      simp [Value.itemOutlines]

/-- A member of an object is read as its key and its value. -/
theorem read_member {member : String × Value} (hvalue : member.2.ReadsBack) {place : Place}
    {before : List (Key × Outline)} {frames : List Frame} (hplace : place.AwaitsKey before frames)
    (depth : Nat) (tail : List Char) :
    place.outline (lexemes
        (newLine depth ++ (quote member.1 ++ ':' :: ' ' :: (printAt depth member.2 ++ tail)))) =
      (Place.afterMember ((some member.1, member.2.outline) :: before) frames).outline
        (lexemes tail) := by
  rw [lexemes_newLine, lexemes_quote, Place.outline_cons (hplace _), lexemes_colon,
    lexemes_space rfl]
  show (Place.atValue (.object before (some member.1) :: frames)).outline (lexemes _) = _
  rw [hvalue _ _ (Place.awaitsValue_atValue _)]
  rfl

/-- The members of an object are read one after the other, up to the last. -/
theorem read_members {member : String × Value} {members : List (String × Value)}
    (each : ∀ m ∈ member :: members, m.2.ReadsBack) {place : Place}
    {before : List (Key × Outline)} {frames : List Frame} (hplace : place.AwaitsKey before frames)
    (depth : Nat) (tail : List Char) :
    place.outline (lexemes
        (separated ((printMembers depth (member :: members)).map (newLine depth ++ ·)) ++ tail)) =
      (Place.afterMember ((Value.memberOutlines (member :: members)).reverse ++ before)
        frames).outline (lexemes tail) := by
  induction members generalizing member place before with
  | nil =>
      have htext : separated ((printMembers depth [member]).map (newLine depth ++ ·)) ++ tail =
          newLine depth ++ (quote member.1 ++ ':' :: ' ' :: (printAt depth member.2 ++ tail)) := by
        simp [printMembers, separated]
      rw [htext, read_member (each member List.mem_cons_self) hplace]
      rfl
  | cons next members ih =>
      have htext : separated ((printMembers depth (member :: next :: members)).map
            (newLine depth ++ ·)) ++ tail =
          newLine depth ++ (quote member.1 ++ ':' :: ' ' :: (printAt depth member.2 ++ ',' ::
            (separated ((printMembers depth (next :: members)).map (newLine depth ++ ·)) ++
              tail))) := by
        simp [printMembers, separated]
      rw [htext, read_member (each member List.mem_cons_self) hplace, lexemes_comma]
      show (Place.atKey ((some member.1, member.2.outline) :: before) frames).outline
        (lexemes _) = _
      rw [ih (fun m hm => each m (List.mem_cons_of_mem _ hm)) fun _ => rfl]
      simp [Value.memberOutlines]

/-- **Every printed value is read back as its outline.** -/
theorem read_print (value : Value) : value.ReadsBack := by
  induction value with
  | null => exact .of_lexeme (fun _ tail => by rw [printAt]; exact lexemes_cons rfl _) fun _ => rfl
  | bool value =>
      cases value with
      | true =>
          exact .of_lexeme (fun _ tail => by rw [printAt]; exact lexemes_cons rfl _) fun _ => rfl
      | false =>
          exact .of_lexeme (fun _ tail => by rw [printAt]; exact lexemes_cons rfl _) fun _ => rfl
  | string text =>
      exact .of_lexeme (fun _ tail => by rw [printAt]; exact lexemes_quote text tail) fun _ => rfl
  | array items each =>
      intro place frames hplace depth tail
      cases items with
      | nil =>
          have htext : printAt depth (.array []) ++ tail = '[' :: ']' :: tail := by
            simp [printAt, enclosed, printItems]
          rw [htext, lexemes_mark (fun _ => rfl) rfl, Place.outline_cons (hplace _ (by simp)),
            lexemes_mark (fun _ => rfl) rfl]
          exact Place.outline_cons rfl _
      | cons item items =>
          have htext : printAt depth (.array (item :: items)) ++ tail =
              '[' :: (separated ((printItems (depth + 1) (item :: items)).map
                (newLine (depth + 1) ++ ·)) ++ (newLine depth ++ ']' :: tail)) := by
            simp [printAt, enclosed, printItems]
          rw [htext, lexemes_mark (fun _ => rfl) rfl, Place.outline_cons (hplace _ (by simp))]
          show (Place.atFirstItem frames).outline (lexemes _) = _
          rw [read_items each (Place.awaitsValue_atFirstItem frames), lexemes_newLine,
            lexemes_mark (fun _ => rfl) rfl, Place.outline_cons rfl, List.append_nil,
            List.reverse_reverse]
          rfl
  | object members each =>
      intro place frames hplace depth tail
      cases members with
      | nil =>
          have htext : printAt depth (.object []) ++ tail = '{' :: '}' :: tail := by
            simp [printAt, enclosed, printMembers]
          rw [htext, lexemes_mark (fun _ => rfl) rfl, Place.outline_cons (hplace _ (by simp)),
            lexemes_mark (fun _ => rfl) rfl]
          exact Place.outline_cons rfl _
      | cons member members =>
          have htext : printAt depth (.object (member :: members)) ++ tail =
              '{' :: (separated ((printMembers (depth + 1) (member :: members)).map
                (newLine (depth + 1) ++ ·)) ++ (newLine depth ++ '}' :: tail)) := by
            simp [printAt, enclosed, printMembers]
          rw [htext, lexemes_mark (fun _ => rfl) rfl, Place.outline_cons (hplace _ (by simp))]
          show (Place.atFirstKey frames).outline (lexemes _) = _
          have hkey : (Place.atFirstKey frames).AwaitsKey [] frames := fun _ => rfl
          rw [read_members each hkey, lexemes_newLine, lexemes_mark (fun _ => rfl) rfl,
            Place.outline_cons rfl, List.append_nil, List.reverse_reverse]
          rfl

/-- The outline of a printed value is that of the value, and no lexeme is left. -/
theorem outline_print (value : Value) : Json.outline value.print = (value.outline, []) := by
  have hread := read_print value (.atValue []) [] (Place.awaitsValue_atValue []) 0 []
  rw [List.append_nil] at hread
  rw [Json.outline, Value.print, hread, lexemes]
  rfl

end TemplateScan.Json
