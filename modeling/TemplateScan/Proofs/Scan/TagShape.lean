import TemplateScan.Proofs.Scan.BracketBalance
import TemplateScan.Proofs.Scan.Tokens

/-! # Tag groups — the shape of the token stream

    The tokens of a document fall into those outside tags and groups that run from an open delimiter
    to the token that ends its tag.  They do so in one way only, and every group has the shape that
    its form asks for.

    * **`Splits.unique`** — there is at most one way to split a token stream.
    * **`TagStep.groupStep`** — what one step inside a tag adds to its group.
    * **`tokens_split`** — the tokens of every document split, and their groups are well shaped. -/

namespace TemplateScan

open Text

-- ── kinds of token ───────────────────────────────────────────────────────────────

/-- The token stands outside tags: markup, white space in it, or a body that is passed over. -/
def TokenKind.isOutside (kind : TokenKind) : Bool :=
  kind.isMarkup || kind.isBody ||
    match kind with
    | .markupName | .endMarkupName | .spacing | .lineBreak => true
    | _ => false

/-- The token says nothing about the shape of its tag. -/
def TokenKind.isPlain : TokenKind → Bool
  | .openDelimiter | .closeDelimiter | .endDelimiter | .trimLeft | .trimRight => false
  | .outputTag | .endTag => false
  | .invalid .missingClose => false
  | _ => true

theorem TokenKind.isPlain_of_isPart {kind : TokenKind} (h : kind.isPart = true) :
    kind.isPlain = true := by
  cases kind with
  | invalid fault => cases fault <;> first | rfl | exact nomatch h
  | _ => first | rfl | exact nomatch h

/-- The token ends its tag. -/
def Token.endsTag (t : Token) : Bool :=
  (Event.token t.kind).endsTag

-- ── splitting a token stream ─────────────────────────────────────────────────────

/-- A part of a token stream. -/
inductive Part where
  | outside (token : Token)
  | tag (opening : Token) (inner : List Token) (closing : Token)

namespace Part

def tokens : Part → List Token
  | .outside token => [token]
  | .tag opening inner closing => opening :: (inner ++ [closing])

/-- A part is a token outside tags, or goes from an open delimiter to the first token that ends a
    tag, with no open delimiter in between. -/
def IsGroup : Part → Prop
  | .outside token => token.kind.isOutside = true
  | .tag opening inner closing => opening.kind = .openDelimiter ∧
      (∀ t ∈ inner, t.kind ≠ .openDelimiter ∧ t.endsTag = false) ∧ closing.endsTag = true

end Part

/-- The parts are groups, and together they are the token stream. -/
structure Splits (tokens : List Token) (parts : List Part) : Prop where
  covers : parts.flatMap Part.tokens = tokens
  groups : ∀ part ∈ parts, part.IsGroup

/-- A group is all tokens up to the first that ends a tag. -/
theorem takeWhile_group {inner rest : List Token} {closing : Token}
    (hin : ∀ t ∈ inner, t.kind ≠ .openDelimiter ∧ t.endsTag = false)
    (hend : closing.endsTag = true) :
    (inner ++ closing :: rest).takeWhile (fun t => !t.endsTag) = inner := by
  rw [List.takeWhile_append_of_pos fun t ht => by rw [(hin t ht).2]; rfl,
    List.takeWhile_cons_of_neg (by rw [hend]; exact Bool.false_ne_true), List.append_nil]

/-- Of two groups at the head of one token stream both are the same. -/
theorem Part.IsGroup.eq_of_append {p q : Part} {ps qs : List Token} (hp : p.IsGroup)
    (hq : q.IsGroup) (h : p.tokens ++ ps = q.tokens ++ qs) : p = q ∧ ps = qs := by
  cases p with
  | outside token =>
      cases q with
      | outside other =>
          obtain ⟨rfl, rfl⟩ := List.cons.inj h
          exact ⟨rfl, rfl⟩
      | tag opening inner closing =>
          obtain ⟨rfl, -⟩ := List.cons.inj h
          have hout : token.kind.isOutside = true := hp
          rw [hq.1] at hout
          exact nomatch hout
  | tag opening inner closing =>
      cases q with
      | outside other =>
          obtain ⟨rfl, -⟩ := List.cons.inj h
          have hout : opening.kind.isOutside = true := hq
          rw [hp.1] at hout
          exact nomatch hout
      | tag opening' inner' closing' =>
          obtain ⟨-, hin, hend⟩ := hp
          obtain ⟨-, hin', hend'⟩ := hq
          obtain ⟨rfl, hcons⟩ := List.cons.inj h
          have htail : inner ++ closing :: ps = inner' ++ closing' :: qs := by
            rw [List.append_cons, List.append_cons inner']
            exact hcons
          have hinner : inner = inner' := by
            rw [← @takeWhile_group inner ps closing hin hend, htail, takeWhile_group hin' hend']
          subst hinner
          obtain ⟨rfl, rfl⟩ := List.cons.inj (List.append_cancel_left htail)
          exact ⟨rfl, rfl⟩

theorem Part.tokens_ne_nil (p : Part) : p.tokens ≠ [] := by
  cases p <;> rintro ⟨⟩

/-- **One way only.**  A token stream splits in at most one way. -/
theorem Splits.unique {tokens : List Token} {parts others : List Part} (h : Splits tokens parts)
    (h' : Splits tokens others) : others = parts := by
  induction parts generalizing tokens others with
  | nil =>
      have hnil : others.flatMap Part.tokens = [] := h'.covers.trans h.covers.symm
      cases others with
      | nil => rfl
      | cons q qs => exact absurd (List.append_eq_nil_iff.mp hnil).1 q.tokens_ne_nil
  | cons p ps ih =>
      cases others with
      | nil =>
          have hnil := h.covers.trans h'.covers.symm
          exact absurd (List.append_eq_nil_iff.mp hnil).1 p.tokens_ne_nil
      | cons q qs =>
          obtain ⟨rfl, heq⟩ := (h.groups p (List.mem_cons_self ..)).eq_of_append
            (h'.groups q (List.mem_cons_self ..)) (h.covers.trans h'.covers.symm)
          have hps : Splits (ps.flatMap Part.tokens) ps :=
            ⟨rfl, fun part hpart => h.groups part (List.mem_cons_of_mem _ hpart)⟩
          have hqs : Splits (ps.flatMap Part.tokens) qs :=
            ⟨heq.symm, fun part hpart => h'.groups part (List.mem_cons_of_mem _ hpart)⟩
          rw [ih hps hqs]

/-- Another part after those of a token stream. -/
theorem Splits.concat {tokens : List Token} {parts : List Part} {part : Part}
    (h : Splits tokens parts) (hpart : part.IsGroup) :
    Splits (tokens ++ part.tokens) (parts ++ [part]) where
  covers := by rw [List.flatMap_append, h.covers, List.flatMap_singleton]
  groups p hp := by
    rcases List.mem_append.mp hp with hp | hp
    · exact h.groups p hp
    · rw [List.mem_singleton.mp hp]
      exact hpart

-- ── the shape of a group ─────────────────────────────────────────────────────────

/-- How many of the tokens are of the given kind. -/
def countKind (kind : TokenKind) (tokens : List Token) : Nat :=
  tokens.countP (·.kind = kind)

@[simp] theorem countKind_concat_self (kind : TokenKind) (tokens : List Token) (span : Span) :
    countKind kind (tokens ++ [⟨kind, span⟩]) = countKind kind tokens + 1 := by
  simp [countKind]

@[simp] theorem countKind_concat_of_ne {kind other : TokenKind} (h : other ≠ kind)
    (tokens : List Token) (span : Span) :
    countKind kind (tokens ++ [⟨other, span⟩]) = countKind kind tokens := by
  simp [countKind, h]

theorem countKind_pos_iff {kind : TokenKind} {tokens : List Token} :
    0 < countKind kind tokens ↔ ∃ t ∈ tokens, t.kind = kind := by
  simp [countKind, List.countP_pos_iff]

/-- A place in a list with one more element is the last one, or a place in the list before. -/
theorem append_cons_eq_concat {α : Type} {xs front back : List α} {x y : α}
    (h : xs ++ [x] = front ++ y :: back) :
    (xs = front ∧ x = y ∧ back = []) ∨ ∃ rest, xs = front ++ y :: rest ∧ back = rest ++ [x] := by
  rcases List.eq_nil_or_concat back with rfl | ⟨rest, z, rfl⟩
  · obtain ⟨rfl, hxy⟩ := List.append_inj' h rfl
    exact Or.inl ⟨rfl, (List.cons.inj hxy).1, rfl⟩
  · rw [List.concat_eq_append, ← List.cons_append, ← List.append_assoc] at h
    obtain ⟨rfl, hxz⟩ := List.append_inj' h rfl
    obtain rfl := (List.cons.inj hxz).1
    exact Or.inr ⟨rest, rfl, List.concat_eq_append⟩

/-- The shape of a tag: what stands where between its open delimiter and the token that ends it. -/
structure TagShape (d : Document) (opening : Token) (inner : List Token) (closing : Token) :
    Prop where
  endTag_once : countKind .endTag inner ≤ 1
  /-- The close delimiter is that of an end tag if there is a name of an end tag, and only then. -/
  of_endDelimiter : closing.kind = .endDelimiter → ∃ t ∈ inner, t.kind = .endTag
  of_closeDelimiter : closing.kind = .closeDelimiter → ∀ t ∈ inner, t.kind ≠ .endTag
  /-- A dash that trims the text before the tag comes first, right behind the open delimiter. -/
  trimLeft : ∀ front t back, inner = front ++ t :: back → t.kind = .trimLeft →
    front = [] ∧ t.span.start = opening.span.stop
  /-- A dash that trims the text after the tag comes last, right before the close delimiter. -/
  trimRight : ∀ front t back, inner = front ++ t :: back → t.kind = .trimRight →
    back = [] ∧ (closing.kind = .closeDelimiter ∨ closing.kind = .endDelimiter) ∧
      closing.span.start = t.span.stop
  /-- Both delimiters are of one form, and only a tag of the output form may have a mark. -/
  form : ∃ form : TagForm, opening.text? d = some form.opener ∧
    (closing.kind = .closeDelimiter ∨ closing.kind = .endDelimiter →
      closing.text? d = some form.closer) ∧
    countKind .outputTag inner ≤ if form = .output then 1 else 0

/-- A group has the shape of a tag. -/
def Part.Shaped (d : Document) : Part → Prop
  | .outside _ => True
  | .tag opening inner closing => TagShape d opening inner closing

namespace Machine

variable {γ : Type} [Grammar γ] {ending : Bool} {bound : Nat} {m : Machine γ} {r : Reader}
  {reply : Reply γ}

-- ── one step ─────────────────────────────────────────────────────────────────────

/-- What a step inside a tag adds to the group of its tag.  The phase `opened`, once it is left,
    does not come back, so what is found in it is found once. -/
inductive GroupStep (m : Machine γ) (r : Reader) (reply : Reply γ) : TokenKind → Prop where
  | plain {kind} (hk : kind.isPlain = true)
      (hi : reply.machine.phase.isEnding = m.phase.isEnding)
      (ho : reply.machine.phase = .opened →
        m.phase = .opened ∧ r.offset < (reply.extent.apply r).offset) :
      GroupStep m r reply kind
  | trimLeft (hp : m.phase = .opened)
      (ho : r.offset = m.tag.start + m.tag.form.opener.length)
      (hq : reply.machine.phase = .opened) (hx : reply.extent = .take 1)
      (hn : r.offset < (reply.extent.apply r).offset) : GroupStep m r reply .trimLeft
  | outputTag (hp : m.phase = .opened) (hf : m.tag.form = .output)
      (hq : reply.machine.phase = .outputValue) : GroupStep m r reply .outputTag
  | endTag (hp : m.phase = .opened) (hq : reply.machine.phase = .close true) :
      GroupStep m r reply .endTag
  | trimRight (hq : reply.machine.phase = .close m.phase.isEnding)
      (hb : reply.machine.brackets = ∅) (hx : reply.extent = .take 1)
      (hc : m.tag.form.closer <+: r.rest.drop 1) : GroupStep m r reply .trimRight
  | closed (hq : reply.machine.phase = .literal)
      (hx : reply.extent = .take m.tag.form.closer.length) (hc : m.tag.form.closer <+: r.rest) :
      GroupStep m r reply (if m.phase.isEnding then .endDelimiter else .closeDelimiter)
  | abandoned (hq : reply.machine.phase = .literal) :
      GroupStep m r reply (.invalid .missingClose)

theorem isEnding_identity (m : Machine γ) : m.identity.2.isEnding = false := by
  rw [identity]
  split
  · rfl
  · split
    all_goals first | rfl | (dsimp only; split <;> rfl)

/-- Every step inside a tag is one of these. -/
theorem TagStep.groupStep (hm : m.BracketSound)
    (h : TagStep m.phase.isEnding bound m r reply) :
    ∃ kind, reply.event = .token kind ∧ GroupStep m r reply kind := by
  have hnamed : ∀ {p : Phase}, p.isNamed = true → p ≠ .opened := by
    rintro p hp rfl
    exact nomatch hp
  have hmove : ∀ {n : Nat}, 0 < n → n ≤ r.rest.length → r.offset < r.offsetAt n := by
    intro n hn hle
    rw [← Reader.offsetAt_zero r]
    exact Reader.offsetAt_lt hn hle
  cases h with
  | @space kind n g hk hn hc =>
      refine ⟨kind, rfl, .plain ?_ rfl fun hp => ⟨hp, ?_⟩⟩
      · rcases hk with rfl | rfl <;> rfl
      · rw [offset_apply]
        exact hmove hn hc.le_length
  | trimLeft hp ho hh =>
      refine ⟨_, rfl, .trimLeft hp ho rfl rfl ?_⟩
      rw [offset_apply]
      exact hmove Nat.one_pos (length_pos_of_head? hh)
  | outputTag hp hf _ => exact ⟨_, rfl, .outputTag hp hf rfl⟩
  | endTag hp _ _ => exact ⟨_, rfl, .endTag hp rfl⟩
  | @startTag g name hp _ he =>
      obtain ⟨kind, blocks, hk, heq⟩ := takeStartTag_eq { m with grammar := g } name r.document
      rw [heq]
      refine ⟨kind, rfl, .plain (TokenKind.isPlain_of_isPart hk) ?_ fun hq => ?_⟩
      · exact (isEnding_identity _).trans he.symm
      · exact absurd hq (hnamed (isNamed_identity _))
  | part hk _ _ hp he | keyPath hk _ _ hp he =>
      exact ⟨_, rfl, .plain (TokenKind.isPlain_of_isPart hk) he fun hq => absurd hq (hnamed hp)⟩
  | @mark fault _ _ hf hp he _ =>
      have hk : (TokenKind.invalid fault).isPart = true := hf
      exact ⟨_, rfl, .plain (TokenKind.isPlain_of_isPart hk) he fun hq => absurd hq (hnamed hp)⟩
  | @recovered fault _ hf he _ =>
      have hk : (TokenKind.invalid fault).isPart = true := hf
      refine ⟨_, rfl, .plain (TokenKind.isPlain_of_isPart hk) he.symm ?_⟩
      rintro ⟨⟩
  | openBracket _ hp he _ | closeBracket _ _ hp he _ =>
      exact ⟨_, rfl, .plain rfl he fun hq => absurd hq (hnamed hp)⟩
  | dropBracket hb hp _ _ =>
      rcases hp with rfl | rfl
      · -- right behind the open delimiter there is no bracket to give up
        refine ⟨_, rfl, .plain rfl rfl fun hq => ?_⟩
        rw [hm (Or.inr hq)] at hb
        exact nomatch hb
      · refine ⟨_, rfl, .plain rfl rfl ?_⟩
        rintro ⟨⟩
  | trimRight hb hd =>
      obtain ⟨tail, htail⟩ := hd
      refine ⟨_, rfl, .trimRight rfl (Brackets.eq_empty_of_isEmpty hb) rfl ⟨tail, ?_⟩⟩
      rw [← htail]
      rfl
  | closed _ hc => exact ⟨_, rfl, .closed rfl rfl hc⟩
  | abandoned _ _ => exact ⟨_, rfl, .abandoned rfl⟩

/-- What is found outside tags, but for an open delimiter, is text or a token of the kinds that
    stand there. -/
theorem TextStep.isOutside (hm : m.BodySound) (hr : r.rest ≠ []) (h : TextStep m r reply)
    (hopen : reply.event ≠ .token .openDelimiter) {kind : TokenKind}
    (he : reply.event = .token kind) : kind.isOutside = true := by
  cases h with
  | @body body hb =>
      obtain ⟨n, event, kept, heq, -, ⟨-, rfl, -⟩ | ⟨-, rfl⟩⟩ := stepBody_eq m body hr
      · rw [heq] at he
        cases he
      · rw [heq] at he
        obtain rfl : body.kind = kind := Event.token.inj he
        simp only [TokenKind.isOutside, hm body hb, Bool.or_true, Bool.true_or]
  | opens _ _ => exact absurd rfl hopen
  | element _ _ _ =>
      rw [stepElement] at he
      split at he <;> obtain rfl := Event.token.inj he <;> rfl
  | endElement _ _ _ =>
      rw [stepEndElement] at he
      split at he <;> obtain rfl := Event.token.inj he <;> rfl
  | text _ _ _ => cases he
  | markup hk _ _ _ _ _ _ =>
      obtain rfl := Event.token.inj he
      simp only [TokenKind.isOutside, hk, Bool.true_or]
  | space hk _ _ _ =>
      obtain rfl := Event.token.inj he
      rcases hk with rfl | rfl <;> rfl
  | selfClose _ _ | leave _ =>
      obtain rfl := Event.token.inj he
      rfl

/-- The close delimiter comes next, and nothing else is to be done before it. -/
structure AtCloser (m : Machine γ) (r : Reader) : Prop where
  phase : ∃ ending, m.phase = .close ending
  brackets : m.brackets = ∅
  closer : m.tag.form.closer <+: r.rest

/-- Where the close delimiter comes next it is taken. -/
theorem AtCloser.closed (h : m.AtCloser r) :
    (m.step r).event = .token .closeDelimiter ∨ (m.step r).event = .token .endDelimiter := by
  obtain ⟨⟨ending, hphase⟩, hbrackets, hcloser⟩ := h
  have hin : m.phase.inTag = true := by rw [hphase]; rfl
  have hrank : m.phase.rank = 1 := by rw [hphase]; rfl
  have hstep := step_inTag m r hin
  rw [hrank] at hstep
  -- no text is taken before the close delimiter, and no phase of a smaller rank is inside a tag
  have hclear : ∀ {n : Nat}, 0 < n → Clear m.tag.form n r.rest → False := fun hn hc =>
    hc.no_stop 0 hn _ (List.mem_cons_self ..) hcloser
  have hopened : m.phase ≠ .opened := by
    rw [hphase]
    rintro ⟨⟩
  generalize m.step r = reply at hstep
  cases hstep with
  | space _ hn hc => exact (hclear hn hc).elim
  | part _ hn hc _ _ => exact (hclear hn hc).elim
  | keyPath _ hn hc _ _ => exact (hclear hn hc).elim
  | trimLeft hp _ _ => exact absurd hp hopened
  | outputTag hp _ _ => exact absurd hp hopened
  | startTag hp _ _ => exact absurd hp hopened
  | endTag hp _ _ => exact absurd hp hopened
  | mark _ hp _ hb => exact absurd (Phase.rank_pos (Phase.inTag_of_isNamed hp)) (by omega)
  | recovered _ _ hb => exact absurd hb (Nat.lt_irrefl 1)
  | openBracket _ _ _ hb => exact absurd hb (Nat.lt_irrefl 1)
  | closeBracket _ _ _ _ hb => exact absurd hb (Nat.lt_irrefl 1)
  | dropBracket hb _ _ _ =>
      rw [hbrackets] at hb
      exact nomatch hb
  | trimRight _ hd =>
      obtain ⟨tail, htail⟩ := hd
      obtain ⟨rest, hrest⟩ := hcloser
      have hheads := congrArg List.head? (htail.trans hrest.symm)
      cases hform : m.tag.form <;> rw [hform] at hheads <;> exact nomatch hheads
  | closed _ _ =>
      cases m.phase.isEnding with
      | false => exact Or.inl rfl
      | true => exact Or.inr rfl
  | abandoned _ hn =>
      obtain ⟨j, hj, -⟩ := tagEnd?_eq_none_iff.mp hn 0 hcloser
      exact absurd hj (Nat.not_lt_zero j)

-- ── what a step adds ─────────────────────────────────────────────────────────────

variable {kind : TokenKind} {inner : List Token}

omit [Grammar γ] in
/-- The name of an end tag is found once: it sets the flag of the phase, which is never taken
    back. -/
theorem GroupStep.countKind_endTag (span : Span) (h : GroupStep m r reply kind)
    (hin : reply.machine.phase.inTag = true)
    (hold : countKind .endTag inner = if m.phase.isEnding then 1 else 0) :
    countKind .endTag (inner ++ [⟨kind, span⟩]) =
      if reply.machine.phase.isEnding then 1 else 0 := by
  cases h with
  | plain hk hi _ =>
      have hne : kind ≠ .endTag := by
        rintro rfl
        exact nomatch hk
      rw [countKind_concat_of_ne hne, hold, hi]
  | trimLeft hp _ hq _ _ =>
      simp [hold, hp, hq]
  | outputTag hp _ hq =>
      simp [hold, hp, hq, Phase.isEnding]
  | endTag hp hq =>
      simp [hold, hp, hq, Phase.isEnding]
  | trimRight hq _ _ _ =>
      have hkept : reply.machine.phase.isEnding = m.phase.isEnding := by
        rw [hq]
        rfl
      simp [hold, hkept]
  | closed hq _ _ | abandoned hq =>
      rw [hq] at hin
      exact nomatch hin

omit [Grammar γ] in
/-- The mark of an output tag is found once, in the phase `opened`, which is left with it. -/
theorem GroupStep.countKind_outputTag (span : Span) (h : GroupStep m r reply kind)
    (hin : reply.machine.phase.inTag = true)
    (hold : countKind .outputTag inner ≤ if m.tag.form = .output then 1 else 0)
    (hnone : m.phase = .opened → countKind .outputTag inner = 0) :
    countKind .outputTag (inner ++ [⟨kind, span⟩]) ≤ (if m.tag.form = .output then 1 else 0) ∧
      (reply.machine.phase = .opened →
        countKind .outputTag (inner ++ [⟨kind, span⟩]) = 0) := by
  cases h with
  | plain hk _ ho =>
      have hne : kind ≠ .outputTag := by
        rintro rfl
        exact nomatch hk
      rw [countKind_concat_of_ne hne]
      exact ⟨hold, fun hq => hnone (ho hq).1⟩
  | outputTag hp hf hq =>
      simp [hnone hp, hf, hq]
  | trimLeft hp _ _ _ _ =>
      simp [hnone hp]
  | endTag _ hq =>
      simp [hold, hq]
  | trimRight hq _ _ _ =>
      simp [hold, hq]
  | closed hq _ _ | abandoned hq =>
      rw [hq] at hin
      exact nomatch hin

omit [Grammar γ] in
/-- The phase `opened` is kept only by text taken in it. -/
theorem GroupStep.opened_of_opened (h : GroupStep m r reply kind)
    (hq : reply.machine.phase = .opened) :
    m.phase = .opened ∧ r.offset < (reply.extent.apply r).offset := by
  cases h with
  | plain _ _ ho => exact ho hq
  | trimLeft hp _ _ _ hn => exact ⟨hp, hn⟩
  | outputTag _ _ hq' => exact nomatch hq'.symm.trans hq
  | endTag _ hq' => exact nomatch hq'.symm.trans hq
  | trimRight hq' _ _ _ => exact nomatch hq'.symm.trans hq
  | closed hq' _ _ => exact nomatch hq'.symm.trans hq
  | abandoned hq' => exact nomatch hq'.symm.trans hq

omit [Grammar γ] in
/-- The left dash is found right behind the open delimiter. -/
theorem GroupStep.of_trimLeft (h : GroupStep m r reply kind) (hk : kind = .trimLeft) :
    m.phase = .opened ∧ r.offset = m.tag.start + m.tag.form.opener.length ∧
      (reply.extent.apply r).span.start = r.offset := by
  cases h with
  | trimLeft hp ho _ hx _ =>
      refine ⟨hp, ho, ?_⟩
      rw [hx]
      exact Reader.start_capture 1 r
  | plain hplain _ _ =>
      rw [hk] at hplain
      exact nomatch hplain
  | closed _ _ _ => split at hk <;> exact nomatch hk
  | _ => exact nomatch hk

omit [Grammar γ] in
/-- Behind the right dash the close delimiter comes next. -/
theorem GroupStep.of_trimRight (h : GroupStep m r reply kind) (hk : kind = .trimRight)
    (ht : reply.machine.tag = m.tag) : reply.machine.AtCloser (reply.extent.apply r) := by
  cases h with
  | trimRight hq hb hx hc =>
      refine ⟨⟨_, hq⟩, hb, ?_⟩
      rw [ht, hx, rest_apply]
      exact hc
  | plain hplain _ _ =>
      rw [hk] at hplain
      exact nomatch hplain
  | closed _ _ _ => split at hk <;> exact nomatch hk
  | _ => exact nomatch hk

omit [Grammar γ] in
/-- The close delimiter is that of the form, and of an end tag exactly when its name was found. -/
theorem GroupStep.of_delimiter (h : GroupStep m r reply kind)
    (hk : kind = .closeDelimiter ∨ kind = .endDelimiter) :
    (m.phase.isEnding = true ↔ kind = .endDelimiter) ∧
      reply.extent = .take m.tag.form.closer.length ∧ m.tag.form.closer <+: r.rest := by
  cases h with
  | closed _ hx hc =>
      refine ⟨?_, hx, hc⟩
      cases m.phase.isEnding <;> simp
  | plain hplain _ _ => rcases hk with rfl | rfl <;> exact nomatch hplain
  | _ => rcases hk with hk | hk <;> exact nomatch hk

end Machine

namespace Scanner

variable {γ : Type} [Grammar γ] {s : Scanner γ} {opening : Token} {inner : List Token}

-- ── the tag being scanned ────────────────────────────────────────────────────────

/-- The tokens of the tag being scanned, up to the cursor: its open delimiter and what follows. -/
structure OpenTag (s : Scanner γ) (opening : Token) (inner : List Token) : Prop where
  inTag : s.machine.phase.inTag = true
  opens : opening.kind = .openDelimiter
  text : opening.text? s.reader.document = some s.machine.tag.form.opener
  stop : opening.span.stop = s.machine.tag.start + s.machine.tag.form.opener.length
  before : opening.span.stop ≤ s.reader.offset
  inside : ∀ t ∈ inner, t.kind ≠ .openDelimiter ∧ t.endsTag = false
  endTags : countKind .endTag inner = if s.machine.phase.isEnding then 1 else 0
  marks : countKind .outputTag inner ≤ if s.machine.tag.form = .output then 1 else 0
  unmarked : s.machine.phase = .opened → countKind .outputTag inner = 0
  /-- Right behind the open delimiter nothing has been found, except white space and a dash. -/
  fresh : s.machine.phase = .opened → inner = [] ∨ opening.span.stop < s.reader.offset
  trimLeft : ∀ front t back, inner = front ++ t :: back → t.kind = .trimLeft →
    front = [] ∧ t.span.start = opening.span.stop
  trimRight : ∀ front t back, inner = front ++ t :: back → t.kind = .trimRight →
    back = [] ∧ s.machine.AtCloser s.reader ∧ s.reader.offset = t.span.stop

/-- An open delimiter begins a group. -/
theorem openTag_of_opens (hm : s.machine.BodySound) (he : s.scanHere.1 = .token .openDelimiter) :
    OpenTag s.scanHere.2 ⟨.openDelimiter, s.scanHere.2.reader.span⟩ [] := by
  obtain ⟨form, hpre, heq⟩ := Machine.step_eq_openTag hm he
  have hsize : byteSize form.opener = form.opener.length := by cases form <;> decide
  have hreader : s.scanHere.2.reader = s.reader.capture form.opener.length := by
    rw [reader_scanHere, heq]
    rfl
  have htext : s.scanHere.2.reader.token = form.opener := by
    rw [hreader, Reader.token_capture, ← List.prefix_iff_eq_take.mp hpre]
  have hstop : s.scanHere.2.reader.offset = s.reader.offset + form.opener.length := by
    rw [hreader, Reader.offset_capture, Reader.offsetAt, ← List.prefix_iff_eq_take.mp hpre, hsize]
  have hmachine : s.scanHere.2.machine = (s.machine.openTag form s.reader.offset).machine := by
    rw [machine_scanHere, heq]
  have hspan : s.scanHere.2.reader.span.stop = s.reader.offset + form.opener.length := hstop
  exact {
    inTag := by rw [hmachine]; rfl
    opens := rfl
    text := by
      rw [Token.text?_span, htext, hmachine]
      rfl
    stop := by
      rw [hspan, hmachine]
      rfl
    before := Nat.le_refl _
    inside := fun _ h => absurd h List.not_mem_nil
    endTags := by rw [hmachine]; rfl
    marks := Nat.zero_le _
    unmarked := fun _ => rfl
    fresh := fun _ => Or.inl rfl
    trimLeft := fun front t back h => by cases front <;> cases h
    trimRight := fun front t back h => by cases front <;> cases h }

/-- A token that stays inside the tag joins its group. -/
theorem OpenTag.extend (h : OpenTag s opening inner) (hm : s.machine.BracketSound)
    (hin : s.scanHere.2.machine.phase.inTag = true) :
    ∃ kind, s.scanHere.1 = .token kind ∧
      OpenTag s.scanHere.2 opening (inner ++ [⟨kind, s.scanHere.2.reader.span⟩]) := by
  have hstep := Machine.step_inTag s.machine s.reader h.inTag
  obtain ⟨kind, he, hgroup⟩ := hstep.groupStep hm
  have hstay : Machine.Stays s.machine s.reader (s.machine.step s.reader) := by
    rcases hstep.stays_or_leaves h.inTag with hstay | hleave
    · exact hstay
    · rw [machine_scanHere, hleave.phase_eq] at hin
      exact nomatch hin
  have htag : s.scanHere.2.machine.tag = s.machine.tag := hstay.tag_eq
  have hmoves : s.reader.offset ≤ s.scanHere.2.reader.offset := offset_le_apply _ _
  have hmarks := hgroup.countKind_outputTag s.scanHere.2.reader.span hin h.marks h.unmarked
  refine ⟨kind, he, hin, h.opens, ?_, ?_, Nat.le_trans h.before hmoves, ?_,
    hgroup.countKind_endTag _ hin h.endTags, ?_, hmarks.2, ?_, ?_, ?_⟩
  · have hdoc : s.scanHere.2.reader.document = s.reader.document := document_apply _ _
    rw [htag, hdoc]
    exact h.text
  · rw [htag]
    exact h.stop
  · intro t ht
    rcases List.mem_append.mp ht with ht | ht
    · exact h.inside t ht
    · obtain ⟨other, hother, hne⟩ := hstay.event
      obtain rfl := Event.token.inj (he.symm.trans hother)
      have hends := hstay.not_endsTag
      rw [he] at hends
      rw [List.mem_singleton.mp ht]
      exact ⟨hne, hends⟩
  · rw [htag]
    exact hmarks.1
  · intro hq
    exact Or.inr (Nat.lt_of_le_of_lt h.before (hgroup.opened_of_opened hq).2)
  · intro front t back heq hkind
    rcases append_cons_eq_concat heq with ⟨rfl, rfl, -⟩ | ⟨rest, hinner, -⟩
    · obtain ⟨hp, ho, hstart⟩ := hgroup.of_trimLeft hkind
      have hplace : opening.span.stop = s.reader.offset := h.stop.trans ho.symm
      rcases h.fresh hp with hnil | hlt
      · exact ⟨hnil, hstart.trans hplace.symm⟩
      · exact absurd hplace (Nat.ne_of_lt hlt)
    · exact h.trimLeft front t rest hinner hkind
  · intro front t back heq hkind
    rcases append_cons_eq_concat heq with ⟨rfl, rfl, rfl⟩ | ⟨rest, hinner, -⟩
    · exact ⟨rfl, hgroup.of_trimRight hkind htag, rfl⟩
    · -- behind a right dash there is no staying inside the tag
      obtain ⟨-, hcloser, -⟩ := h.trimRight front t rest hinner hkind
      have hends := hstay.not_endsTag
      rcases hcloser.closed with hclosed | hclosed <;> rw [hclosed] at hends <;> exact nomatch hends

/-- A token that leaves the tag ends its group. -/
theorem OpenTag.close (h : OpenTag s opening inner) (hm : s.machine.BracketSound)
    (hout : s.scanHere.2.machine.phase.inTag = false) :
    ∃ kind, s.scanHere.1 = .token kind ∧
      (Event.token kind).endsTag = true ∧
      TagShape s.reader.document opening inner ⟨kind, s.scanHere.2.reader.span⟩ := by
  have hstep := Machine.step_inTag s.machine s.reader h.inTag
  obtain ⟨kind, he, hgroup⟩ := hstep.groupStep hm
  have hends : (Event.token kind).endsTag = true := by
    rcases hstep.stays_or_leaves h.inTag with hstay | hleave
    · rw [machine_scanHere, hstay.inTag] at hout
      exact nomatch hout
    · rw [← he]
      exact hleave.endsTag
  have hstart : kind = .closeDelimiter ∨ kind = .endDelimiter →
      s.scanHere.2.reader.start = s.reader.offset ∧
        s.scanHere.2.reader.token = s.machine.tag.form.closer := by
    intro hk
    obtain ⟨-, hx, hc⟩ := hgroup.of_delimiter hk
    rw [reader_scanHere, hx]
    refine ⟨Reader.start_capture _ _, ?_⟩
    show (s.reader.capture _).token = _
    rw [Reader.token_capture, ← List.prefix_iff_eq_take.mp hc]
  refine ⟨kind, he, hends, ?_⟩
  constructor
  · rw [h.endTags]
    split <;> decide
  · intro hk
    refine countKind_pos_iff.mp ?_
    rw [h.endTags, if_pos ((hgroup.of_delimiter (Or.inr hk)).1.mpr hk)]
    exact Nat.one_pos
  · intro hk t ht hend
    have hpos := countKind_pos_iff.mpr ⟨t, ht, hend⟩
    have hending : s.machine.phase.isEnding ≠ true := fun hending => by
      have hk' := (hgroup.of_delimiter (Or.inl hk)).1.mp hending
      exact nomatch hk.symm.trans hk'
    rw [h.endTags, if_neg hending] at hpos
    exact Nat.lt_irrefl 0 hpos
  · exact h.trimLeft
  · intro front t back heq hkind
    obtain ⟨hback, hcloser, hplace⟩ := h.trimRight front t back heq hkind
    have hdelimiter : kind = .closeDelimiter ∨ kind = .endDelimiter := by
      rcases hcloser.closed with hclosed | hclosed
      · exact Or.inl (Event.token.inj (he.symm.trans hclosed))
      · exact Or.inr (Event.token.inj (he.symm.trans hclosed))
    exact ⟨hback, hdelimiter, (hstart hdelimiter).1.trans hplace⟩
  · refine ⟨s.machine.tag.form, h.text, fun hk => ?_, h.marks⟩
    have hdoc : s.scanHere.2.reader.document = s.reader.document := document_apply _ _
    rw [← hdoc, Token.text?_span, (hstart hk).2]

-- ── whole documents ──────────────────────────────────────────────────────────────

/-- The tokens found so far fall into parts and, inside a tag, the beginning of one more. -/
inductive Grouped (s : Scanner γ) : List Token → Prop where
  | outside {tokens parts} (hsplits : Splits tokens parts)
      (hshaped : ∀ part ∈ parts, part.Shaped s.reader.document)
      (hout : s.machine.phase.inTag = false) : Grouped s tokens
  | inside {tokens parts opening inner} (hsplits : Splits tokens parts)
      (hshaped : ∀ part ∈ parts, part.Shaped s.reader.document)
      (htag : OpenTag s opening inner) : Grouped s (tokens ++ opening :: inner)

theorem shaped_concat {d : Document} {parts : List Part} {part : Part}
    (h : ∀ p ∈ parts, p.Shaped d) (hpart : part.Shaped d) : ∀ p ∈ parts ++ [part], p.Shaped d := by
  intro p hp
  rcases List.mem_append.mp hp with hp | hp
  · exact h p hp
  · rw [List.mem_singleton.mp hp]
    exact hpart

/-- A scan before the end keeps the tokens in groups. -/
theorem Grouped.scanHere {tokens : List Token} (h : s.Grouped tokens)
    (hm : s.machine.BracketSound) (hb : s.machine.BodySound) (he : s.scanHere.1 ≠ .finished) :
    s.scanHere.2.Grouped (tokens ++ (s.scanHere.2.tokenOf s.scanHere.1).toList) := by
  have hdoc : s.scanHere.2.reader.document = s.reader.document := document_apply _ _
  cases h with
  | @inside done parts opening inner hsplits hshaped htag =>
      rw [← hdoc] at hshaped
      cases hin : s.scanHere.2.machine.phase.inTag with
      | true =>
          obtain ⟨kind, hk, hnext⟩ := htag.extend hm hin
          rw [hk, tokenOf, Option.toList_some, List.append_assoc, List.cons_append]
          exact .inside hsplits hshaped hnext
      | false =>
          obtain ⟨kind, hk, hends, hshape⟩ := htag.close hm hin
          rw [← hdoc] at hshape
          have hpart : Part.IsGroup (.tag opening inner ⟨kind, s.scanHere.2.reader.span⟩) :=
            ⟨htag.opens, htag.inside, hends⟩
          rw [hk, tokenOf, Option.toList_some, List.append_assoc, List.cons_append]
          exact .outside (hsplits.concat hpart) (shaped_concat hshaped hshape) hin
  | @outside done parts hsplits hshaped hout =>
      rw [← hdoc] at hshaped
      obtain ⟨hr, hne⟩ := Machine.rest_ne_nil_of_outside hout he
      by_cases hopen : s.scanHere.1 = .token .openDelimiter
      · rw [hopen, tokenOf, Option.toList_some]
        exact .inside hsplits hshaped (openTag_of_opens hb hopen)
      · have hnext : s.scanHere.2.machine.phase.inTag = false := by
          rcases Machine.step_opens_or_stays hout hr with ⟨form, -, heq⟩ | ⟨-, hstays, -, -⟩
          · exact absurd (congrArg Reply.event heq) hopen
          · exact hstays
        cases hevent : s.scanHere.1 with
        | finished => exact absurd hevent he
        | text =>
            have hnone : s.scanHere.2.tokenOf .text = none := rfl
            rw [hnone, Option.toList_none, List.append_nil]
            exact .outside hsplits hshaped hnext
        | token kind =>
            have hkind : kind.isOutside = true :=
              (Machine.step_outside _ _ hout hr).isOutside hb hne hopen hevent
            have hpart : Part.IsGroup (.outside ⟨kind, s.scanHere.2.reader.span⟩) := hkind
            rw [tokenOf, Option.toList_some]
            exact .outside (hsplits.concat hpart) (shaped_concat hshaped trivial) hnext

/-- In a run from the start the tokens found so far are in groups. -/
theorem grouped_upTo {source : String} {grammar : γ} {n : Nat}
    (h : ∀ i < n, (ofString source grammar).eventAt i ≠ .finished) :
    ((ofString source grammar).after n).Grouped ((ofString source grammar).tokensUpTo n) := by
  induction n with
  | zero =>
      have hnone : ∀ {P : Part → Prop}, ∀ part ∈ [], P part := fun _ h => absurd h List.not_mem_nil
      exact .outside ⟨rfl, hnone⟩ hnone rfl
  | succ n ih =>
      have hold := ih fun i hi => h i (Nat.lt_succ_of_lt hi)
      rw [tokensUpTo_succ]
      exact hold.scanHere (bracketSound_after source grammar n) (bodySound_after source grammar n)
        (h n (Nat.lt_succ_self n))

end Scanner

/-- **The shape of the token stream.**  The tokens of a document, in any grammar, split in exactly
    one way into tokens outside tags and groups that go from an open delimiter to the first token
    that ends a tag; and every group has the shape of a tag. -/
theorem tokens_split {γ : Type} [Grammar γ] (source : String) (grammar : γ) :
    ∃ parts, Splits (tokenize source grammar).tokens parts ∧
      (∀ part ∈ parts, part.Shaped (.ofString source)) ∧
      ∀ others, Splits (tokenize source grammar).tokens others → others = parts := by
  obtain ⟨n, hend, hbefore, heq⟩ := Scanner.tokenize_eq source grammar
  have hout : ((Scanner.ofString source grammar).after n).machine.phase.inTag = false :=
    (Machine.step_finished_iff.mp hend).2
  have hgrouped := Scanner.grouped_upTo hbefore
  rw [heq]
  show ∃ parts, Splits ((Scanner.ofString source grammar).tokensUpTo n) parts ∧ _
  generalize (Scanner.ofString source grammar).tokensUpTo n = tokens at hgrouped
  cases hgrouped with
  | @outside tokens parts hsplits hshaped _ =>
      rw [Scanner.document_after] at hshaped
      exact ⟨parts, hsplits, hshaped, fun others hothers => hsplits.unique hothers⟩
  | inside _ _ htag => exact nomatch htag.inTag.symm.trans hout

end TemplateScan
