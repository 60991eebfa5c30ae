import RelAlgebra.Proofs.Rendering.Text

/-!
# Phrases over words

What a phrase makes of a list of words. `Phrase.Yields p ts vs R` says that the phrase reads the
words `ts` when the words `vs` follow them, and gives a value with the property `R`. And
`Phrase.Rejects p ts` says that it fails. There is one lemma for each way to build a phrase, so that
the rules of the grammar can be followed without looking at characters.

Alternatives are ordered and repetitions take what they can, so it matters that phrases fail where
they should. Mostly the first word decides that, and then it is computed: `Phrase.rejects`.
-/

namespace RelAlgebra

/-- Whether the shape does not match the next word, whose shape is given unless there is none. -/
def Shape.fails (shape : Shape) : Option Shape → Bool
  | none => !shape.nullable
  | some own => shape.clashes own

/-- The shape of the first word. -/
def firstShape (ts : List Token) : Option Shape := ts.head?.map (·.shape)

/-- Whether it follows from the next word that the phrase fails, given for which rules it does. -/
def Phrase.rejects (call : Rule → Option Shape → Bool) :
    {α : Type} → Phrase α → Option Shape → Bool
  | _, empty, _ | _, opt _, _ | _, many _, _ => false
  | _, never, _ => true
  | _, finish, first => first.isSome
  | _, word shape, first => shape.fails first
  | _, rule r, first => call r first
  | _, seq p _, first => p.rejects call first
  | _, alt p q, first => p.rejects call first && q.rejects call first
  | _, map _ p, first => p.rejects call first

/-- Whether it follows from the next word that the rule fails, looking into the given depth of
rules. -/
def Rule.rejectsWithin : Nat → Rule → Option Shape → Bool
  | 0, _, _ => false
  | depth + 1, r, first => r.body.rejects (rejectsWithin depth) first

/-- Whether it follows from the next word that the rule fails. -/
def Rule.rejects (r : Rule) (first : Option Shape) : Bool := rejectsWithin heights r first

/-- What the phrase makes of a single word of the given shape, if it can be told that it reads just
that word, given what the rules make of it. -/
def Phrase.single (call : (r : Rule) → Shape → Option (Lexeme → r.Value)) :
    {α : Type} → Phrase α → Shape → Option (Lexeme → α)
  | _, word shape, own => if shape = own then some id else none
  | _, rule r, own => call r own
  | _, alt p q, own =>
    match p.single call own with
    | some f => some f
    | none => if p.rejects Rule.rejects (some own) then q.single call own else none
  | _, map f p, own => (p.single call own).map (f ∘ ·)
  | _, _, _ => none

/-- What the rule makes of a single word, looking into the given depth of rules. -/
def Rule.singleWithin : Nat → (r : Rule) → Shape → Option (Lexeme → r.Value)
  | 0, _, _ => none
  | depth + 1, r, own => r.body.single (singleWithin depth) own

/-- What the rule makes of a single word of the given shape. -/
def Rule.single (r : Rule) (own : Shape) : Option (Lexeme → r.Value) := singleWithin heights r own

namespace Phrase

variable {α β : Type} {ts us vs : List Token}

/-- The phrase fails where the words stand. -/
def Rejects (p : Phrase α) (ts : List Token) : Prop :=
  ∀ c : Cursor, c.At ts → (p.read Rule.read c).outcome = .failed

/-- The phrase reads the words `ts` if `vs` follow, and gives a value with the property `R`. -/
def Yields (p : Phrase α) (ts vs : List Token) (R : α → Prop) : Prop :=
  ∀ c : Cursor, c.At (ts ++ vs) →
    ∃ a d, (p.read Rule.read c).outcome = .matched a d ∧ R a ∧ d.skipLayout.At vs

/-! ## Failure -/

/-- A rule fails if its body does. -/
theorem Rejects.rule {r : Rule} (h : r.body.Rejects ts) : (rule r).Rejects ts := by
  intro c hc
  rw [read, Rule.read_eq, Reading.outcome_settle]
  exact h c hc

/-- A word is not read where its shape does not match. -/
theorem rejects_word {shape : Shape} (h : shape.fails (firstShape ts) = true) :
    (word shape).Rejects ts := by
  intro c hc
  suffices hnone : shape.length? c.rest = none by simp [read, hnone]
  cases ts with
  | nil =>
    -- At the end of the text only the empty word matches.
    rw [hc.rest_eq_nil]
    cases hlen : shape.length? [] with
    | none => rfl
    | some n =>
      have hn := Shape.length?_eq_some hlen
      have hpos := hn.2 (by simpa [Shape.fails, firstShape] using h)
      simp only [List.length_nil] at hn
      omega
  | cons t ts => exact hc.length?_of_clashes h

/-- Two phrases one after the other fail if the first one does. -/
theorem Rejects.seq {p : Phrase α} {q : Phrase β} (h : p.Rejects ts) : (seq p q).Rejects ts := by
  intro c hc
  simp [read, h c hc, Outcome.bind]

/-- Alternatives fail if both of them do. -/
theorem Rejects.alt {p q : Phrase α} (hp : p.Rejects ts) (hq : q.Rejects ts) :
    (alt p q).Rejects ts := by
  intro c hc
  simp [read, hp c hc, hq c hc, Outcome.orElse]

/-- A function of the value does not help a phrase that fails. -/
theorem Rejects.map {p : Phrase α} {f : α → β} (h : p.Rejects ts) : (map f p).Rejects ts := by
  intro c hc
  simp [read, h c hc, Outcome.bind]

/-- A phrase fails if that follows from the next word. -/
theorem rejects_of_call {call : Rule → Option Shape → Bool}
    (hcall : ∀ r, call r (firstShape ts) = true → (rule r).Rejects ts) {p : Phrase α}
    (h : p.rejects call (firstShape ts) = true) : p.Rejects ts := by
  induction p with
  | empty | opt _ _ | many _ _ => simp [rejects] at h
  | never => exact fun _ _ => rfl
  | finish =>
    cases ts with
    | nil => simp [rejects, firstShape] at h
    | cons t ts =>
      intro c hc
      simp [read, hc.rest_ne_nil]
  | word shape => exact rejects_word h
  | rule r => exact hcall r h
  | seq p q ihp _ => exact (ihp h).seq
  | alt p q ihp ihq =>
    obtain ⟨hp, hq⟩ : p.rejects call (firstShape ts) = true ∧
      q.rejects call (firstShape ts) = true := by simpa [rejects] using h
    exact (ihp hp).alt (ihq hq)
  | map f p ih => exact (ih h).map

/-- A rule fails if that follows from the next word. -/
theorem rejects_rule {r : Rule} (h : r.rejects (firstShape ts) = true) : (rule r).Rejects ts := by
  have hwithin : ∀ depth r, Rule.rejectsWithin depth r (firstShape ts) = true →
      (rule r).Rejects ts := by
    intro depth
    induction depth with
    | zero => intro r h; simp [Rule.rejectsWithin] at h
    | succ depth ih => intro r h; exact .rule (rejects_of_call ih h)
  exact hwithin _ r h

/-- A phrase fails if that follows from the next word. -/
theorem rejects_of_first {p : Phrase α} (h : p.rejects Rule.rejects (firstShape ts) = true) :
    p.Rejects ts :=
  rejects_of_call (fun _ => rejects_rule) h

/-! ## Success -/

/-- A property of the value may be replaced by one that it implies. -/
theorem Yields.mono {p : Phrase α} {R S : α → Prop} (h : p.Yields ts vs R)
    (hRS : ∀ a, R a → S a) : p.Yields ts vs S := by
  intro c hc
  obtain ⟨a, d, hread, ha, hd⟩ := h c hc
  exact ⟨a, d, hread, hRS a ha, hd⟩

/-- A rule reads what its body reads. -/
theorem Yields.rule {r : Rule} {R : r.Value → Prop} (h : r.body.Yields ts vs R) :
    (rule r).Yields ts vs R := by
  intro c hc
  obtain ⟨a, d, hread, ha, hd⟩ := h c hc
  refine ⟨a, d, ?_, ha, hd⟩
  rw [read, Rule.read_eq, Reading.outcome_settle, hread]

/-- A word is read by its own shape. -/
theorem yields_word {t : Token} {shape : Shape} (ht : t.shape = shape) :
    (word shape).Yields [t] vs (·.text = String.ofList t.text) := by
  subst ht
  intro c hc
  rw [List.singleton_append] at hc
  refine ⟨⟨String.ofList t.text, c.loc⟩, c.advance t.text.length, ?_, rfl, hc.next⟩
  simp [read, hc.length?, hc.take]

/-- A function of the value is given if the value is. -/
theorem Yields.map {p : Phrase α} {R : α → Prop} (h : p.Yields ts vs R) (f : α → β) :
    (f <$> p).Yields ts vs fun b => ∃ a, R a ∧ b = f a := by
  intro c hc
  obtain ⟨a, d, hread, ha, hd⟩ := h c hc
  refine ⟨f a, d, ?_, ⟨a, ha, rfl⟩, hd⟩
  change ((p.read Rule.read c).map f).outcome = _
  rw [Reading.outcome_map, hread]
  rfl

/-- The first alternative is taken if it reads the words. -/
theorem Yields.left {p q : Phrase α} {R : α → Prop} (h : p.Yields ts vs R) :
    (p <|> q).Yields ts vs R := by
  intro c hc
  obtain ⟨a, d, hread, ha, hd⟩ := h c hc
  refine ⟨a, d, ?_, ha, hd⟩
  change ((p.read Rule.read c).orElse fun _ => q.read Rule.read c).outcome = _
  rw [Reading.outcome_orElse, hread]
  rfl

/-- The second alternative is taken if the first one fails. -/
theorem Yields.right {p q : Phrase α} {R : α → Prop} (hp : p.Rejects (ts ++ vs))
    (h : q.Yields ts vs R) : (p <|> q).Yields ts vs R := by
  intro c hc
  obtain ⟨a, d, hread, ha, hd⟩ := h c hc
  refine ⟨a, d, ?_, ha, hd⟩
  change ((p.read Rule.read c).orElse fun _ => q.read Rule.read c).outcome = _
  rw [Reading.outcome_orElse, hp c hc]
  exact hread

/-- A single word is read as it was computed. -/
theorem yields_of_call {call : (r : Rule) → Shape → Option (Lexeme → r.Value)} {t : Token}
    (hcall : ∀ r f, call r t.shape = some f →
      (rule r).Yields [t] vs fun a => ∃ l : Lexeme, l.text = String.ofList t.text ∧ a = f l)
    {p : Phrase α} {f : Lexeme → α} (h : p.single call t.shape = some f) :
    p.Yields [t] vs fun a => ∃ l : Lexeme, l.text = String.ofList t.text ∧ a = f l := by
  induction p with
  | word shape =>
    simp only [single, Option.ite_none_right_eq_some, Option.some.injEq] at h
    obtain ⟨rfl, rfl⟩ := h
    exact (yields_word rfl).mono fun l hl => ⟨l, hl, rfl⟩
  | rule r => exact hcall r f h
  | alt p q ihp ihq =>
    simp only [single] at h
    split at h
    · next g hg =>
      obtain rfl : g = f := Option.some.inj h
      exact (ihp hg).left
    · -- The first alternative is passed over where it is known to fail.
      simp only [Option.ite_none_right_eq_some] at h
      exact .right (rejects_of_first h.1) (ihq h.2)
  | map g p ih =>
    obtain ⟨e, he, rfl⟩ := Option.map_eq_some_iff.1 h
    refine ((ih he).map g).mono ?_
    rintro _ ⟨_, ⟨l, hl, rfl⟩, rfl⟩
    exact ⟨l, hl, rfl⟩
  | _ => simp [single] at h

/-- A rule reads a single word as it was computed. -/
theorem yields_single {r : Rule} {t : Token} {f : Lexeme → r.Value}
    (h : r.single t.shape = some f) :
    (rule r).Yields [t] vs fun a => ∃ l : Lexeme, l.text = String.ofList t.text ∧ a = f l := by
  have hwithin : ∀ depth r (f : Lexeme → r.Value), Rule.singleWithin depth r t.shape = some f →
      (rule r).Yields [t] vs fun a => ∃ l : Lexeme, l.text = String.ofList t.text ∧ a = f l := by
    intro depth
    induction depth with
    | zero => intro r f h; simp [Rule.singleWithin] at h
    | succ depth ih => intro r f h; exact .rule (yields_of_call ih h)
  exact hwithin _ r f h

/-- A phrase reads a single word as it was computed. -/
theorem yields_of_single {p : Phrase α} {t : Token} {f : Lexeme → α}
    (h : p.single Rule.single t.shape = some f) :
    p.Yields [t] vs fun a => ∃ l : Lexeme, l.text = String.ofList t.text ∧ a = f l :=
  yields_of_call (fun _ _ => yields_single) h

/-- The second phrase reads the words that stand after those of the first one. -/
theorem Yields.seq {p : Phrase α} {q : Phrase β} {R : α → Prop} {S : β → Prop}
    (hp : p.Yields ts (us ++ vs) R) (hq : q.Yields us vs S) :
    (seq p q).Yields (ts ++ us) vs fun ab => R ab.1 ∧ S ab.2 := by
  intro c hc
  rw [List.append_assoc] at hc
  obtain ⟨a, d, hread, ha, hd⟩ := hp c hc
  obtain ⟨b, e, hread', hb, he⟩ := hq d.skipLayout hd
  refine ⟨(a, b), e, ?_, ⟨ha, hb⟩, he⟩
  simp [read, hread, hread', Outcome.bind]

/-- Of two phrases one after the other, the second one may fail after the first one. -/
theorem Rejects.seq_right {p : Phrase α} {q : Phrase β} {R : α → Prop} (hp : p.Yields ts vs R)
    (hq : q.Rejects vs) : (Phrase.seq p q).Rejects (ts ++ vs) := by
  intro c hc
  obtain ⟨a, d, hread, -, hd⟩ := hp c hc
  simp [read, hread, hq d.skipLayout hd, Outcome.bind]

/-- A function that is read is given the value that is read after it. -/
theorem Yields.ap {p : Phrase (α → β)} {q : Phrase α} {R : (α → β) → Prop} {S : α → Prop}
    (hp : p.Yields ts (us ++ vs) R) (hq : q.Yields us vs S) :
    (p <*> q).Yields (ts ++ us) vs fun b => ∃ f a, R f ∧ S a ∧ b = f a :=
  ((hp.seq hq).map _).mono fun _ ⟨(f, a), ⟨hf, ha⟩, h⟩ => ⟨f, a, hf, ha, h⟩

/-- Of two phrases one after the other, the value of the first one is given. -/
theorem Yields.seqLeft {p : Phrase α} {q : Phrase β} {R : α → Prop} {S : β → Prop}
    (hp : p.Yields ts (us ++ vs) R) (hq : q.Yields us vs S) :
    (p <* q).Yields (ts ++ us) vs R :=
  ((hp.seq hq).map _).mono fun _ ⟨_, ⟨ha, _⟩, h⟩ => h ▸ ha

/-- Of two phrases one after the other, the value of the second one is given. -/
theorem Yields.seqRight {p : Phrase α} {q : Phrase β} {R : α → Prop} {S : β → Prop}
    (hp : p.Yields ts (us ++ vs) R) (hq : q.Yields us vs S) :
    (p *> q).Yields (ts ++ us) vs S :=
  ((hp.seq hq).map _).mono fun _ ⟨_, ⟨_, hb⟩, h⟩ => h ▸ hb

/-- What may be there is read if it is there. -/
theorem Yields.opt {p : Phrase α} {R : α → Prop} (h : p.Yields ts vs R) :
    (opt p).Yields ts vs fun o => ∃ a, R a ∧ o = some a := by
  intro c hc
  obtain ⟨a, d, hread, ha, hd⟩ := h c hc
  refine ⟨some a, d, ?_, ⟨a, ha, rfl⟩, hd⟩
  simp [read, hread, Outcome.bind, Outcome.orElse]

/-- What may be there is passed over if it is not there. -/
theorem Rejects.opt {p : Phrase α} (h : p.Rejects vs) : (opt p).Yields [] vs (· = none) := by
  intro c hc
  rw [List.nil_append] at hc
  refine ⟨none, c, ?_, rfl, ?_⟩
  · simp [read, h c hc, Outcome.bind, Outcome.orElse]
  · rw [hc.skipLayout]
    exact hc

/-! ## Repetition -/

/-- A repetition of the phrase reads the words, whether it begins or goes on after layout. -/
structure YieldsAll (p : Phrase α) (ts vs : List Token) (R : List α → Prop) : Prop where
  many : (many p).Yields ts vs R
  more : ∀ (bound : Nat) (c : Cursor), c.skipLayout.At (ts ++ vs) → c.rest.length < bound →
    ∃ as d, (Reading.repeated (p.read Rule.read) bound c).outcome = .matched as d ∧ R as ∧
      d.skipLayout.At vs

/-- A repetition ends where its phrase fails. -/
theorem Rejects.yieldsAll {p : Phrase α} (h : p.Rejects vs) : p.YieldsAll [] vs (· = []) := by
  constructor
  · intro c hc
    rw [List.nil_append] at hc
    refine ⟨[], c, ?_, rfl, ?_⟩
    · simp [read, h c hc, Outcome.bind, Outcome.orElse]
    · rw [hc.skipLayout]
      exact hc
  · -- It may end at once, as above, or after layout that belongs to what follows.
    intro bound c hc hbound
    cases bound with
    | zero => omega
    | succ bound =>
      refine ⟨[], c, ?_, rfl, hc⟩
      simp [Reading.repeated, h _ hc]

/-- A repetition reads what its phrase reads and goes on. -/
theorem YieldsAll.cons {p : Phrase α} {R : α → Prop} {S : List α → Prop}
    (hnull : p.nullable = false) (hp : p.Yields ts (us ++ vs) R) (h : p.YieldsAll us vs S) :
    p.YieldsAll (ts ++ us) vs fun l => ∃ a as, R a ∧ S as ∧ l = a :: as := by
  constructor
  · intro c hc
    rw [List.append_assoc] at hc
    obtain ⟨a, d, hread, ha, hd⟩ := hp c hc
    -- The bound that the reader takes for the rest is one more than what is left of the text.
    obtain ⟨as, e, hmore, has, he⟩ := h.more (d.rest.length + 1) d hd (Nat.lt_succ_self _)
    refine ⟨a :: as, e, ?_, ⟨a, as, ha, has, rfl⟩, he⟩
    simp [read, hread, hmore, Outcome.bind, Outcome.orElse]
  · intro bound c hc hbound
    rw [List.append_assoc] at hc
    obtain ⟨a, d, hread, ha, hd⟩ := hp _ hc
    -- The phrase has read at least one character, so that a smaller bound is left for the rest.
    have hshrink : d.rest.length < c.skipLayout.rest.length :=
      (shrinks_of_nullable hnull c.skipLayout a d hread).2 rfl
    have hskip := c.length_skipLayout
    cases bound with
    | zero => omega
    | succ bound =>
      obtain ⟨as, e, hmore, has, he⟩ := h.more bound d hd (by omega)
      refine ⟨a :: as, e, ?_, ⟨a, as, ha, has, rfl⟩, he⟩
      simp [Reading.repeated, hread, hmore, Outcome.bind]

/-- A property of the values may be replaced by one that it implies. -/
theorem YieldsAll.mono {p : Phrase α} {R S : List α → Prop} (h : p.YieldsAll ts vs R)
    (hRS : ∀ as, R as → S as) : p.YieldsAll ts vs S where
  many := h.many.mono hRS
  more bound c hc hbound := by
    obtain ⟨as, d, hread, has, hd⟩ := h.more bound c hc hbound
    exact ⟨as, d, hread, hRS as has, hd⟩

/-! ## The end of the text -/

/-- A phrase that fills a text is read after the layout at its start. -/
theorem outcome_to_end {p : Phrase α} {c d : Cursor} {a : α}
    (h : (p.read Rule.read c.skipLayout).outcome = .matched a d) (hd : d.skipLayout.rest = []) :
    ((empty *> p <* Phrase.rule .endOfInput).read Rule.read c).outcome =
      .matched a d.skipLayout := by
  have hend : (Rule.endOfInput.read d.skipLayout).outcome = .matched () d.skipLayout := by
    rw [Rule.read_eq, Reading.outcome_settle]
    simp [Rule.body, Phrase.read, hd]
  have hphrase : (empty *> p <* Phrase.rule .endOfInput) =
      Phrase.map Prod.fst (Phrase.seq (Phrase.map Prod.snd (Phrase.seq empty p))
        (Phrase.rule .endOfInput)) := rfl
  rw [hphrase]
  simp only [Phrase.read, Reading.outcome_map, Reading.outcome_bind, Reading.outcome_matched,
    Outcome.bind, h, hend]

end Phrase

end RelAlgebra
