import RelAlgebra.Proofs.Grammar.Progress

/-!
# Induction over what was read

A match of a phrase is built from words and from matches of rules. `Phrase.Derives` says how,
leaving open what is known of the rules, and `Rule.read_induction` turns it into an induction
principle: what holds of a rule whenever it holds of the rules inside its phrase, holds of every
match of a rule. The failures on the way play no part here.
-/

namespace RelAlgebra

/-- A statement about matches of rules: the rule, where it starts, its value and where it ends. -/
abbrev Rule.Motive : Type := (r : Rule) → Cursor → r.Value → Cursor → Prop

namespace Phrase

variable {α β : Type}

/-- Values that were read one after the other, with layout before each of them. -/
def DerivesRest (item : Cursor → α → Cursor → Prop) : Cursor → List α → Cursor → Prop
  | c, [], d => d = c
  | c, a :: as, d => ∃ m, item c.skipLayout a m ∧ DerivesRest item m as d

/-- The phrase can read the value between two positions, if a rule can read what `P` admits. -/
def Derives (P : Rule.Motive) : {α : Type} → Phrase α → Cursor → α → Cursor → Prop
  | _, empty, c, _, d => d = c
  | _, never, _, _, _ => False
  | _, finish, c, _, d => c.rest = [] ∧ d = c
  | _, word shape, c, value, d => ∃ n, shape.length? c.rest = some n ∧
      value = ⟨String.ofList (c.rest.take n), c.loc⟩ ∧ d = c.advance n
  | _, rule r, c, value, d => P r c value d
  | _, seq p q, c, value, d => ∃ m, p.Derives P c value.1 m ∧ q.Derives P m.skipLayout value.2 d
  | _, alt p q, c, value, d => p.Derives P c value d ∨ q.Derives P c value d
  | _, opt p, c, value, d =>
    match value with
    | some a => p.Derives P c a d
    | none => d = c
  | _, many p, c, value, d =>
    match value with
    | [] => d = c
    | a :: as => ∃ m, p.Derives P c a m ∧ DerivesRest (p.Derives P) m as d
  | _, map f p, c, value, d => ∃ a, p.Derives P c a d ∧ value = f a

/-- What a repetition has read. -/
theorem derivesRest_of_repeated {read : Cursor → Reading α} {item : Cursor → α → Cursor → Prop}
    (h : ∀ c a d, (read c).outcome = .matched a d → item c a d) {bound : Nat} {c d : Cursor}
    {as : List α} (hr : (Reading.repeated read bound c).outcome = .matched as d) :
    DerivesRest item c as d := by
  induction bound generalizing c as with
  | zero => simp [Reading.repeated] at hr
  | succ bound ih =>
    simp only [Reading.repeated] at hr
    split at hr
    · next a m ha =>
      obtain ⟨as', has, rfl⟩ := Reading.map_eq_matched hr
      exact ⟨m, h _ _ _ ha, ih has⟩
    · simp only [Outcome.matched.injEq] at hr
      rw [← hr.1]
      exact hr.2.symm
    · simp at hr

/-- A match of a phrase, when all matches of rules inside of it are admitted. -/
theorem derives_of_read {call : (r : Rule) → Cursor → Reading r.Value} {P : Rule.Motive}
    (hcall : ∀ r c value d, (call r c).outcome = .matched value d → P r c value d) {α : Type}
    (p : Phrase α) {c d : Cursor} {value : α} (h : (p.read call c).outcome = .matched value d) :
    p.Derives P c value d := by
  induction p generalizing c d with
  | empty =>
    simp only [read, Reading.outcome_matched, Outcome.matched.injEq] at h
    exact h.2.symm
  | never => simp [read] at h
  | finish =>
    simp only [read] at h
    split at h
    · next hrest =>
      simp only [Reading.outcome_matched, Outcome.matched.injEq] at h
      exact ⟨List.isEmpty_iff.1 hrest, h.2.symm⟩
    · simp at h
  | word shape =>
    simp only [read] at h
    split at h
    · next n hn =>
      simp only [Reading.outcome_matched, Outcome.matched.injEq] at h
      exact ⟨n, hn, h.1.symm, h.2.symm⟩
    · simp at h
  | rule r => exact hcall r c value d h
  | seq p q ihp ihq =>
    obtain ⟨a, m, hp, hq⟩ := Reading.bind_eq_matched h
    obtain ⟨b, hb, rfl⟩ := Reading.map_eq_matched hq
    exact ⟨m, ihp hp, ihq hb⟩
  | alt p q ihp ihq =>
    rcases Reading.orElse_eq_matched h with h | ⟨-, h⟩
    · exact .inl (ihp h)
    · exact .inr (ihq h)
  | opt p ih =>
    rcases Reading.orElse_eq_matched h with h | ⟨-, h⟩
    · obtain ⟨a, ha, rfl⟩ := Reading.map_eq_matched h
      exact ih ha
    · simp only [Reading.outcome_matched, Outcome.matched.injEq] at h
      rw [← h.1]
      exact h.2.symm
  | many p ih =>
    -- The first time stands apart, since no layout is skipped before it.
    rcases Reading.orElse_eq_matched h with h | ⟨-, h⟩
    · obtain ⟨a, m, hp, hq⟩ := Reading.bind_eq_matched h
      obtain ⟨as, has, rfl⟩ := Reading.map_eq_matched hq
      exact ⟨m, ih hp, derivesRest_of_repeated (fun _ _ _ => ih) has⟩
    · simp only [Reading.outcome_matched, Outcome.matched.injEq] at h
      rw [← h.1]
      exact h.2.symm
  | map f p ih =>
    obtain ⟨a, ha, rfl⟩ := Reading.map_eq_matched h
    exact ⟨a, ih ha, rfl⟩

/-! ## The derived phrases -/

variable {P : Rule.Motive} {c d : Cursor}

/-- A function of the value is built from a match of the phrase. -/
theorem derives_map {f : α → β} {p : Phrase α} {value : β} :
    (f <$> p).Derives P c value d ↔ ∃ a, p.Derives P c a d ∧ value = f a := Iff.rfl

/-- A choice is built from either alternative. -/
theorem derives_orElse {p q : Phrase α} {value : α} :
    (p <|> q).Derives P c value d ↔ p.Derives P c value d ∨ q.Derives P c value d := Iff.rfl

/-- A function and its argument are built one after the other, with layout between them. -/
theorem derives_seq {p : Phrase (α → β)} {q : Phrase α} {value : β} :
    (p <*> q).Derives P c value d ↔
      ∃ f a m, p.Derives P c f m ∧ q.Derives P m.skipLayout a d ∧ value = f a := by
  constructor
  · rintro ⟨⟨f, a⟩, ⟨m, hp, hq⟩, hv⟩
    exact ⟨f, a, m, hp, hq, hv⟩
  · rintro ⟨f, a, m, hp, hq, hv⟩
    exact ⟨(f, a), ⟨m, hp, hq⟩, hv⟩

/-- Of two phrases in a row the first one gives the value. -/
theorem derives_seqLeft {p : Phrase α} {q : Phrase β} {value : α} :
    (p <* q).Derives P c value d ↔
      ∃ b m, p.Derives P c value m ∧ q.Derives P m.skipLayout b d := by
  constructor
  · rintro ⟨⟨a, b⟩, ⟨m, hp, hq⟩, rfl⟩
    exact ⟨b, m, hp, hq⟩
  · rintro ⟨b, m, hp, hq⟩
    exact ⟨(value, b), ⟨m, hp, hq⟩, rfl⟩

/-- Of two phrases in a row the second one gives the value. -/
theorem derives_seqRight {p : Phrase α} {q : Phrase β} {value : β} :
    (p *> q).Derives P c value d ↔
      ∃ a m, p.Derives P c a m ∧ q.Derives P m.skipLayout value d := by
  constructor
  · rintro ⟨⟨a, b⟩, ⟨m, hp, hq⟩, rfl⟩
    exact ⟨a, m, hp, hq⟩
  · rintro ⟨a, m, hp, hq⟩
    exact ⟨(a, value), ⟨m, hp, hq⟩, rfl⟩

/-- What is in parentheses was read after the first of them. -/
theorem Derives.parens {p : Phrase α} {value : α} (h : (parens p).Derives P c value d) :
    ∃ m m', p.Derives P m value m' := by
  obtain ⟨_, m, h, -⟩ := derives_seqLeft.1 h
  obtain ⟨_, m', -, h⟩ := derives_seqRight.1 h
  exact ⟨_, _, h⟩

/-- Every value of a repetition was read somewhere. -/
theorem DerivesRest.exists_of_mem {item : Cursor → α → Cursor → Prop} {as : List α}
    (h : DerivesRest item c as d) {a : α} (ha : a ∈ as) : ∃ m m', item m a m' := by
  induction as generalizing c with
  | nil => simp at ha
  | cons b as ih =>
    obtain ⟨m, hb, has⟩ := h
    rcases List.mem_cons.1 ha with rfl | ha
    · exact ⟨_, _, hb⟩
    · exact ih has ha

/-- Every value of a repetition was read somewhere. -/
theorem Derives.many_of_mem {p : Phrase α} {as : List α} (h : (many p).Derives P c as d) {a : α}
    (ha : a ∈ as) : ∃ m m', p.Derives P m a m' := by
  cases as with
  | nil => simp at ha
  | cons b as =>
    obtain ⟨m, hb, has⟩ := h
    rcases List.mem_cons.1 ha with rfl | ha
    · exact ⟨_, _, hb⟩
    · exact has.exists_of_mem ha

/-- Every value between separators was read somewhere. -/
theorem Derives.separated_of_mem {separator : String} {p : Phrase α} {as : List α}
    (h : (separated separator p).Derives P c as d) {a : α} (ha : a ∈ as) :
    ∃ m m', p.Derives P m a m' := by
  obtain ⟨_, rest, m, hfirst, hrest, rfl⟩ := derives_seq.1 h
  obtain ⟨first, hp, rfl⟩ := derives_map.1 hfirst
  rcases List.mem_cons.1 ha with rfl | ha
  · exact ⟨_, _, hp⟩
  · obtain ⟨_, _, hs⟩ := hrest.many_of_mem ha
    obtain ⟨_, _, -, ha⟩ := derives_seqRight.1 hs
    exact ⟨_, _, ha⟩

/-- Every value of a list up to the end of the text was read somewhere. -/
theorem Derives.list_of_mem {p : Phrase α} {as : List α} (h : (list p).Derives P c as d) {a : α}
    (ha : a ∈ as) : ∃ m m', p.Derives P m a m' := by
  obtain ⟨items, hall, rfl⟩ := derives_map.1 h
  obtain ⟨_, _, h, -⟩ := derives_seqLeft.1 hall
  obtain ⟨_, _, -, h⟩ := derives_seqRight.1 h
  cases items with
  | none => simp at ha
  | some items =>
    obtain ⟨_, _, h, -⟩ := derives_seqLeft.1 h
    exact h.separated_of_mem ha

end Phrase

namespace Rule

/-- What holds of a match of a rule if it holds of the matches of rules inside of it, holds of every
match of a rule. -/
theorem read_induction {P : Motive} (h : ∀ r c value d, r.body.Derives P c value d → P r c value d)
    {r : Rule} {c d : Cursor} {value : r.Value} (hr : (r.read c).outcome = .matched value d) :
    P r c value d := by
  -- Induction on the bound of the reader: the rules inside are read with a smaller one.
  have hwithin : ∀ n r c value d, (readWithin n r c).outcome = .matched value d →
      P r c value d := by
    intro n
    induction n with
    | zero => intro r c value d hr; simp [readWithin] at hr
    | succ n ih =>
      intro r c value d hr
      rw [readWithin, Reading.outcome_settle] at hr
      exact h r c value d (Phrase.derives_of_read ih r.body hr)
  exact hwithin _ r c value d hr

end Rule

end RelAlgebra
