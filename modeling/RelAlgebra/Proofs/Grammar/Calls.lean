import Mathlib.Logic.Relation
import RelAlgebra.Proofs.Grammar.Cut

/-!
# The calls of rules

To read a rule is to read its phrase, which calls other rules where it starts and further on.
`Phrase.Calls` says which rules a phrase calls and where, and `Rule.Tries` follows the calls from rule
to rule. Every call leaves less text than there was, or goes to a rule of a smaller height
(`Phrase.Calls.below`).

All that is known from a reading about failures comes from these calls. A failure is recorded exactly
if a rule was tried there and failed, and the bound on the depth of rules is never reached
(`Rule.shows_read`).
-/

namespace RelAlgebra

/-! ## Positions of one text -/

namespace Cursor

variable {c d e : Cursor}

/-- The position `d` is `c` or stands further on in the same text. -/
def Reaches (c d : Cursor) : Prop := ∃ n ≤ c.rest.length, d = c.advance n

/-- Every position is reached from itself. -/
theorem Reaches.refl (c : Cursor) : c.Reaches c := ⟨0, Nat.zero_le _, rfl⟩

/-- What is reached from a position further on is reached from the first one. -/
theorem Reaches.trans (h : c.Reaches d) (h' : d.Reaches e) : c.Reaches e := by
  obtain ⟨m, hm, rfl⟩ := h
  obtain ⟨n, hn, rfl⟩ := h'
  rw [length_advance] at hn
  exact ⟨m + n, by omega, advance_advance ..⟩

/-- No more text is left further on. -/
theorem Reaches.length_le (h : c.Reaches d) : d.rest.length ≤ c.rest.length := by
  obtain ⟨n, -, rfl⟩ := h
  rw [length_advance]
  exact Nat.sub_le ..

/-- Layout leads further on in the same text. -/
theorem reaches_skipLayout (c : Cursor) : c.Reaches c.skipLayout :=
  ⟨_, Layout.lengthFrom_le false c.rest, rfl⟩

/-- The position `d` is `c`, or it stands further on and no layout follows. -/
def Enters (c d : Cursor) : Prop := d = c ∨ c.Reaches d ∧ d.skipLayout = d

/-- A place where a rule may start lies further on in the same text. -/
theorem Enters.reaches (h : c.Enters d) : c.Reaches d := h.elim (fun hd => hd ▸ .refl c) (·.1)

/-- No layout follows once layout was skipped. -/
theorem Enters.clear (h : c.skipLayout.Enters d) : d.skipLayout = d :=
  h.elim (fun hd => hd ▸ c.skipLayout_skipLayout) (·.2)

/-- A place entered after layout is entered from every position before the layout. -/
theorem Enters.after (h : d.skipLayout.Enters e) (hd : c.Reaches d) : c.Enters e :=
  .inr ⟨(hd.trans d.reaches_skipLayout).trans h.reaches, h.clear⟩

/-- Places are entered one from another. -/
theorem Enters.trans (h : c.Enters d) (h' : d.Enters e) : c.Enters e := by
  rcases h' with rfl | ⟨hreaches, hclear⟩
  · exact h
  · exact .inr ⟨h.reaches.trans hreaches, hclear⟩

end Cursor

namespace Phrase

variable {α : Type} {c d : Cursor}

/-- A repetition ends in the text in which it starts if each part of it does. -/
theorem reaches_of_derivesRest {item : Cursor → α → Cursor → Prop}
    (h : ∀ c a d, item c a d → c.Reaches d) {as : List α} (has : DerivesRest item c as d) :
    c.Reaches d := by
  induction as generalizing c with
  | nil => exact has ▸ .refl c
  | cons a as ih =>
    obtain ⟨m, ha, has⟩ := has
    exact (c.reaches_skipLayout.trans (h _ _ _ ha)).trans (ih has)

/-- A match that is built from matches of rules ends in its text if these do. -/
theorem reaches_of_derives {P : Rule.Motive} (hP : ∀ r c value d, P r c value d → c.Reaches d)
    {α : Type} (p : Phrase α) {c d : Cursor} {value : α} (h : p.Derives P c value d) :
    c.Reaches d := by
  induction p generalizing c d with
  | empty => exact h ▸ .refl c
  | never => exact h.elim
  | finish => exact h.2 ▸ .refl c
  | word shape =>
    obtain ⟨n, hn, -, rfl⟩ := h
    exact ⟨n, (Shape.length?_eq_some hn).1, rfl⟩
  | rule r => exact hP r c value d h
  | seq p q ihp ihq =>
    obtain ⟨m, hp, hq⟩ := h
    exact ((ihp hp).trans m.reaches_skipLayout).trans (ihq hq)
  | alt p q ihp ihq => exact h.elim ihp ihq
  | opt p ih =>
    -- Nothing is read, or the phrase is.
    cases value with
    | none => exact h ▸ .refl c
    | some a => exact ih h
  | many p ih =>
    -- Nothing is read, or the phrase once and then the rest of the repetition.
    cases value with
    | nil => exact h ▸ .refl c
    | cons a as =>
      obtain ⟨m, ha, has⟩ := h
      exact (ih ha).trans (reaches_of_derivesRest (fun _ _ _ => ih) has)
  | map f p ih =>
    obtain ⟨a, ha, -⟩ := h
    exact ih ha

/-- A match ends in the text in which it starts. -/
theorem reaches_of_read (p : Phrase α) {value : α}
    (h : (p.read Rule.read c).outcome = .matched value d) : c.Reaches d := by
  have hrule : ∀ r c value d, (Rule.read r c).outcome = .matched value d → c.Reaches d := by
    intro r c value d hr
    exact Rule.read_induction (P := fun _ c _ d => c.Reaches d)
      (fun r _ _ _ => reaches_of_derives (fun _ _ _ _ hd => hd) r.body) hr
  exact reaches_of_derives hrule p (derives_of_read (fun _ _ _ _ hr => hr) p h)

end Phrase

/-! ## Calls -/

/-- Readings one after the other, with layout before each of them, lead from one position to the
other. -/
def Reading.Repeats {α : Type} (read : Cursor → Reading α) : Cursor → Cursor → Prop :=
  Relation.ReflTransGen fun c d => ∃ a, (read c.skipLayout).outcome = .matched a d

namespace Phrase

/-- Reading the phrase at `c` calls the rule `r` at `d`. The second part of a sequence is read after
the first has matched, the second alternative after the first has failed, and a repetition goes on as
long as it matches. -/
def Calls : {α : Type} → Phrase α → Cursor → Rule → Cursor → Prop
  | _, empty, _, _, _ | _, never, _, _, _ | _, finish, _, _, _ | _, word _, _, _, _ => False
  | _, rule s, c, r, d => r = s ∧ d = c
  | _, seq p q, c, r, d => p.Calls c r d ∨
      ∃ a m, (p.read Rule.read c).outcome = .matched a m ∧ q.Calls m.skipLayout r d
  | _, alt p q, c, r, d => p.Calls c r d ∨ (p.read Rule.read c).outcome = .failed ∧ q.Calls c r d
  | _, opt p, c, r, d | _, map _ p, c, r, d => p.Calls c r d
  | _, many p, c, r, d => p.Calls c r d ∨
      ∃ a m, (p.read Rule.read c).outcome = .matched a m ∧
        ∃ m', Reading.Repeats (p.read Rule.read) m m' ∧ p.Calls m'.skipLayout r d

variable {α : Type} {c d : Cursor} {r : Rule}

/-- Repeated matches of a phrase end in the text in which they start. -/
theorem reaches_of_repeats (p : Phrase α) (h : Reading.Repeats (p.read Rule.read) c d) :
    c.Reaches d := by
  induction h with
  | refl => exact .refl c
  | tail _ hstep ih =>
    obtain ⟨a, ha⟩ := hstep
    exact (ih.trans (Cursor.reaches_skipLayout _)).trans (p.reaches_of_read ha)

/-- A rule is called where the phrase starts, or further on where no layout follows. -/
theorem Calls.enters {p : Phrase α} (h : p.Calls c r d) : c.Enters d := by
  induction p generalizing c with
  | empty | never | finish | word => exact h.elim
  | rule s => exact .inl h.2
  | seq p q ihp ihq =>
    rcases h with h | ⟨a, m, hm, h⟩
    · exact ihp h
    · exact (ihq h).after (p.reaches_of_read hm)
  | alt p q ihp ihq =>
    rcases h with h | ⟨-, h⟩
    · exact ihp h
    · exact ihq h
  | opt p ih | map f p ih => exact ih h
  | many p ih =>
    rcases h with h | ⟨a, m, hm, m', hrepeats, h⟩
    · exact ih h
    · exact (ih h).after ((p.reaches_of_read hm).trans (p.reaches_of_repeats hrepeats))

/-- A rule is called with less text ahead than there was, or it is lower than the height at which
the phrase starts. -/
theorem Calls.below {p : Phrase α} (h : p.Calls c r d) {n height : Nat} (hc : c.rest.length ≤ n)
    (hp : c.rest.length = n → p.startsBelow height = true) :
    d.rest.length < n ∨ d.rest.length = n ∧ r.height < height := by
  induction p generalizing c with
  | empty | never | finish | word => exact h.elim
  | rule s =>
    obtain ⟨rfl, rfl⟩ := h
    rcases Nat.lt_or_eq_of_le hc with hlt | heq
    · exact .inl hlt
    · exact .inr ⟨heq, by simpa [startsBelow] using hp heq⟩
  | seq p q ihp ihq =>
    simp only [startsBelow, Bool.and_eq_true, Bool.or_eq_true, Bool.not_eq_true'] at hp
    rcases h with h | ⟨a, m, hm, h⟩
    · exact ihp h hc fun heq => (hp heq).1
    · have hshrinks := p.shrinks c a m hm
      have hskip := m.length_skipLayout
      refine ihq h (by omega) fun heq => ?_
      -- As much text is left as there was, so that the first part can match without reading.
      rcases (hp (by omega)).2 with hnull | hq
      · have hless := hshrinks.2 (by simp [hnull])
        omega
      · exact hq
  | alt p q ihp ihq =>
    simp only [startsBelow, Bool.and_eq_true] at hp
    rcases h with h | ⟨-, h⟩
    · exact ihp h hc fun heq => (hp heq).1
    · exact ihq h hc fun heq => (hp heq).2
  | opt p ih | map f p ih => exact ih h hc hp
  | many p ih =>
    simp only [startsBelow, Bool.and_eq_true, Bool.not_eq_true'] at hp
    rcases h with h | ⟨a, m, hm, m', hrepeats, h⟩
    · exact ih h hc fun heq => (hp heq).1
    · have hshrinks := p.shrinks c a m hm
      have hrest := (p.reaches_of_repeats hrepeats).length_le
      have hskip := m'.length_skipLayout
      refine ih h (by omega) fun heq => ?_
      -- The first match has read something, so that less text is left.
      have hless := hshrinks.2 (by simp [(hp (by omega)).2])
      omega

end Phrase

namespace Rule

variable {r s : Rule} {c d : Cursor}

/-- Every call goes to a rule of a smaller height, or leaves less text. -/
theorem depth_lt_of_calls (h : r.body.Calls c s d) : s.depth d < r.depth c :=
  depth_lt (h.below (Nat.le_refl _) fun _ => r.startsBelow_body)

/-- Reading the rule `r` at `c` tries the rule `s` at `d`, itself or through other rules. -/
def Tries (r : Rule) (c : Cursor) (s : Rule) (d : Cursor) : Prop :=
  Relation.ReflTransGen (fun x y : Rule × Cursor => x.1.body.Calls x.2 y.1 y.2) (r, c) (s, d)

/-- A rule tries itself, and what is tried by the rules that its phrase calls. -/
theorem tries_iff : r.Tries c s d ↔
    (s = r ∧ d = c) ∨ ∃ r' c', r.body.Calls c r' c' ∧ r'.Tries c' s d := by
  unfold Tries
  rw [Relation.ReflTransGen.cases_head_iff, Prod.exists, Prod.mk.injEq, eq_comm (a := r),
    eq_comm (a := c)]

/-- A rule is tried where the first one starts, or further on where no layout follows. -/
theorem Tries.enters (h : r.Tries c s d) : c.Enters d := by
  have hall : ∀ y, Relation.ReflTransGen (fun x y : Rule × Cursor => x.1.body.Calls x.2 y.1 y.2)
      (r, c) y → c.Enters y.2 := by
    intro y hy
    induction hy with
    | refl => exact .inl rfl
    | tail _ hcall ih => exact ih.trans hcall.enters
  exact hall _ h

end Rule

/-! ## What is known from a reading -/

/-- What may be known from a reading besides its outcome: that a rule failed at a position, or that
the bound on the depth of rules was reached. -/
inductive Incident where
  | miss (rule : Rule) (offset : Nat)
  | bound

mutual

/-- The rules that failed, with their positions. -/
def Miss.failures : Miss → List (Rule × Nat)
  | .mk rule offset inner => (rule, offset) :: Miss.failuresAll inner

/-- The rules that failed one after the other, with their positions. -/
def Miss.failuresAll : List Miss → List (Rule × Nat)
  | [] => []
  | m :: ms => m.failures ++ Miss.failuresAll ms

end

/-- Failures in two lists are those of the first list and then those of the second. -/
theorem Miss.failuresAll_append (ms ns : List Miss) :
    failuresAll (ms ++ ns) = failuresAll ms ++ failuresAll ns := by
  induction ms with
  | nil => rfl
  | cons m ms ih => rw [List.cons_append, failuresAll, failuresAll, ih, List.append_assoc]

namespace Reading

variable {α β : Type} {i : Incident}

/-- The reading shows the incident. -/
def Shows (x : Reading α) : Incident → Prop
  | .miss r n => (r, n) ∈ Miss.failuresAll x.misses
  | .bound => x.outcome = .exhausted

/-- A match without anything before it shows nothing. -/
theorem not_shows_matched (value : α) (next : Cursor) : ¬ (matched value next).Shows i := by
  cases i <;> simp [Shows, matched, Miss.failuresAll]

/-- A failure of no rule shows nothing. -/
theorem not_shows_failed : ¬ (failed : Reading α).Shows i := by
  cases i <;> simp [Shows, failed, Miss.failuresAll]

/-- What comes after a reading that did not reach the bound. -/
theorem shows_after {x : Reading α} {y : Reading β} (hx : x.outcome ≠ .exhausted) :
    (y.after x.misses).Shows i ↔ x.Shows i ∨ y.Shows i := by
  cases i with
  | miss r n => simp [Shows, after, Miss.failuresAll_append]
  | bound => simp [Shows, hx]

/-- Two readings in a row show what the first one shows and, if it matches, what the second one
shows. -/
theorem shows_bind {x : Reading α} {f : α → Cursor → Reading β} :
    (x.bind f).Shows i ↔ x.Shows i ∨ ∃ a d, x.outcome = .matched a d ∧ (f a d).Shows i := by
  unfold bind
  cases hx : x.outcome with
  | matched a d => simp [shows_after, hx]
  | failed => cases i <;> simp [Shows, hx]
  | exhausted => cases i <;> simp [Shows, hx]

/-- A function of the value changes nothing in what a reading shows. -/
theorem shows_map {x : Reading α} {f : α → β} : (x.map f).Shows i ↔ x.Shows i := by
  simp [map, shows_bind, not_shows_matched]

/-- A choice shows what its first alternative shows and, if that fails, what the second one
shows. -/
theorem shows_orElse {x : Reading α} {y : Unit → Reading α} :
    (x.orElse y).Shows i ↔ x.Shows i ∨ x.outcome = .failed ∧ (y ()).Shows i := by
  unfold orElse
  cases hx : x.outcome with
  | failed => simp [shows_after, hx]
  | matched a d => simp
  | exhausted => simp

/-- A rule that fails shows its own failure besides what its phrase shows. -/
theorem shows_settle {x : Reading α} {r : Rule} {n : Nat} :
    (x.settle r n).Shows i ↔ x.Shows i ∨ x.outcome = .failed ∧ i = .miss r n := by
  unfold settle
  cases hx : x.outcome with
  | failed => cases i <;> simp [Shows, hx, Miss.failuresAll, Miss.failures, or_comm]
  | matched a d => simp
  | exhausted => simp

/-- What happens in a repetition happens the first time, or from then on. -/
theorem exists_repeats_iff {read : Cursor → Reading α} {c : Cursor} {P : Cursor → Prop} :
    (∃ m, Repeats read c m ∧ P m) ↔ P c ∨
      ∃ a d, (read c.skipLayout).outcome = .matched a d ∧ ∃ m, Repeats read d m ∧ P m := by
  constructor
  · rintro ⟨m, hm, hP⟩
    rcases Relation.ReflTransGen.cases_head hm with rfl | ⟨d, ⟨a, ha⟩, hd⟩
    · exact .inl hP
    · exact .inr ⟨a, d, ha, m, hd, hP⟩
  · rintro (hP | ⟨a, d, ha, m, hd, hP⟩)
    · exact ⟨c, .refl, hP⟩
    · exact ⟨m, .head ⟨a, ha⟩ hd, hP⟩

/-- A repetition of what cannot match without reading shows what is shown each time. -/
theorem shows_repeated {read : Cursor → Reading α} (hshrinks : ∀ c, (read c).Shrinks c true)
    {bound : Nat} {c : Cursor} (h : c.rest.length < bound) :
    (repeated read bound c).Shows i ↔ ∃ m, Repeats read c m ∧ (read m.skipLayout).Shows i := by
  induction bound generalizing c with
  | zero => omega
  | succ bound ih =>
    rw [exists_repeats_iff]
    simp only [repeated]
    have hskip := c.length_skipLayout
    cases hx : (read c.skipLayout).outcome with
    | matched a d =>
      -- Each match reads something, so that a smaller bound is enough for the rest.
      have hless := (hshrinks _ a d hx).2 rfl
      have hne : (read c.skipLayout).outcome ≠ .exhausted := by simp [hx]
      rw [shows_after hne, shows_map, ih (by omega)]
      constructor
      · exact Or.imp_right fun hd => ⟨a, d, rfl, hd⟩
      · rintro (hc | ⟨_, _, ⟨⟩, hd⟩)
        · exact .inl hc
        · exact .inr hd
    | failed | exhausted => cases i <;> simp [Shows, hx]

end Reading

/-! ## Calls are all there is to know -/

/-- Whether nothing is repeated that can match without reading. -/
def Phrase.productive : {α : Type} → Phrase α → Bool
  | _, empty | _, never | _, finish | _, word _ | _, rule _ => true
  | _, seq p q | _, alt p q => p.productive && q.productive
  | _, opt p | _, map _ p => p.productive
  | _, many p => p.productive && !p.nullable

/-- No rule repeats what can match without reading. -/
theorem Rule.productive_body (r : Rule) : r.body.productive = true := by
  cases r with
  | binaryWord op => cases op <;> rfl
  | verb v => cases v <;> rfl
  | logicalWord op => cases op <;> rfl
  | _ => rfl

/-- A phrase shows what the rules show that it calls. -/
theorem Phrase.shows_read {α : Type} (p : Phrase α) (hp : p.productive = true) {c : Cursor}
    {i : Incident} :
    (p.read Rule.read c).Shows i ↔ ∃ r d, p.Calls c r d ∧ (r.read d).Shows i := by
  induction p generalizing c with
  | empty => simp [read, Calls, Reading.not_shows_matched]
  | never => simp [read, Calls, Reading.not_shows_failed]
  | finish =>
    -- A phrase that calls no rule shows nothing.
    simp only [read]
    split <;> simp [Calls, Reading.not_shows_matched, Reading.not_shows_failed]
  | word shape =>
    simp only [read]
    split <;> simp [Calls, Reading.not_shows_matched, Reading.not_shows_failed]
  | rule s => simp [read, Calls]
  | seq p q ihp ihq =>
    -- What is shown comes from the first part, or from the second one after a match of the first.
    simp only [productive, Bool.and_eq_true] at hp
    simp only [read, Reading.shows_bind, Reading.shows_map, ihp hp.1, ihq hp.2, Calls]
    constructor
    · rintro (⟨r, d, hr, hi⟩ | ⟨a, m, hm, r, d, hr, hi⟩)
      · exact ⟨r, d, .inl hr, hi⟩
      · exact ⟨r, d, .inr ⟨a, m, hm, hr⟩, hi⟩
    · rintro ⟨r, d, hr | ⟨a, m, hm, hr⟩, hi⟩
      · exact .inl ⟨r, d, hr, hi⟩
      · exact .inr ⟨a, m, hm, r, d, hr, hi⟩
  | alt p q ihp ihq =>
    -- It comes from the first alternative, or from the second one after the first has failed.
    simp only [productive, Bool.and_eq_true] at hp
    simp only [read, Reading.shows_orElse, ihp hp.1, ihq hp.2, Calls]
    constructor
    · rintro (⟨r, d, hr, hi⟩ | ⟨hfail, r, d, hr, hi⟩)
      · exact ⟨r, d, .inl hr, hi⟩
      · exact ⟨r, d, .inr ⟨hfail, hr⟩, hi⟩
    · rintro ⟨r, d, hr | ⟨hfail, hr⟩, hi⟩
      · exact .inl ⟨r, d, hr, hi⟩
      · exact .inr ⟨hfail, r, d, hr, hi⟩
  | opt p ih =>
    simp only [read, Reading.shows_orElse, Reading.shows_map, ih hp, Calls,
      Reading.not_shows_matched, and_false, or_false]
  | map f p ih => simp only [read, Reading.shows_map, ih hp, Calls]
  | many p ih =>
    -- It comes from the first round, or from a later one after matches in all rounds before.
    simp only [productive, Bool.and_eq_true, Bool.not_eq_true'] at hp
    simp only [read, Reading.shows_orElse, Reading.shows_bind, Reading.shows_map,
      Reading.shows_repeated (shrinks_of_nullable hp.2) (Nat.lt_succ_self _), ih hp.1, Calls,
      Reading.not_shows_matched, and_false, or_false]
    constructor
    · rintro (⟨r, d, hr, hi⟩ | ⟨a, m, hm, m', hm', r, d, hr, hi⟩)
      · exact ⟨r, d, .inl hr, hi⟩
      · exact ⟨r, d, .inr ⟨a, m, hm, m', hm', hr⟩, hi⟩
    · rintro ⟨r, d, hr | ⟨a, m, hm, m', hm', hr⟩, hi⟩
      · exact .inl ⟨r, d, hr, hi⟩
      · exact .inr ⟨a, m, hm, m', hm', r, d, hr, hi⟩

namespace Rule

/-- A rule shows the failures of the rules that it tries, and nothing else. So the bound is never
reached. -/
theorem shows_read (r : Rule) (c : Cursor) {i : Incident} : (r.read c).Shows i ↔
    ∃ s d, r.Tries c s d ∧ (s.read d).outcome = .failed ∧ i = .miss s d.offset := by
  -- The depth is smaller for the rules that are called.
  induction hdepth : r.depth c using Nat.strongRecOn generalizing r c with
  | _ n ih =>
    have hbody : (r.body.read Rule.read c).outcome = (r.read c).outcome := by
      rw [read_eq, Reading.outcome_settle]
    rw [read_eq, Reading.shows_settle, hbody, Phrase.shows_read _ r.productive_body]
    constructor
    · -- The incident is shown by a rule that is called, or it is the failure of the rule itself.
      rintro (⟨r', c', hcall, hi⟩ | ⟨hfail, hi⟩)
      · obtain ⟨s, d, htries, hs⟩ := (ih _ (hdepth ▸ depth_lt_of_calls hcall) r' c' rfl).1 hi
        exact ⟨s, d, tries_iff.2 (.inr ⟨r', c', hcall, htries⟩), hs⟩
      · exact ⟨r, c, .refl, hfail, hi⟩
    · rintro ⟨s, d, htries, hfail, hi⟩
      rcases tries_iff.1 htries with ⟨rfl, rfl⟩ | ⟨r', c', hcall, htries⟩
      · exact .inr ⟨hfail, hi⟩
      · exact .inl ⟨r', c', hcall, (ih _ (hdepth ▸ depth_lt_of_calls hcall) r' c' rfl).2
          ⟨s, d, htries, hfail, hi⟩⟩

/-- Reading a rule never reaches the bound on the depth. -/
theorem read_ne_exhausted (r : Rule) (c : Cursor) : (r.read c).outcome ≠ .exhausted := by
  intro hbound
  obtain ⟨s, d, -, -, hi⟩ := (r.shows_read c (i := .bound)).1 hbound
  cases hi

/-- The failures of a reading are those of the rules that were tried and failed. -/
theorem mem_failuresAll (r : Rule) (c : Cursor) {s : Rule} {n : Nat} :
    (s, n) ∈ Miss.failuresAll (r.read c).misses ↔
      ∃ d, r.Tries c s d ∧ (s.read d).outcome = .failed ∧ d.offset = n := by
  have hshows := r.shows_read c (i := .miss s n)
  simp only [Incident.miss.injEq] at hshows
  refine hshows.trans ⟨?_, ?_⟩
  · rintro ⟨_, d, htries, hfail, rfl, rfl⟩
    exact ⟨d, htries, hfail, rfl⟩
  · rintro ⟨d, htries, hfail, rfl⟩
    exact ⟨s, d, htries, hfail, rfl, rfl⟩

end Rule

end RelAlgebra
