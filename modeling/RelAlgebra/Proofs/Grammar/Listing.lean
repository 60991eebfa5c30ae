import RelAlgebra.Grammar.Parse
import RelAlgebra.Proofs.Grammar.Words
import RelAlgebra.Proofs.Rendering.Reading

/-!
# Items up to the end of a text

A text that is read as a list consists of items, all read by one rule, with a semicolon between them
and perhaps one after the last. `Cursor.Listing` says this step by step: an item is read after
layout, and then the text ends or goes on after a semicolon. `Cursor.exists_outcome_list_iff` shows
that such a list is read exactly where it stands, with exactly these items, whatever is tried in
vain on the way. Programs are lists of statements (`parseProgram_eq_ok_iff`), and descriptions of
catalogs are lists of declarations (`parseDeclarations_eq_ok_iff`).
-/

namespace RelAlgebra

open Phrase

namespace Cursor

/-- After layout the rule reads an item up to the position `d`. -/
def Item (r : Rule) (c : Cursor) (a : r.Value) (d : Cursor) : Prop :=
  (r.read c.skipLayout).outcome = .matched a d

/-- The rest of the text after the position is a list of these items. -/
inductive Listing (r : Rule) : Cursor → List r.Value → Prop where
  | nothing {c : Cursor} (h : c.skipLayout.rest = []) : Listing r c []
  | last {c d : Cursor} {a : r.Value} (ha : c.Item r a d) (h : d.skipLayout.rest = []) :
    Listing r c [a]
  | more {c d : Cursor} {a : r.Value} {s : List Char} {as : List r.Value} (ha : c.Item r a d)
      (h : d.skipLayout.rest = ';' :: s) (has : Listing r (d.skipLayout.advance 1) as) :
    Listing r c (a :: as)

section

variable {r : Rule} {c d : Cursor} {a : r.Value} {as : List r.Value} {s : List Char}

/-- At most one item is read at a position. -/
theorem Item.unique {a' : r.Value} {d' : Cursor} (h : c.Item r a d) (h' : c.Item r a' d') :
    a' = a ∧ d' = d := by
  have heq := h'.symm.trans h
  rwa [Outcome.matched.injEq] at heq

/-- Where a list starts, layout does not matter. -/
theorem Listing.congr {c' : Cursor} (h : c.Listing r as) (hc : c'.skipLayout = c.skipLayout) :
    c'.Listing r as := by
  cases h with
  | nothing h => exact .nothing (by rw [hc, h])
  | last ha h => exact .last (by rw [Item, hc]; exact ha) h
  | more ha h has => exact .more (by rw [Item, hc]; exact ha) h has

/-- A list starts with an item, or the text ends. -/
theorem Listing.start (h : c.Listing r as) : c.skipLayout.rest = [] ∨ ∃ a d, c.Item r a d := by
  cases h with
  | nothing h => exact .inl h
  | last ha | more ha => exact .inr ⟨_, _, ha⟩

/-- After the position the text ends, perhaps with a semicolon before the end. -/
def Finishes (m : Cursor) : Prop :=
  m.skipLayout.rest = [] ∨
    ∃ s, m.skipLayout.rest = ';' :: s ∧ (m.skipLayout.advance 1).skipLayout.rest = []

variable (hnull : r.nullable = false)
include hnull

/-- An item is not empty, if its rule reads nothing empty. -/
theorem Item.length_lt (h : c.Item r a d) : d.rest.length < c.skipLayout.rest.length :=
  (Rule.shrinks_readWithin _ r c.skipLayout a d h).2 (by rw [hnull]; rfl)

/-- Where an item stands the text does not end. -/
theorem Item.rest_ne_nil (h : c.Item r a d) : c.skipLayout.rest ≠ [] := by
  intro hnil
  have hlt := h.length_lt hnull
  rw [hnil] at hlt
  exact absurd hlt (Nat.not_lt_zero _)

/-- At the end of a text there are no more items. -/
theorem Listing.eq_nil (h : c.Listing r as) (hc : c.rest = []) : as = [] := by
  have hskip : c.skipLayout.rest = [] := by simp [skipLayout, advance, hc]
  cases h with
  | nothing => rfl
  | last ha | more ha => exact absurd hskip (ha.rest_ne_nil hnull)

/-- A list that starts with an item and a semicolon goes on with the list after it. -/
theorem listing_iff_of_semicolon (ha : c.Item r a d) (h : d.skipLayout.rest = ';' :: s) :
    c.Listing r as ↔ ∃ as', (d.skipLayout.advance 1).Listing r as' ∧ as = a :: as' := by
  constructor
  · intro hp
    -- Only one item can be read here, and what follows it is the semicolon.
    cases hp with
    | nothing hnil => exact absurd hnil (ha.rest_ne_nil hnull)
    | last ha' hnil =>
      obtain ⟨rfl, rfl⟩ := ha.unique ha'
      simp [h] at hnil
    | more ha' _ has =>
      obtain ⟨rfl, rfl⟩ := ha.unique ha'
      exact ⟨_, has, rfl⟩
  · rintro ⟨as', has, rfl⟩
    exact .more ha h has

end

end Cursor

/-! ## From a reading to a list -/

/-- A semicolon and the item after it. -/
def nextItem (r : Rule) : Phrase r.Value := symbol ";" *> rule r

/-- What was read is what the rules read. -/
def ByReading : Rule.Motive := fun r c value d => (r.read c).outcome = .matched value d

/-- A semicolon is measured where it stands. -/
theorem Shape.length?_of_semicolon (s : List Char) : (Shape.symbol ";").length? s =
    if s.head? = some ';' then some 1 else none := by
  cases s with
  | nil => rfl
  | cons c s =>
    by_cases hc : c = ';'
    · subst hc
      rfl
    · have hc' : ¬ ';' = c := Ne.symm hc
      simp [length?, List.isPrefixOf, hc, hc']

/-- A further item is a semicolon and an item after it. -/
theorem Cursor.item_of_nextItem {r : Rule} {c d : Cursor} {a : r.Value}
    (h : (nextItem r).Derives ByReading c a d) :
    (∃ s, c.rest = ';' :: s) ∧ (c.advance 1).Item r a d := by
  obtain ⟨_, m, ⟨n, hn, -, rfl⟩, ha⟩ := derives_seqRight.1 h
  rw [Shape.length?_of_semicolon] at hn
  split at hn
  · next hhead =>
    obtain rfl : 1 = n := Option.some.inj hn
    exact ⟨List.head?_eq_some_iff.1 hhead, ha⟩
  · simp at hn

/-- An item and a repetition of further ones, after which the text ends. -/
theorem Cursor.listing_of_derivesRest {r : Rule} {c d e m : Cursor} {a : r.Value}
    {as : List r.Value} (ha : c.Item r a d) (he : e.skipLayout = d.skipLayout)
    (h : DerivesRest ((nextItem r).Derives ByReading) e as m) (hm : m.Finishes) :
    c.Listing r (a :: as) := by
  induction as generalizing c d e a with
  | nil =>
    -- The text ends after the item, or after one more semicolon.
    obtain rfl : m = e := h
    rcases hm with hm | ⟨s, hsemicolon, hend⟩
    · exact .last ha (he ▸ hm)
    · exact .more ha (he ▸ hsemicolon) (.nothing (he ▸ hend))
  | cons a' as ih =>
    obtain ⟨m', hnext, hrest⟩ := h
    obtain ⟨⟨s, hs⟩, ha'⟩ := item_of_nextItem hnext
    rw [he] at hs ha'
    exact .more ha hs (ih ha' rfl hrest)

/-- What is read as a list is one. -/
theorem Cursor.listing_of_outcome_list {r : Rule} {c d : Cursor} {as : List r.Value}
    (h : ((list (rule r)).read Rule.read c).outcome = .matched as d) : c.Listing r as := by
  have hlist : (list (rule r)).Derives ByReading c as d :=
    derives_of_read (fun _ _ _ _ hr => hr) _ h
  obtain ⟨items, hall, rfl⟩ := derives_map.1 hlist
  obtain ⟨_, m, hbody, hend⟩ := derives_seqLeft.1 hall
  obtain ⟨_, _, rfl, hitems⟩ := derives_seqRight.1 hbody
  -- The rule for the end of the text matches at its end only.
  have hend : m.skipLayout.rest = [] := by
    have hread : (Rule.endOfInput.read m.skipLayout).outcome = .matched _ d := hend
    rw [Rule.read_eq, Reading.outcome_settle] at hread
    exact (derives_of_read (P := ByReading) (fun _ _ _ _ hr => hr) finish hread).1
  cases items with
  | none =>
    obtain rfl : m = _ := hitems
    exact .nothing (by rwa [Cursor.skipLayout_skipLayout] at hend)
  | some items =>
    obtain ⟨semicolon, m', hseparated, hsemicolon⟩ := derives_seqLeft.1 hitems
    obtain ⟨_, as, e, hfirst, hmany, rfl⟩ := derives_seq.1 hseparated
    obtain ⟨a, ha, rfl⟩ := derives_map.1 hfirst
    -- The first of the further items is read like the others, since no layout is left there.
    have hrest : DerivesRest ((nextItem r).Derives ByReading) e.skipLayout as m' := by
      cases as with
      | nil => exact hmany
      | cons a' as =>
        obtain ⟨m'', hnext, hmore⟩ := hmany
        exact ⟨m'', by rwa [Cursor.skipLayout_skipLayout], hmore⟩
    refine listing_of_derivesRest ha (Cursor.skipLayout_skipLayout e) hrest ?_
    -- What is left is the semicolon after the last item, if there is one.
    cases semicolon with
    | none =>
      obtain rfl : m = _ := hsemicolon
      exact .inl (by rwa [Cursor.skipLayout_skipLayout] at hend)
    | some l =>
      obtain ⟨n, hn, -, rfl⟩ := hsemicolon
      rw [Shape.length?_of_semicolon] at hn
      split at hn
      · next hhead =>
        obtain rfl : 1 = n := Option.some.inj hn
        obtain ⟨s, hs⟩ := List.head?_eq_some_iff.1 hhead
        exact .inr ⟨s, hs, hend⟩
      · simp at hn

/-! ## From a list to a reading -/

namespace Reading

variable {α : Type} {read : Cursor → Reading α}

/-- The bound of a repetition does not matter if it is larger than what is left of the text. -/
theorem repeated_bound (hshrinks : ∀ c, (read c).Shrinks c true) {bound bound' : Nat} {c : Cursor}
    (h : c.rest.length < bound) (h' : c.rest.length < bound') :
    repeated read bound c = repeated read bound' c := by
  induction bound generalizing bound' c with
  | zero => omega
  | succ bound ih =>
    obtain ⟨bound', rfl⟩ : ∃ k, bound' = k + 1 := ⟨bound' - 1, by omega⟩
    have hskip := c.length_skipLayout
    simp only [repeated]
    split
    · -- A match leaves less text, for which both of the smaller bounds suffice.
      next a d hx =>
      have hlt := (hshrinks _ _ _ hx).2 rfl
      have hle : d.rest.length < bound' := by omega
      rw [ih (c := d) (by omega) hle]
    · rfl
    · rfl

end Reading

namespace Phrase

variable {α β : Type} {c d e : Cursor}

/-- A rule has the outcome of the phrase that it stands for. -/
theorem outcome_rule (r : Rule) (c : Cursor) :
    ((rule r).read Rule.read c).outcome = (r.body.read Rule.read c).outcome := by
  rw [read, Rule.read_eq, Reading.outcome_settle]

/-- A function of the value is read where the phrase is. -/
theorem outcome_fmap {p : Phrase α} {a : α} (f : α → β)
    (hp : (p.read Rule.read c).outcome = .matched a d) :
    ((f <$> p).read Rule.read c).outcome = .matched (f a) d := by
  change (Reading.map f (p.read Rule.read c)).outcome = _
  rw [Reading.outcome_map, hp]
  rfl

/-- A function and its argument are read one after the other. -/
theorem outcome_ap {p : Phrase (α → β)} {q : Phrase α} {f : α → β} {a : α}
    (hp : (p.read Rule.read c).outcome = .matched f d)
    (hq : (q.read Rule.read d.skipLayout).outcome = .matched a e) :
    ((p <*> q).read Rule.read c).outcome = .matched (f a) e := by
  change (Reading.map _ (Reading.bind _ _)).outcome = _
  simp only [Reading.outcome_map, Reading.outcome_bind, hp, hq, Outcome.bind]

/-- Two phrases are read one after the other, and the first one gives the value. -/
theorem outcome_seqLeft {p : Phrase α} {q : Phrase β} {a : α} {b : β}
    (hp : (p.read Rule.read c).outcome = .matched a d)
    (hq : (q.read Rule.read d.skipLayout).outcome = .matched b e) :
    ((p <* q).read Rule.read c).outcome = .matched a e := by
  change (Reading.map _ (Reading.bind _ _)).outcome = _
  simp only [Reading.outcome_map, Reading.outcome_bind, hp, hq, Outcome.bind]

end Phrase

/-- Where no layout stands, a repetition reads its first item like the others. -/
theorem Phrase.outcome_many {α : Type} {p : Phrase α} (hnull : p.nullable = false) {c d : Cursor}
    (hc : c.skipLayout = c) {as : List α}
    (h : (Reading.repeated (p.read Rule.read) (c.rest.length + 1) c).outcome = .matched as d) :
    ((many p).read Rule.read c).outcome = .matched as d := by
  rw [Reading.repeated, hc] at h
  simp only [read, Reading.outcome_orElse, Reading.outcome_bind]
  cases hx : (p.read Rule.read c).outcome with
  | failed =>
    simp only [hx] at h
    exact h
  | exhausted => simp [hx] at h
  | matched a e =>
    -- The two repetitions after the first item differ in their bounds only.
    have hlt := (shrinks_of_nullable hnull _ _ _ hx).2 rfl
    simp only [hx, Reading.outcome_after] at h
    simp only [Outcome.bind,
      Reading.repeated_bound (shrinks_of_nullable hnull) (Nat.lt_succ_self e.rest.length) hlt, h]
    rfl

namespace Cursor

variable {r : Rule} {c d e : Cursor} {a : r.Value} {as : List r.Value} {s : List Char}

/-- A further item is read after a semicolon and nowhere else. -/
theorem outcome_nextItem (r : Rule) (c : Cursor) : ((nextItem r).read Rule.read c).outcome =
    if c.rest.head? = some ';' then (r.read (c.advance 1).skipLayout).outcome else .failed := by
  change (Reading.map Prod.snd _).outcome = _
  simp only [symbol, Phrase.read, Reading.outcome_map, Reading.outcome_bind,
    Shape.length?_of_semicolon]
  by_cases hhead : c.rest.head? = some ';'
  · simp only [hhead, if_true, Reading.outcome_matched, Outcome.bind]
    cases (r.read (c.advance 1).skipLayout).outcome <;> rfl
  · simp only [hhead, if_false]
    rfl

/-- A repetition of items ends where the text does. -/
theorem outcome_repeated_of_nil (h : d.skipLayout.rest = []) {bound : Nat} (hbound : 0 < bound) :
    (Reading.repeated ((nextItem r).read Rule.read) bound d).outcome = .matched [] d := by
  obtain ⟨bound, rfl⟩ : ∃ k, bound = k + 1 := ⟨bound - 1, by omega⟩
  simp only [Reading.repeated, outcome_nextItem, h]
  rfl

/-- A repetition of items goes on after a semicolon and an item. -/
theorem Item.outcome_repeated (hd : d.skipLayout.rest = ';' :: s)
    (ha : (d.skipLayout.advance 1).Item r a e) (bound : Nat) :
    (Reading.repeated ((nextItem r).read Rule.read) (bound + 1) d).outcome =
      (Reading.repeated ((nextItem r).read Rule.read) bound e).outcome.bind
        fun as m => .matched (a :: as) m := by
  have hread : ((nextItem r).read Rule.read d.skipLayout).outcome = .matched a e := by
    rw [outcome_nextItem, hd]
    exact ha
  rw [Reading.repeated]
  simp only [hread, Reading.outcome_after, Reading.outcome_map]

/-- A semicolon may be left where a list finishes. -/
theorem Finishes.outcome_semicolon {m : Cursor} (h : m.Finishes) :
    ∃ o e, ((opt (symbol ";")).read Rule.read m.skipLayout).outcome = .matched o e ∧
      e.skipLayout.rest = [] := by
  simp only [symbol, Phrase.read, Shape.length?_of_semicolon]
  rcases h with h | ⟨s, hs, h⟩
  · rw [h]
    exact ⟨none, _, rfl, by rw [skipLayout_skipLayout, h]⟩
  · rw [hs]
    exact ⟨some _, _, rfl, h⟩

variable (hnull : r.nullable = false)
include hnull

/-- After a semicolon and an item less text is left. -/
theorem Item.length_lt_of_semicolon (ha : (d.skipLayout.advance 1).Item r a e) :
    e.rest.length < d.rest.length := by
  have h1 := ha.length_lt hnull
  have h2 := (d.skipLayout.advance 1).length_skipLayout
  have h3 := d.length_skipLayout
  rw [length_advance] at h2
  omega

variable (hend : r.rejects none = true)
include hend

omit hnull in
/-- No item stands at the end of a text. -/
theorem outcome_of_nil (h : c.rest = []) : (r.read c).outcome = .failed := by
  have hfail : (rule r).Rejects [] := rejects_rule hend
  exact hfail c (by rw [At, h]; exact .nil)

/-- The items of a list after a semicolon are read by a repetition, which leaves only the semicolon
after the last one. -/
theorem Listing.outcome_repeated (h : e.Listing r as) (hd : d.skipLayout.rest = ';' :: s)
    (he : e = d.skipLayout.advance 1) {bound : Nat} (hbound : d.rest.length < bound) :
    ∃ m, (Reading.repeated ((nextItem r).read Rule.read) bound d).outcome = .matched as m ∧
      m.Finishes := by
  induction h generalizing d bound s with
  | nothing hnil =>
    -- No item follows the semicolon, so that it is left to the end of the list.
    obtain ⟨bound, rfl⟩ : ∃ k, bound = k + 1 := ⟨bound - 1, by omega⟩
    refine ⟨d, ?_, .inr ⟨s, hd, he ▸ hnil⟩⟩
    simp only [Reading.repeated, outcome_nextItem, hd, ← he, outcome_of_nil hend hnil]
    rfl
  | @last e d' a ha hnil =>
    -- One item is read, and the text ends after it.
    subst he
    have hlt := ha.length_lt_of_semicolon hnull
    obtain ⟨bound, rfl⟩ : ∃ k, bound = k + 1 := ⟨bound - 1, by omega⟩
    refine ⟨d', ?_, .inl hnil⟩
    rw [ha.outcome_repeated hd, outcome_repeated_of_nil hnil (by omega)]
    rfl
  | @more e d' a s' as ha hd' has ih =>
    -- After the item the repetition goes on with less text and a smaller bound.
    subst he
    have hlt := ha.length_lt_of_semicolon hnull
    obtain ⟨bound, rfl⟩ : ∃ k, bound = k + 1 := ⟨bound - 1, by omega⟩
    have hle : d'.rest.length < bound := by omega
    obtain ⟨m, hm, hfinish⟩ := ih hd' rfl hle
    refine ⟨m, ?_, hfinish⟩
    rw [ha.outcome_repeated hd, hm]
    rfl

/-- After an item, what may follow it is read by a repetition, which leaves only the semicolon after
the last item. -/
theorem Listing.outcome_many (h : c.Listing r (a :: as)) (ha : c.Item r a d) :
    ∃ m, ((many (nextItem r)).read Rule.read d.skipLayout).outcome = .matched as m ∧
      m.Finishes := by
  have hclear := d.skipLayout_skipLayout
  suffices hrepeated : ∃ m, (Reading.repeated ((nextItem r).read Rule.read)
      (d.skipLayout.rest.length + 1) d.skipLayout).outcome = .matched as m ∧ m.Finishes by
    obtain ⟨m, hm, hfinish⟩ := hrepeated
    exact ⟨m, Phrase.outcome_many rfl hclear hm, hfinish⟩
  cases h with
  | last ha' hnil =>
    obtain ⟨-, rfl⟩ := ha.unique ha'
    rw [← hclear] at hnil
    exact ⟨_, outcome_repeated_of_nil hnil (Nat.succ_pos _), .inl hnil⟩
  | more ha' hsemicolon has =>
    obtain ⟨-, rfl⟩ := ha.unique ha'
    exact has.outcome_repeated hnull hend (by rw [hclear, hsemicolon]) (by rw [hclear])
      (Nat.lt_succ_self _)

/-- A list is read, up to the end of the text. -/
theorem Listing.exists_outcome (h : c.Listing r as) :
    ∃ d, ((list (rule r)).read Rule.read c).outcome = .matched as d := by
  suffices hitems : ∃ items m, ((opt (separated ";" (rule r) <* opt (symbol ";"))).read
      Rule.read c.skipLayout).outcome = .matched items m ∧ m.skipLayout.rest = [] ∧
      items.getD [] = as by
    obtain ⟨items, m, hread, hm, has⟩ := hitems
    refine ⟨m.skipLayout, ?_⟩
    change (Reading.map (fun o : Option (List r.Value) => o.getD []) _).outcome = _
    rw [Reading.outcome_map, Phrase.outcome_to_end hread hm, ← has]
    rfl
  -- An item, the further ones and the semicolon that is left.
  have hsome : ∀ {a as d}, c.Listing r (a :: as) → c.Item r a d → ∃ m,
      ((opt (separated ";" (rule r) <* opt (symbol ";"))).read Rule.read
        c.skipLayout).outcome = .matched (some (a :: as)) m ∧ m.skipLayout.rest = [] := by
    intro a as d hp ha
    obtain ⟨m, hmany, hfinish⟩ := hp.outcome_many hnull hend ha
    obtain ⟨o, e, hsemicolon, he⟩ := hfinish.outcome_semicolon
    have hfirst : ((List.cons <$> rule r).read Rule.read c.skipLayout).outcome =
        .matched (List.cons a) d := outcome_fmap List.cons ha
    have hall := outcome_seqLeft (outcome_ap hfirst hmany) hsemicolon
    refine ⟨e, ?_, he⟩
    rw [Phrase.read, Reading.outcome_orElse, Reading.outcome_map]
    exact congrArg (fun x => (Outcome.bind x _).orElse _) hall
  cases h with
  | nothing hnil =>
    -- Where no item stands the optional list is left out.
    have hfail : (separated ";" (rule r) <* opt (symbol ";")).Rejects [] := rejects_of_first hend
    obtain ⟨_, m, hread, rfl, hm⟩ := hfail.opt c.skipLayout (by rw [At, hnil]; exact .nil)
    exact ⟨none, m, hread, hm.rest_eq_nil, rfl⟩
  | last ha hnil =>
    obtain ⟨m, hread, hm⟩ := hsome (.last ha hnil) ha
    exact ⟨_, m, hread, hm, rfl⟩
  | more ha hsemicolon has =>
    obtain ⟨m, hread, hm⟩ := hsome (.more ha hsemicolon has) ha
    exact ⟨_, m, hread, hm, rfl⟩

/-- A text is read as a list of items exactly if it is one. -/
theorem exists_outcome_list_iff :
    (∃ d, ((list (rule r)).read Rule.read c).outcome = .matched as d) ↔ c.Listing r as :=
  ⟨fun ⟨_, h⟩ => listing_of_outcome_list h, fun h => h.exists_outcome hnull hend⟩

end Cursor

/-- A text is accepted exactly if the phrase of the rule reads it. -/
theorem Rule.parse_eq_ok_iff {r : Rule} {text : String} {value : r.Value} :
    r.parse text = .ok value ↔
      ∃ d, (r.body.read Rule.read (.start text.toList)).outcome = .matched value d := by
  rw [parse, Rule.read_eq, Reading.outcome_settle]
  constructor
  · intro h
    split at h
    · next value d hr => exact ⟨d, Except.ok.inj h ▸ hr⟩
    · simp at h
  · rintro ⟨d, hread⟩
    simp only [hread]

/-! ## Programs and declarations -/

/-- A text is accepted with its statements exactly if it is a program with these statements. -/
theorem parseProgram_eq_ok_iff {text : String} {qs : List Query} :
    parseProgram text = .ok qs ↔ (Cursor.start text.toList).Listing .statement qs :=
  (Rule.parse_eq_ok_iff (r := .program)).trans
    (Cursor.exists_outcome_list_iff (r := .statement) rfl rfl)

/-- A text is accepted with its declarations exactly if it is a list of these declarations. -/
theorem parseDeclarations_eq_ok_iff {text : String} {ds : List Declaration} :
    parseDeclarations text = .ok ds ↔ (Cursor.start text.toList).Listing .declaration ds :=
  (Rule.parse_eq_ok_iff (r := .declarations)).trans
    (Cursor.exists_outcome_list_iff (r := .declaration) rfl rfl)

end RelAlgebra
