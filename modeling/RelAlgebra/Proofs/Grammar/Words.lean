import RelAlgebra.Proofs.Grammar.Lexical

/-!
# The words of a text

`Cursor.Words` splits a stretch of text into words with layout between them. Layout is skipped
wherever it stands, and each word is the one that its shape measures at its place. The words of a
text come at increasing places (`Cursor.Words.pairwise_before`), and each of them is a slice of the
text at its place (`Cursor.Words.exists_offset`).

A match of a rule has read such words. `Phrase.Traces` is a derivation that keeps them, and
`Phrase.words_of_traces` says that they fill the stretch that was read.
-/

namespace RelAlgebra

/-! ## Places -/

namespace Location

/-- Earlier in a text: on an earlier line, or in the same line further to the left. -/
def Before (l m : Location) : Prop := l.line < m.line ∨ l.line = m.line ∧ l.column < m.column

/-- What is earlier than an earlier place is earlier. -/
theorem Before.trans {l m k : Location} (h : l.Before m) (h' : m.Before k) : l.Before k := by
  unfold Before at *
  omega

/-- No place is earlier than itself. -/
theorem Before.ne {l m : Location} (h : l.Before m) : l ≠ m := by
  rintro rfl
  unfold Before at h
  omega

/-- Every character leads to a later place. -/
theorem before_step (l : Location) (c : Char) : l.Before (l.step c) := by
  unfold step Before
  split
  · exact .inl (Nat.lt_succ_self _)
  · exact .inr ⟨rfl, Nat.lt_succ_self _⟩

/-- The place after a stretch of text is the place before it or a later one. -/
theorem eq_or_before_after (l : Location) (s : List Char) :
    l.after s = l ∨ l.Before (l.after s) := by
  induction s generalizing l with
  | nil => exact .inl rfl
  | cons c s ih =>
    rw [after_cons]
    rcases ih (l.step c) with h | h
    · rw [h]
      exact .inr (l.before_step c)
    · exact .inr ((l.before_step c).trans h)

/-- A stretch of text that is not empty leads to a later place. -/
theorem before_after (l : Location) {s : List Char} (hs : s ≠ []) : l.Before (l.after s) := by
  cases s with
  | nil => exact absurd rfl hs
  | cons c s =>
    rw [after_cons]
    rcases (l.step c).eq_or_before_after s with h | h
    · rw [h]
      exact l.before_step c
    · exact (l.before_step c).trans h

end Location

/-! ## Positions -/

/-- After the longest layout stands no more layout. -/
theorem Layout.lengthFrom_drop (inside : Bool) (s : List Char) :
    lengthFrom false (s.drop (lengthFrom inside s)) = 0 := by
  fun_induction lengthFrom inside s with
  | case1 => rfl
  | case2 c s ih => rw [List.drop_succ_cons, ih]
  | case3 s ih => exact ih
  | case4 c s hc hspace ih => rw [List.drop_succ_cons, ih]
  | case5 c s hc hspace =>
    rw [List.drop_zero, lengthFrom, if_neg hspace]
    exact hc

namespace Cursor

/-- Moving on by nothing stays where it is. -/
@[simp] theorem advance_zero (c : Cursor) : c.advance 0 = c := rfl

/-- Moving on twice is moving on by both lengths. -/
theorem advance_advance (c : Cursor) (m n : Nat) : (c.advance m).advance n = c.advance (m + n) := by
  unfold advance
  rw [List.drop_drop, Nat.add_assoc, List.take_add, Location.after_append]

/-- Layout that was skipped is not there to be skipped again. -/
@[simp] theorem skipLayout_skipLayout (c : Cursor) : c.skipLayout.skipLayout = c.skipLayout := by
  have hzero : Layout.length c.skipLayout.rest = 0 := Layout.lengthFrom_drop false c.rest
  calc c.skipLayout.skipLayout
      = c.skipLayout.advance (Layout.length c.skipLayout.rest) := rfl
    _ = c.skipLayout := by rw [hzero, advance_zero]

end Cursor

/-! ## Words -/

/-- A word of a text with its shape. -/
structure Word where
  shape : Shape
  lexeme : Lexeme
  deriving DecidableEq, Repr

/-- A shape of the grammar has no empty word. -/
theorem Shape.nullable_of_listed {shape : Shape} (h : shape.listed = true) :
    shape.nullable = false := by
  cases shape with
  | symbol text =>
    have hall : ∀ text ∈ symbols, text ≠ "" := by decide
    simpa [nullable] using hall text (by simpa [listed] using h)
  | word letters =>
    have hall : ∀ letters ∈ keywords, letters ≠ "" := by decide
    simpa [nullable] using hall letters (by simpa [listed] using h)
  | name | identifier | typeName | literal => rfl

namespace Cursor

/-- The words, with layout around them, are what stands between two positions. -/
inductive Words : Cursor → List Word → Cursor → Prop where
  | done (c : Cursor) : Words c [] c
  | layout {c d : Cursor} {ws : List Word} (h : Words c.skipLayout ws d) : Words c ws d
  | word {c d : Cursor} {shape : Shape} {n : Nat} {ws : List Word} (hc : c.skipLayout = c)
      (hshape : shape.listed = true) (hn : shape.length? c.rest = some n)
      (h : Words (c.advance n) ws d) :
    Words c (⟨shape, ⟨String.ofList (c.rest.take n), c.loc⟩⟩ :: ws) d

variable {c d e : Cursor} {ws us : List Word}

/-- Words up to a position and words from there on are words one after the other. -/
theorem Words.append (h : c.Words us d) (h' : d.Words ws e) : c.Words (us ++ ws) e := by
  induction h with
  | done => exact h'
  | layout _ ih => exact .layout (ih h')
  | word hc hshape hn _ ih => exact .word hc hshape hn (ih h')

/-- A word of the grammar has at least one character. -/
theorem before_advance {shape : Shape} {n : Nat} (hshape : shape.listed = true)
    (hn : shape.length? c.rest = some n) : c.loc.Before (c.advance n).loc := by
  obtain ⟨hle, hpos⟩ := Shape.length?_eq_some hn
  apply Location.before_after
  intro hnil
  have hlen : (c.rest.take n).length = n := List.length_take_of_le hle
  rw [hnil, List.length_nil] at hlen
  have hone := hpos (Shape.nullable_of_listed hshape)
  omega

/-- The words stand at or after the position where they start, each one before the next. -/
theorem Words.pairwise_before (h : c.Words ws d) :
    (∀ w ∈ ws, c.loc = w.lexeme.loc ∨ c.loc.Before w.lexeme.loc) ∧
      ws.Pairwise fun v w => v.lexeme.loc.Before w.lexeme.loc := by
  induction h with
  | done => exact ⟨by simp, .nil⟩
  | @layout c d ws _ ih =>
    refine ⟨fun w hw => ?_, ih.2⟩
    have hskip : c.skipLayout.loc = c.loc ∨ c.loc.Before c.skipLayout.loc :=
      c.loc.eq_or_before_after _
    -- Skipping layout leads to a later place, or nowhere.
    rcases hskip with hskip | hskip
    · rw [← hskip]
      exact ih.1 w hw
    · rcases ih.1 w hw with hloc | hloc
      · exact .inr (hloc ▸ hskip)
      · exact .inr (hskip.trans hloc)
  | @word c d shape n ws _ hshape hn _ ih =>
    have hnext := before_advance hshape hn
    -- All later words stand at or after the end of this one.
    have hlater : ∀ w ∈ ws, c.loc.Before w.lexeme.loc := by
      intro w hw
      rcases ih.1 w hw with hloc | hloc
      · exact hloc ▸ hnext
      · exact hnext.trans hloc
    refine ⟨fun w hw => ?_, List.pairwise_cons.2 ⟨hlater, ih.2⟩⟩
    rcases List.mem_cons.1 hw with rfl | hw
    · exact .inl rfl
    · exact .inr (hlater w hw)

/-- No two words stand at the same place. -/
theorem Words.nodup_locs (h : c.Words ws d) : (ws.map (·.lexeme.loc)).Nodup := by
  rw [List.Nodup, List.pairwise_map]
  exact h.pairwise_before.2.imp fun hbefore => hbefore.ne

/-- Every word of a text follows the lexical rule of its shape and is the slice of the text at its
place. -/
theorem Words.exists_offset {s : List Char} {k : Nat} (h : ((start s).advance k).Words ws d) :
    ∀ w ∈ ws, w.shape.Admits w.lexeme.text.toList ∧
      ∃ n, w.lexeme.loc = .ofOffset s n ∧ w.lexeme.text.toList <+: s.drop n := by
  generalize hc : (start s).advance k = c at h
  induction h generalizing k with
  | done => simp
  | @layout c d ws _ ih =>
    exact ih (k := k + Layout.length c.rest) (by rw [← advance_advance, hc]; rfl)
  | @word c d shape n ws _ hshape hn _ ih =>
    intro w hw
    rcases List.mem_cons.1 hw with rfl | hw
    · -- The word starts at the position `k` of the text.
      rw [String.toList_ofList]
      refine ⟨Shape.admits_of_length? hshape hn, k, ?_, ?_⟩
      · rw [← hc]
        rfl
      · have hrest : c.rest = s.drop k := by rw [← hc]; rfl
        rw [hrest]
        exact List.take_prefix ..
    · exact ih (k := k + n) (by rw [← advance_advance, hc]) w hw

end Cursor

/-! ## The words of a match -/

/-- A statement about matches of rules that also speaks of the words that were read. -/
abbrev Rule.WordMotive : Type := (r : Rule) → Cursor → r.Value → List Word → Cursor → Prop

namespace Phrase

variable {α β : Type}

/-- Values that were read one after the other, with layout before each of them, and the words of
all of them. -/
def TracesRest (item : Cursor → α → List Word → Cursor → Prop) :
    Cursor → List α → List Word → Cursor → Prop
  | c, [], ws, d => ws = [] ∧ d = c
  | c, a :: as, ws, d =>
    ∃ m us vs, item c.skipLayout a us m ∧ TracesRest item m as vs d ∧ ws = us ++ vs

/-- The phrase can read the value and the words between two positions, if a rule can read what `Q`
admits. -/
def Traces (Q : Rule.WordMotive) : {α : Type} → Phrase α → Cursor → α → List Word → Cursor → Prop
  | _, empty, c, _, ws, d => ws = [] ∧ d = c
  | _, never, _, _, _, _ => False
  | _, finish, c, _, ws, d => c.rest = [] ∧ ws = [] ∧ d = c
  | _, word shape, c, value, ws, d => ∃ n, shape.length? c.rest = some n ∧
      value = ⟨String.ofList (c.rest.take n), c.loc⟩ ∧ ws = [⟨shape, value⟩] ∧ d = c.advance n
  | _, rule r, c, value, ws, d => Q r c value ws d
  | _, seq p q, c, value, ws, d => ∃ m us vs, p.Traces Q c value.1 us m ∧
      q.Traces Q m.skipLayout value.2 vs d ∧ ws = us ++ vs
  | _, alt p q, c, value, ws, d => p.Traces Q c value ws d ∨ q.Traces Q c value ws d
  | _, opt p, c, value, ws, d =>
    match value with
    | some a => p.Traces Q c a ws d
    | none => ws = [] ∧ d = c
  | _, many p, c, value, ws, d =>
    match value with
    | [] => ws = [] ∧ d = c
    | a :: as => ∃ m us vs, p.Traces Q c a us m ∧ TracesRest (p.Traces Q) m as vs d ∧ ws = us ++ vs
  | _, map f p, c, value, ws, d => ∃ a, p.Traces Q c a ws d ∧ value = f a

/-- A repetition reads the words of its values, one after the other. -/
theorem exists_tracesRest {item : Cursor → α → Cursor → Prop}
    {item' : Cursor → α → List Word → Cursor → Prop}
    (h : ∀ c a d, item c a d → ∃ ws, item' c a ws d) {c d : Cursor} {as : List α}
    (has : DerivesRest item c as d) : ∃ ws, TracesRest item' c as ws d := by
  induction as generalizing c with
  | nil => exact ⟨[], rfl, has⟩
  | cons a as ih =>
    obtain ⟨m, ha, has⟩ := has
    obtain ⟨us, hus⟩ := h _ _ _ ha
    obtain ⟨vs, hvs⟩ := ih has
    exact ⟨us ++ vs, m, us, vs, hus, hvs, rfl⟩

/-- What was derived was derived with some words. -/
theorem exists_traces {Q : Rule.WordMotive} {α : Type} (p : Phrase α) {c d : Cursor} {value : α}
    (h : p.Derives (fun r c value d => ∃ ws, Q r c value ws d) c value d) :
    ∃ ws, p.Traces Q c value ws d := by
  induction p generalizing c d with
  | empty => exact ⟨[], rfl, h⟩
  | never => exact h.elim
  | finish => exact ⟨[], h.1, rfl, h.2⟩
  | word shape =>
    obtain ⟨n, hn, hvalue, hd⟩ := h
    exact ⟨_, n, hn, hvalue, rfl, hd⟩
  | rule r => exact h
  | seq p q ihp ihq =>
    obtain ⟨m, hp, hq⟩ := h
    obtain ⟨us, hus⟩ := ihp hp
    obtain ⟨vs, hvs⟩ := ihq hq
    exact ⟨us ++ vs, m, us, vs, hus, hvs, rfl⟩
  | alt p q ihp ihq =>
    rcases h with h | h
    · obtain ⟨ws, hws⟩ := ihp h
      exact ⟨ws, .inl hws⟩
    · obtain ⟨ws, hws⟩ := ihq h
      exact ⟨ws, .inr hws⟩
  | opt p ih =>
    cases value with
    | none => exact ⟨[], rfl, h⟩
    | some a => exact ih h
  | many p ih =>
    -- The first value has its words, and the others have theirs.
    cases value with
    | nil => exact ⟨[], rfl, h⟩
    | cons a as =>
      obtain ⟨m, ha, has⟩ := h
      obtain ⟨us, hus⟩ := ih ha
      obtain ⟨vs, hvs⟩ := exists_tracesRest (fun _ _ _ => ih) has
      exact ⟨us ++ vs, m, us, vs, hus, hvs, rfl⟩
  | map f p ih =>
    obtain ⟨a, ha, hvalue⟩ := h
    obtain ⟨ws, hws⟩ := ih ha
    exact ⟨ws, a, hws, hvalue⟩

end Phrase

/-- Whether the rule is one of those for queries. -/
def Rule.inQueries : Rule → Bool
  | .declarations | .declaration => false
  | _ => true

/-- Whether the phrase uses words and rules of queries only. -/
def Phrase.inQueries : {α : Type} → Phrase α → Bool
  | _, empty | _, never | _, finish => true
  | _, word shape => shape.listed
  | _, rule r => r.inQueries
  | _, seq p q => p.inQueries && q.inQueries
  | _, alt p q => p.inQueries && q.inQueries
  | _, opt p | _, many p | _, map _ p => p.inQueries

/-- A rule for queries uses words and rules of queries only. -/
theorem Rule.inQueries_body {r : Rule} (hr : r.inQueries = true) : r.body.inQueries = true := by
  cases r with
  | declarations | declaration => simp [inQueries] at hr
  | binaryWord op => cases op <;> rfl
  | verb v => cases v <;> rfl
  | logicalWord op => cases op <;> rfl
  | _ => rfl

namespace Phrase

variable {α : Type}

/-- The words of a repetition fill the stretch that was read. -/
theorem words_of_tracesRest {item : Cursor → α → List Word → Cursor → Prop}
    (h : ∀ c a ws d, c.skipLayout = c → item c a ws d → c.Words ws d) {c d : Cursor} {as : List α}
    {ws : List Word} (has : TracesRest item c as ws d) : c.Words ws d := by
  induction as generalizing c ws with
  | nil =>
    obtain ⟨rfl, rfl⟩ := has
    exact .done _
  | cons a as ih =>
    obtain ⟨m, us, vs, ha, has, rfl⟩ := has
    exact (Cursor.Words.layout (h _ _ _ _ (by simp) ha)).append (ih has)

/-- The words of a match fill the stretch that was read, if no layout stands where it starts. -/
theorem words_of_traces {Q : Rule.WordMotive}
    (hQ : ∀ r c value ws d, r.inQueries = true → c.skipLayout = c → Q r c value ws d →
      c.Words ws d) {α : Type} (p : Phrase α) (hp : p.inQueries = true) {c d : Cursor}
    (hc : c.skipLayout = c) {value : α} {ws : List Word} (h : p.Traces Q c value ws d) :
    c.Words ws d := by
  induction p generalizing c d ws with
  | empty =>
    obtain ⟨rfl, rfl⟩ := h
    exact .done _
  | never => exact h.elim
  | finish =>
    obtain ⟨-, rfl, rfl⟩ := h
    exact .done _
  | word shape =>
    obtain ⟨n, hn, rfl, rfl, rfl⟩ := h
    exact .word hc hp hn (.done _)
  | rule r => exact hQ r c value ws d hp hc h
  | seq p q ihp ihq =>
    -- Between the two parts layout is skipped, so that none stands where the second one starts.
    obtain ⟨hpq, hpq'⟩ : p.inQueries = true ∧ q.inQueries = true := by
      simpa [inQueries] using hp
    obtain ⟨m, us, vs, hus, hvs, rfl⟩ := h
    exact (ihp hpq hc hus).append (.layout (ihq hpq' (by simp) hvs))
  | alt p q ihp ihq =>
    obtain ⟨hpq, hpq'⟩ : p.inQueries = true ∧ q.inQueries = true := by
      simpa [inQueries] using hp
    rcases h with h | h
    · exact ihp hpq hc h
    · exact ihq hpq' hc h
  | opt p ih =>
    cases value with
    | none =>
      obtain ⟨rfl, rfl⟩ := h
      exact .done _
    | some a => exact ih hp hc h
  | many p ih =>
    cases value with
    | nil =>
      obtain ⟨rfl, rfl⟩ := h
      exact .done _
    | cons a as =>
      obtain ⟨m, us, vs, hus, hvs, rfl⟩ := h
      exact (ih hp hc hus).append (words_of_tracesRest (fun _ _ _ _ hc => ih hp hc) hvs)
  | map f p ih =>
    obtain ⟨a, ha, -⟩ := h
    exact ih hp hc ha

end Phrase

end RelAlgebra
