import Mathlib.Data.Prod.Lex
import RelAlgebra.Proofs.Grammar.Failures

/-!
# Parsing ends

There are three ways in which reading a text could fail to end with an answer: a repetition takes
turns that read nothing, a rule comes back to itself before anything was read, or the bound on the
depth of rules is reached. None of them occurs at any position of any text.

Every turn of a repetition reads at least one character (`Cursor.Consumes`). This is so for the
phrases that are repeated in the grammar (`Rule.consumes_of_repeated`), for the pieces of the layout
between words and for the characters of a class inside a word.

A rule that is called from another one has less text ahead, or it is lower. So the pair of the two
decreases with every call (`Rule.measure_lt_of_call`), and a rule that comes back to itself has read
something in between. The reading of a rule rests on these calls alone (`Phrase.read_eq_of_calls`).
-/

namespace RelAlgebra

/-! ## Turns of repetitions -/

namespace Cursor

variable {c d e : Cursor}

/-- The position `d` stands further on than `c` in the same text, by one character or more. -/
def Consumes (c d : Cursor) : Prop := ∃ n, 0 < n ∧ n ≤ c.rest.length ∧ d = c.advance n

/-- Something was read exactly if less text is left. -/
theorem consumes_iff : c.Consumes d ↔ c.Reaches d ∧ d.rest.length < c.rest.length := by
  constructor
  · rintro ⟨n, hpos, hle, rfl⟩
    rw [length_advance]
    exact ⟨⟨n, hle, rfl⟩, by omega⟩
  · rintro ⟨⟨n, hle, rfl⟩, hless⟩
    rw [length_advance] at hless
    exact ⟨n, by omega, hle, rfl⟩

/-- A repetition leads from `c` to `d`: it takes turns as long as there is one to take, and each of
them reads at least one character. -/
structure Loops (turn : Cursor → Cursor → Prop) (c d : Cursor) : Prop where
  turns : Relation.ReflTransGen turn c d
  stops : ∀ e, ¬ turn d e
  consumes : ∀ m m', turn m m' → m.Consumes m'

/-- A turn before a repetition makes it longer by one turn. -/
theorem Loops.head {turn : Cursor → Cursor → Prop} (h : Loops turn d e) (hturn : turn c d) :
    Loops turn c e := ⟨.head hturn h.turns, h.stops, h.consumes⟩

/-- A character of the class stands between `c` and `d`. -/
def Takes (p : Char → Bool) (c d : Cursor) : Prop :=
  ∃ ch s, c.rest = ch :: s ∧ p ch = true ∧ d = c.advance 1

/-- A character that is taken is read. -/
theorem Takes.consumes {p : Char → Bool} (h : c.Takes p d) : c.Consumes d := by
  obtain ⟨ch, s, hrest, -, rfl⟩ := h
  exact ⟨1, Nat.one_pos, by simp [hrest], rfl⟩

/-- A run of characters is read one character at a time. -/
theorem loops_run (p : Char → Bool) (c : Cursor) :
    Loops (Takes p) c (c.advance (Shape.run p c.rest)) := by
  induction hrest : c.rest generalizing c with
  | nil =>
    refine ⟨.refl, ?_, fun _ _ => Takes.consumes⟩
    rintro e ⟨ch, s, hcons, -⟩
    rw [Shape.run, List.takeWhile_nil, List.length_nil, advance_zero, hrest] at hcons
    cases hcons
  | cons ch s ih =>
    by_cases hp : p ch = true
    · -- The character is taken, and the run goes on after it.
      have hnext : (c.advance 1).rest = s := by rw [advance, hrest, List.drop_one, List.tail_cons]
      have hrun : Shape.run p (ch :: s) = 1 + Shape.run p s := by
        rw [Shape.run, List.takeWhile_cons_of_pos hp, List.length_cons, Nat.add_comm, Shape.run]
      rw [hrun, ← advance_advance]
      exact (ih _ hnext).head ⟨ch, s, hrest, hp, rfl⟩
    · -- s) = 0 :: The character is of another class, so that the run ends before it.
      have hrun : Shape.run p (ch :: s) = 0 := by
        rw [Shape.run, List.takeWhile_cons_of_neg hp, List.length_nil]
      rw [hrun, advance_zero]
      refine ⟨.refl, ?_, fun _ _ => Takes.consumes⟩
      rintro e ⟨ch', s', hcons, hp', -⟩
      rw [hrest] at hcons
      cases hcons
      exact hp hp'

/-- A piece of layout stands between `c` and `d`: a space, or a comment up to the line feed. -/
inductive Skips : Cursor → Cursor → Prop where
  | space {c : Cursor} {ch : Char} {s : List Char} (hrest : c.rest = ch :: s)
      (h : Layout.isSpace ch = true) : Skips c (c.advance 1)
  | comment {c : Cursor} {s : List Char} (hrest : c.rest = '-' :: '-' :: s) :
    Skips c (c.advance (2 + Shape.run (· ≠ '\n') s))

/-- A piece of layout has a character, which is skipped. -/
theorem Skips.consumes (h : c.Skips d) : c.Consumes d := by
  cases h with
  | space hrest h => exact ⟨1, Nat.one_pos, by simp [hrest], rfl⟩
  | @comment s hrest =>
    have hle := Shape.run_le (· ≠ '\n') s
    exact ⟨_, by omega, by simp only [hrest, List.length_cons]; omega, rfl⟩

end Cursor

/-- Layout that starts inside a comment goes on after the comment. -/
theorem Layout.lengthFrom_true (s : List Char) :
    lengthFrom true s =
      Shape.run (· ≠ '\n') s + length (s.drop (Shape.run (· ≠ '\n') s)) := by
  induction s with
  | nil => rfl
  | cons ch s ih =>
    by_cases hch : ch = '\n'
    · -- The line feed ends the comment and is layout itself.
      subst hch
      have hrun : Shape.run (· ≠ '\n') ('\n' :: s) = 0 := by
        rw [Shape.run, List.takeWhile_cons_of_neg (by decide), List.length_nil]
      have hspace : length ('\n' :: s) = lengthFrom false s + 1 := by
        rw [length, lengthFrom_false_cons fun h => absurd h (by decide), if_pos (by decide)]
      have houtside : decide ('\n' ≠ '\n') = false := by decide
      rw [lengthFrom, houtside, hrun, List.drop_zero, hspace, Nat.zero_add]
    · -- s) = Shape.run :: The comment goes on.
      have hrun : Shape.run (· ≠ '\n') (ch :: s) = Shape.run (· ≠ '\n') s + 1 := by
        rw [Shape.run, List.takeWhile_cons_of_pos (by simpa using hch), List.length_cons, Shape.run]
      have hinside : decide (ch ≠ '\n') = true := by simpa using hch
      rw [lengthFrom, hinside, ih, hrun, List.drop_succ_cons]
      omega

namespace Cursor

variable {c d : Cursor}

/-- Skipping a piece of layout first makes no difference. -/
theorem Skips.skipLayout_eq (h : c.Skips d) : d.skipLayout = c.skipLayout := by
  -- Whatever the piece is, the rest of the layout comes after it.
  have hsplit : ∃ n, d = c.advance n ∧ Layout.length c.rest = n + Layout.length d.rest := by
    cases h with
    | @space ch s hrest h =>
      have hhyphen : ch = '-' → s.head? ≠ some '-' := by
        rintro rfl
        exact absurd h (by decide)
      refine ⟨1, rfl, ?_⟩
      rw [advance, hrest, List.drop_one, List.tail_cons, Layout.length,
        Layout.lengthFrom_false_cons hhyphen, if_pos h, Nat.add_comm, Layout.length]
    | @comment s hrest =>
      -- The two hyphens and the characters up to the line feed are skipped together.
      refine ⟨_, rfl, ?_⟩
      have hdrop : (c.advance (2 + Shape.run (· ≠ '\n') s)).rest =
          s.drop (Shape.run (· ≠ '\n') s) := by
        rw [advance, hrest, ← List.drop_drop]
        rfl
      rw [hdrop, hrest, Layout.length, Layout.lengthFrom, Layout.lengthFrom_true]
      omega
  obtain ⟨n, rfl, hlength⟩ := hsplit
  rw [skipLayout, skipLayout, hlength, advance_advance]

/-- Where no piece of layout stands, there is no layout. -/
theorem skipLayout_of_not_skips (h : ∀ d, ¬ c.Skips d) : c.skipLayout = c := by
  have hzero : Layout.length c.rest = 0 := by
    cases hrest : c.rest with
    | nil => rfl
    | cons ch s =>
      -- Two hyphens would start a comment, and a space would be layout.
      have hhyphen : ch = '-' → s.head? ≠ some '-' := by
        rintro rfl hs
        obtain ⟨t, rfl⟩ := List.head?_eq_some_iff.1 hs
        exact h _ (.comment hrest)
      have hspace : ¬ Layout.isSpace ch = true := fun hspace => h _ (.space hrest hspace)
      rw [Layout.length, Layout.lengthFrom_false_cons hhyphen, if_neg hspace]
  rw [skipLayout, hzero, advance_zero]

/-- Layout is skipped piece by piece. -/
theorem loops_skipLayout (c : Cursor) : Loops Skips c c.skipLayout := by
  induction hlength : c.rest.length using Nat.strong_induction_on generalizing c with
  | _ n ih =>
    by_cases hturn : ∃ d, c.Skips d
    · obtain ⟨d, hd⟩ := hturn
      have hless := (consumes_iff.1 hd.consumes).2
      rw [← hd.skipLayout_eq]
      exact (ih _ (hlength ▸ hless) d rfl).head hd
    · have hnone := not_exists.1 hturn
      rw [skipLayout_of_not_skips hnone]
      exact ⟨.refl, hnone, fun _ _ => Skips.consumes⟩

end Cursor

/-- The phrases that are repeated in a phrase. -/
def Phrase.repeatedIn : {α : Type} → Phrase α → List ((β : Type) × Phrase β)
  | _, empty | _, never | _, finish | _, word _ | _, rule _ => []
  | _, seq p q | _, alt p q => p.repeatedIn ++ q.repeatedIn
  | _, opt p | _, map _ p => p.repeatedIn
  | _, many p => ⟨_, p⟩ :: p.repeatedIn

/-- A phrase that repeats nothing empty has no empty phrase among those that it repeats. -/
theorem Phrase.nullable_of_repeatedIn {α : Type} {p : Phrase α} (hp : p.productive = true)
    {q : (β : Type) × Phrase β} (hq : q ∈ p.repeatedIn) : q.2.nullable = false := by
  induction p with
  | empty | never | finish | word | rule => exact absurd hq List.not_mem_nil
  | seq p₁ p₂ ih₁ ih₂ | alt p₁ p₂ ih₁ ih₂ =>
    simp only [productive, Bool.and_eq_true] at hp
    rcases List.mem_append.1 hq with hq | hq
    · exact ih₁ hp.1 hq
    · exact ih₂ hp.2 hq
  | opt p ih | map f p ih => exact ih hp hq
  | many p ih =>
    simp only [productive, Bool.and_eq_true, Bool.not_eq_true'] at hp
    rcases List.mem_cons.1 hq with rfl | hq
    · exact hp.2
    · exact ih hp.1 hq

/-- Wherever a phrase that is repeated in the grammar matches, it reads at least one character. -/
theorem Rule.consumes_of_repeated (r : Rule) {q : (β : Type) × Phrase β}
    (hq : q ∈ r.body.repeatedIn) {c d : Cursor} {a : q.1}
    (h : (q.2.read Rule.read c).outcome = .matched a d) : c.Consumes d := by
  have hnull := Phrase.nullable_of_repeatedIn r.productive_body hq
  exact Cursor.consumes_iff.2
    ⟨q.2.reaches_of_read h, (Phrase.shrinks_of_nullable hnull c a d h).2 rfl⟩

/-! ## A reading rests on its calls -/

namespace Reading

variable {α : Type} {c : Cursor}

/-- The second alternative matters only where the first one fails. -/
theorem orElse_congr {x : Reading α} {y z : Unit → Reading α}
    (h : x.outcome = .failed → y () = z ()) : x.orElse y = x.orElse z := by
  unfold orElse
  split
  · next hx => rw [h hx]
  · rfl

/-- Two ways to read give the same repetition if they agree wherever a turn of it starts. -/
theorem repeated_eq_of_repeats {read read' : Cursor → Reading α} (bound : Nat)
    (h : ∀ m, Repeats read' c m → read m.skipLayout = read' m.skipLayout) :
    repeated read bound c = repeated read' bound c := by
  induction bound generalizing c with
  | zero => rfl
  | succ bound ih =>
    simp only [repeated, h c .refl]
    split
    · next a d hd => rw [ih fun m hm => h m (.head ⟨a, hd⟩ hm)]
    · rfl
    · rfl

end Reading

/-- A phrase is read from the readings of the rules that it calls, and of no others. -/
theorem Phrase.read_eq_of_calls {call : (r : Rule) → Cursor → Reading r.Value} {α : Type}
    (p : Phrase α) {c : Cursor} (h : ∀ r d, p.Calls c r d → call r d = r.read d) :
    p.read call c = p.read Rule.read c := by
  induction p generalizing c with
  | empty | never | finish | word => rfl
  | rule r => exact h r c ⟨rfl, rfl⟩
  | seq p q ihp ihq =>
    -- The second part is called after a match of the first, and only such matches count.
    rw [read, read, ihp fun r d hr => h r d (.inl hr)]
    apply Reading.bind_congr
    intro a m hm
    rw [ihq fun r d hr => h r d (.inr ⟨a, m, hm, hr⟩)]
  | alt p q ihp ihq =>
    rw [read, read, ihp fun r d hr => h r d (.inl hr)]
    apply Reading.orElse_congr
    intro hfail
    exact ihq fun r d hr => h r d (.inr ⟨hfail, hr⟩)
  | opt p ih | map f p ih => rw [read, read, ih h]
  | many p ih =>
    -- A turn starts after the first match and the turns before it.
    rw [read, read, ih fun r d hr => h r d (.inl hr)]
    congr 1
    apply Reading.bind_congr
    intro a m hm
    rw [Reading.repeated_eq_of_repeats _ fun m' hm' =>
      ih fun r d hr => h r d (.inr ⟨a, m, hm, m', hm', hr⟩)]

/-! ## Chains of calls -/

namespace Rule

variable {r : Rule} {c d : Cursor} {x y : Rule × Cursor}

/-- Reading a rule at a position calls another rule at the same or a later position. -/
def Call (x y : Rule × Cursor) : Prop := x.1.body.Calls x.2 y.1 y.2

/-- The length of the text ahead and the height of the rule, the former of which counts first. -/
def measure (x : Rule × Cursor) : ℕ ×ₗ ℕ := toLex (x.2.rest.length, x.1.height)

/-- Every call leaves less text ahead, or goes to a lower rule. -/
theorem measure_lt_of_call (h : Call x y) : measure y < measure x :=
  Prod.Lex.toLex_lt_toLex.2 (Phrase.Calls.below h (Nat.le_refl _) fun _ => x.1.startsBelow_body)

/-- Calls inside of calls make the measure smaller still. -/
theorem measure_lt_of_transGen (h : Relation.TransGen Call x y) : measure y < measure x := by
  induction h with
  | single hcall => exact measure_lt_of_call hcall
  | tail _ hcall ih => exact (measure_lt_of_call hcall).trans ih

/-- A rule that comes back to itself has read at least one character in between. -/
theorem consumes_of_transGen (h : Relation.TransGen Call (r, c) (r, d)) : c.Consumes d := by
  have htries : r.Tries c r d := h.to_reflTransGen
  refine Cursor.consumes_iff.2 ⟨htries.enters.reaches, ?_⟩
  -- The height is the same in the end, so that it must be the text that got shorter.
  rcases Prod.Lex.toLex_lt_toLex.1 (measure_lt_of_transGen h) with hless | ⟨-, hheight⟩
  · exact hless
  · exact absurd hheight (Nat.lt_irrefl _)

/-- Calls inside of calls are fewer than the bound on the depth of rules. -/
theorem length_lt_depth {chain : List (Rule × Cursor)} (h : (x :: chain).IsChain Call) :
    chain.length < x.1.depth x.2 := by
  induction chain generalizing x with
  | nil => exact Nat.succ_pos _
  | cons y chain ih =>
    obtain ⟨hcall, hchain⟩ := List.isChain_cons_cons.1 h
    have hrest := ih hchain
    have hdepth : y.1.depth y.2 < x.1.depth x.2 := depth_lt_of_calls hcall
    rw [List.length_cons]
    omega

/-- Reading the rule `r` at `c` ends. -/
structure Ends (r : Rule) (c : Cursor) : Prop where
  /-- The reading is that of the phrase of the rule, for which nothing has to be known but the
  readings of the rules that are called. -/
  calls : ∀ call : (s : Rule) → Cursor → Reading s.Value,
    (∀ s d, Call (r, c) (s, d) → call s d = s.read d) →
      (r.body.read call c).settle r c.offset = r.read c
  decreases : ∀ x, Call (r, c) x → measure x < measure (r, c)
  /-- Between a rule and the same rule inside of it at least one character is read. -/
  returns : ∀ d, Relation.TransGen Call (r, c) (r, d) → c.Consumes d
  nesting : ∀ chain, List.IsChain Call ((r, c) :: chain) → chain.length < r.depth c
  /-- A larger bound on the depth of rules changes nothing. -/
  bound : ∀ n, r.depth c ≤ n → readWithin n r c = r.read c
  /-- The reading is not ended by the bound. -/
  answer : (r.read c).outcome = .failed ∨ ∃ value d, (r.read c).outcome = .matched value d

/-- The reading of every rule ends at every position. -/
theorem ends (r : Rule) (c : Cursor) : r.Ends c where
  calls call h := by rw [Phrase.read_eq_of_calls r.body h, ← read_eq]
  decreases _ := measure_lt_of_call
  returns _ := consumes_of_transGen
  nesting _ := length_lt_depth
  bound _ hn := readWithin_eq hn (Nat.le_refl _)
  answer := by
    cases h : (r.read c).outcome with
    | failed => exact .inl rfl
    | matched value d => exact .inr ⟨value, d, rfl⟩
    | exhausted => exact absurd h (r.read_ne_exhausted c)

/-- A text is accepted if the rule for it matches, and rejected if it fails. -/
theorem parse_cases (r : Rule) (text : String) :
    (∃ value d, (r.read (.start text.toList)).outcome = .matched value d ∧
      r.parse text = .ok value) ∨
    (r.read (.start text.toList)).outcome = .failed ∧ ∃ e, r.parse text = .error e := by
  rcases (r.ends (.start text.toList)).answer with hfailed | ⟨value, d, hmatched⟩
  · refine .inr ⟨hfailed, .ofMisses text.toList (r.read (.start text.toList)).misses, ?_⟩
    simp only [parse, hfailed]
  · refine .inl ⟨value, d, hmatched, ?_⟩
    simp only [parse, hmatched]

end Rule

/-- Parsing ends on every text, which is accepted if the rule for it matches and rejected if it
fails. Wherever a rule is read, its reading ends. Every turn of a repetition reads at least one
character, whether it is one of phrases, one of pieces of layout or one of characters. -/
theorem parsing_ends :
    (∀ text : String, ∀ r ∈ [Rule.program, Rule.declarations],
      (∃ value d, (r.read (.start text.toList)).outcome = .matched value d ∧
        r.parse text = .ok value) ∨
      (r.read (.start text.toList)).outcome = .failed ∧ ∃ e, r.parse text = .error e) ∧
    (∀ (r : Rule) (c : Cursor), r.Ends c) ∧
    (∀ r : Rule, ∀ q ∈ r.body.repeatedIn, ∀ c a d,
      (q.2.read Rule.read c).outcome = .matched a d → c.Consumes d) ∧
    (∀ c : Cursor, c.Loops Cursor.Skips c.skipLayout) ∧
    ∀ (p : Char → Bool) (c : Cursor),
      c.Loops (Cursor.Takes p) (c.advance (Shape.run p c.rest)) := by
  refine ⟨fun text r _ => r.parse_cases text, Rule.ends, fun r q hq c a d h => ?_,
    Cursor.loops_skipLayout, Cursor.loops_run⟩
  exact r.consumes_of_repeated hq h

/-- In the text `(R)` a statement is tried again after the parenthesis, one character further on. -/
theorem parsing_ends_parentheses :
    Relation.TransGen Rule.Call (.statement, .start "(R)".toList)
        (.statement, (Cursor.start "(R)".toList).advance 1) ∧
      (Cursor.start "(R)".toList).Consumes ((Cursor.start "(R)".toList).advance 1) := by
  have hfailed : (Rule.query.read (.start "(R)".toList)).outcome = .failed := by rfl
  have hopen : ((Phrase.symbol "(").read Rule.read (.start "(R)".toList)).outcome =
      .matched ⟨"(", ⟨1, 1⟩⟩ ((Cursor.start "(R)".toList).advance 1) := by rfl
  have hcall : Rule.Call (.statement, .start "(R)".toList)
      (.statement, (Cursor.start "(R)".toList).advance 1) :=
    .inr ⟨hfailed, .inl (.inr ⟨_, _, hopen, rfl, rfl⟩)⟩
  exact ⟨.single hcall, (parsing_ends.2.1 .statement _).returns _ (.single hcall)⟩

end RelAlgebra
