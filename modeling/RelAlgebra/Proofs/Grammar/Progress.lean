import RelAlgebra.Grammar.Body

/-!
# Reading ends

The bound on the depth of rules is never reached, so that reading a rule is reading the phrase that
it stands for: `Rule.read_eq`. Every word has at least one character, a rule that cannot match
without reading leaves less text than it found, and a rule that is used where another one started
has a smaller height. Hence the pair of the length of the remaining text and the height of the rule
decreases from every rule to the rules inside of it.
-/

namespace RelAlgebra

namespace Shape

/-- Whether a word of the shape may be without characters. -/
def nullable : Shape → Bool
  | symbol text => text = ""
  | word letters => letters = ""
  | _ => false

/-- The characters of a class at the start of a text lie in the text. -/
theorem run_le (p : Char → Bool) (s : List Char) : run p s ≤ s.length :=
  (List.takeWhile_sublist p).length_le

/-- A run takes the characters of its class at the start of the text. -/
theorem take_run (p : Char → Bool) (s : List Char) : s.take (run p s) = s.takeWhile p :=
  (List.prefix_iff_eq_take.1 (List.takeWhile_prefix p)).symm

/-- A run of characters of a class is not empty and lies in the text. -/
theorem run?_eq_some {p : Char → Bool} {s : List Char} {n : Nat} (h : run? p s = some n) :
    0 < n ∧ n ≤ s.length := by
  have hle := run_le p s
  unfold run? at h
  split at h
  · simp at h
  · next hrun =>
    obtain rfl := Option.some.inj h
    rw [hrun] at hle
    exact ⟨Nat.succ_pos _, hle⟩

/-- A name has a first character and lies in the text. -/
theorem nameLength?_eq_some {p : Char → Bool} {s : List Char} {n : Nat}
    (h : nameLength? p s = some n) : 0 < n ∧ n ≤ s.length := by
  cases s with
  | nil => simp [nameLength?] at h
  | cons c s =>
    have hle := run_le isNameChar s
    simp only [nameLength?] at h
    split at h
    · obtain rfl := Option.some.inj h
      rw [List.length_cons]
      omega
    · simp at h

/-- A fixed word lies in the text, and has a character unless it is the empty word. -/
theorem wordLength?_eq_some {letters : String} {s : List Char} {n : Nat}
    (h : wordLength? letters s = some n) : n ≤ s.length ∧ (letters ≠ "" → 0 < n) := by
  have hle := (List.takeWhile_sublist isNameChar (l := s)).length_le
  simp only [wordLength?] at h
  split at h
  · next e =>
    have e' : (s.takeWhile isNameChar).length = n := by simpa using h
    refine ⟨by omega, fun hl => Nat.pos_of_ne_zero fun h0 => hl ?_⟩
    rw [← e, List.eq_nil_of_length_eq_zero (e'.trans h0)]
    rfl
  · simp at h

/-- A quoted string has its opening quote at least and lies in the text. -/
theorem quotedLength?_eq_some {s : List Char} {n : Nat} (h : quotedLength? s = some n) :
    0 < n ∧ n ≤ s.length := by
  cases s with
  | nil => simp [quotedLength?] at h
  | cons q s =>
    simp only [quotedLength?] at h
    split at h
    · split at h
      · simp only [Option.some.injEq] at h
        simp only [List.length_cons]
        omega
      · simp at h
    · simp at h

/-- A measure of words, each of which has a character. -/
def Measures (f : List Char → Option Nat) : Prop :=
  ∀ s n, f s = some n → 0 < n ∧ n ≤ s.length

/-- A sign before the word makes it longer by one character. -/
theorem Measures.signed {f : List Char → Option Nat} (hf : Measures f) : Measures (signed f) := by
  intro s n h
  unfold Shape.signed at h
  split at h
  · next t =>
    obtain ⟨m, hm, rfl⟩ := Option.map_eq_some_iff.1 h
    have hlength := hf t m hm
    rw [List.length_cons]
    omega
  · exact hf _ _ h

/-- Digits of another base stand after two characters and are not empty. -/
theorem measures_basedLength? (letter : Char) (digit : Char → Bool) :
    Measures (basedLength? letter digit) := by
  intro s n h
  unfold basedLength? at h
  split at h
  · next t =>
    split at h
    · obtain ⟨m, hm, rfl⟩ := Option.map_eq_some_iff.1 h
      have hlength := run?_eq_some hm
      rw [List.length_cons, List.length_cons]
      omega
    · simp at h
  · simp at h

/-- A decimal number has digits on both sides of its point. -/
theorem measures_decimalLength? : Measures decimalLength? := by
  intro s n h
  unfold decimalLength? at h
  split at h
  · simp at h
  · next m hm =>
    split at h
    · next t ht =>
      obtain ⟨k, hk, rfl⟩ := Option.map_eq_some_iff.1 h
      have hwhole := run?_eq_some hm
      have hfraction := run?_eq_some hk
      -- The digits before the point and those after it lie in the text with the point between them.
      have hdrop : s.length - m = t.length + 1 := by
        rw [← List.length_drop, ht, List.length_cons]
      omega
    · simp at h

/-- A literal of any kind has a character and lies in the text. -/
theorem measures_literalLength? (kind : LiteralKind) : Measures (literalLength? kind) := by
  cases kind with
  | integer => exact Measures.signed fun _ _ => run?_eq_some
  | decimal => exact measures_decimalLength?.signed
  | binary => exact (measures_basedLength? 'b' isBinaryDigit).signed
  | hex => exact (measures_basedLength? 'x' isHexDigit).signed
  | octal => exact (measures_basedLength? 'o' isOctalDigit).signed
  | string => exact fun _ _ => quotedLength?_eq_some
  | boolean value =>
    cases value <;> exact fun _ _ h => ⟨(wordLength?_eq_some h).2 (by decide),
      (wordLength?_eq_some h).1⟩

/-- A word lies inside the text, and has a character unless its shape admits none. -/
theorem length?_eq_some {shape : Shape} {s : List Char} {n : Nat} (h : shape.length? s = some n) :
    n ≤ s.length ∧ (shape.nullable = false → 0 < n) := by
  cases shape with
  | symbol text =>
    simp only [length?] at h
    split at h
    · next hp =>
      have hle := (List.isPrefixOf_iff_prefix.1 hp).length_le
      obtain rfl := Option.some.inj h
      rw [String.length_toList] at hle
      refine ⟨hle, fun hn => Nat.pos_of_ne_zero ?_⟩
      have htext : text ≠ "" := by simpa [nullable] using hn
      simpa using htext
    · simp at h
  | word letters =>
    obtain ⟨hle, hpos⟩ := wordLength?_eq_some h
    exact ⟨hle, fun hn => hpos (by simpa [nullable] using hn)⟩
  | name | typeName =>
    obtain ⟨hpos, hle⟩ := nameLength?_eq_some h
    exact ⟨hle, fun _ => hpos⟩
  | identifier =>
    simp only [length?] at h
    split at h
    · simp at h
    · obtain ⟨hpos, hle⟩ := nameLength?_eq_some h
      exact ⟨hle, fun _ => hpos⟩
  | literal kind =>
    obtain ⟨hpos, hle⟩ := measures_literalLength? kind s n h
    exact ⟨hle, fun _ => hpos⟩

end Shape

namespace Cursor

/-- Moving on leaves the text that follows. -/
@[simp] theorem length_advance (c : Cursor) (n : Nat) :
    (c.advance n).rest.length = c.rest.length - n := by
  simp [advance]

/-- Passing layout leaves no more text than there was. -/
theorem length_skipLayout (c : Cursor) : c.skipLayout.rest.length ≤ c.rest.length := by
  simp [skipLayout]

end Cursor

/-- Whether a rule may match without reading anything. -/
def Rule.nullable : Rule → Bool
  | endOfInput | program | declarations => true
  | _ => false

namespace Phrase

/-- Whether a phrase may match without reading anything. -/
def nullable : {α : Type} → Phrase α → Bool
  | _, empty | _, finish | _, opt _ | _, many _ => true
  | _, never => false
  | _, word shape => shape.nullable
  | _, rule r => r.nullable
  | _, seq p q => p.nullable && q.nullable
  | _, alt p q => p.nullable || q.nullable
  | _, map _ p => p.nullable

/-- Whether all rules that a phrase may use at the position where it starts are lower than the given
height, and all that it repeats cannot match without reading. -/
def startsBelow (height : Nat) : {α : Type} → Phrase α → Bool
  | _, empty | _, never | _, finish | _, word _ => true
  | _, rule r => r.height < height
  | _, seq p q => p.startsBelow height && (!p.nullable || q.startsBelow height)
  | _, alt p q => p.startsBelow height && q.startsBelow height
  | _, opt p | _, map _ p => p.startsBelow height
  | _, many p => p.startsBelow height && !p.nullable

end Phrase

namespace Rule

/-- All heights are below their common bound. -/
theorem height_lt (r : Rule) : r.height < heights := by
  cases r <;> simp [height, heights]

/-- Before a character is read a rule uses lower rules only, and it repeats nothing that can match
without reading. -/
theorem startsBelow_body (r : Rule) : r.body.startsBelow r.height = true := by
  cases r with
  | binaryWord op => cases op <;> rfl
  | verb v => cases v <;> rfl
  | logicalWord op => cases op <;> rfl
  | _ => rfl

/-- A rule may match without reading exactly if the phrase that it stands for may. -/
theorem nullable_body (r : Rule) : r.body.nullable = r.nullable := by
  cases r with
  | binaryWord op => cases op <;> rfl
  | verb v => cases v <;> rfl
  | logicalWord op => cases op <;> rfl
  | _ => rfl

end Rule

namespace Reading

variable {α β : Type}

/-- A match leaves no more text than there was at `c`, and less if `strict`. -/
def Shrinks (x : Reading α) (c : Cursor) (strict : Bool) : Prop :=
  ∀ value next, x.outcome = .matched value next →
    next.rest.length ≤ c.rest.length ∧ (strict = true → next.rest.length < c.rest.length)

/-- A match that leaves less text leaves no more text. -/
theorem Shrinks.weaken {x : Reading α} {c : Cursor} {strict : Bool} (h : x.Shrinks c strict) :
    x.Shrinks c false := fun value next hx => ⟨(h value next hx).1, by simp⟩

/-- Two readings in a row match if the first one matches and then the second one. -/
theorem bind_eq_matched {x : Reading α} {f : α → Cursor → Reading β} {value : β} {next : Cursor}
    (h : (x.bind f).outcome = .matched value next) :
    ∃ a c, x.outcome = .matched a c ∧ (f a c).outcome = .matched value next := by
  unfold bind at h
  split at h
  · exact ⟨_, _, by assumption, h⟩
  · simp at h
  · simp at h

/-- A function of the value does not change whether and where a reading matches. -/
theorem map_eq_matched {x : Reading α} {f : α → β} {value : β} {next : Cursor}
    (h : (x.map f).outcome = .matched value next) :
    ∃ a, x.outcome = .matched a next ∧ value = f a := by
  obtain ⟨a, c, hx, hf⟩ := bind_eq_matched h
  simp only [outcome_matched, Outcome.matched.injEq] at hf
  exact ⟨a, hf.2 ▸ hx, hf.1.symm⟩

/-- A choice matches by its first alternative, or by the second one if the first fails. -/
theorem orElse_eq_matched {x : Reading α} {y : Unit → Reading α} {value : α} {next : Cursor}
    (h : (x.orElse y).outcome = .matched value next) :
    x.outcome = .matched value next ∨
      x.outcome = .failed ∧ (y ()).outcome = .matched value next := by
  unfold orElse at h
  split at h
  · next hx => exact .inr ⟨hx, h⟩
  · exact .inl h

/-- A repetition leaves no more text than it found if the repeated reading does so. -/
theorem shrinks_repeated {read : Cursor → Reading α} (hr : ∀ c, (read c).Shrinks c false)
    (bound : Nat) (c : Cursor) : (repeated read bound c).Shrinks c false := by
  induction bound generalizing c with
  | zero => intro value next h; simp [repeated] at h
  | succ bound ih =>
    intro value next h
    simp only [repeated] at h
    split at h
    · next a d hx =>
      obtain ⟨as, has, -⟩ := map_eq_matched h
      have h1 := (hr _ _ _ hx).1
      have h2 := (ih _ _ _ has).1
      have h3 := c.length_skipLayout
      exact ⟨by omega, by simp⟩
    · simp only [Outcome.matched.injEq] at h
      simp [← h.2]
    · simp at h

/-- What is read second matters only for the matches of what is read first. -/
theorem bind_congr {x : Reading α} {f g : α → Cursor → Reading β}
    (h : ∀ a c, x.outcome = .matched a c → f a c = g a c) : x.bind f = x.bind g := by
  unfold bind
  split
  · next a c hx => rw [h a c hx]
  · rfl
  · rfl

/-- Repetitions of two readings agree on a text if the readings agree on all texts that are not
longer. -/
theorem repeated_congr {read read' : Cursor → Reading α} {n : Nat}
    (hr : ∀ c, (read c).Shrinks c false)
    (agree : ∀ c, c.rest.length ≤ n → read c = read' c) (bound : Nat) (c : Cursor)
    (hc : c.rest.length ≤ n) : repeated read bound c = repeated read' bound c := by
  induction bound generalizing c with
  | zero => rfl
  | succ bound ih =>
    have h1 := c.length_skipLayout
    simp only [repeated, ← agree c.skipLayout (by omega)]
    split
    · next a d hx =>
      have h2 := (hr _ _ _ hx).1
      rw [ih _ (by omega)]
    · rfl
    · rfl

end Reading

namespace Phrase

/-- A phrase shrinks the text if the rules in it do. -/
theorem shrinks_read {call : (r : Rule) → Cursor → Reading r.Value}
    (hcall : ∀ r c, (call r c).Shrinks c (!r.nullable)) {α : Type} (p : Phrase α) (c : Cursor) :
    (p.read call c).Shrinks c (!p.nullable) := by
  induction p generalizing c with
  | empty =>
    intro value next h
    simp only [read, Reading.outcome_matched, Outcome.matched.injEq] at h
    simp [← h.2, nullable]
  | never => intro value next h; simp [read] at h
  | finish =>
    intro value next h
    simp only [read] at h
    split at h
    · simp only [Reading.outcome_matched, Outcome.matched.injEq] at h
      simp [← h.2, nullable]
    · simp at h
  | word shape =>
    intro value next h
    simp only [read] at h
    split at h
    · next n hn =>
      simp only [Reading.outcome_matched, Outcome.matched.injEq] at h
      have h1 := Shape.length?_eq_some hn
      rw [← h.2, Cursor.length_advance]
      refine ⟨by omega, fun hs => ?_⟩
      have h2 := h1.2 (by simpa [nullable] using hs)
      omega
    · simp at h
  | rule r => exact hcall r c
  | seq p q ihp ihq =>
    intro value next h
    obtain ⟨a, d, hp, hq⟩ := Reading.bind_eq_matched h
    obtain ⟨b, hq, -⟩ := Reading.map_eq_matched hq
    obtain ⟨hfirst, hfirst'⟩ := ihp _ _ _ hp
    obtain ⟨hsecond, hsecond'⟩ := ihq _ _ _ hq
    have hskip := d.length_skipLayout
    refine ⟨by omega, fun hs => ?_⟩
    -- One of the two parts cannot match without reading, and that part takes a character.
    simp only [nullable, Bool.not_and, Bool.or_eq_true] at hs
    rcases hs with hs | hs
    · have hless := hfirst' hs
      omega
    · have hless := hsecond' hs
      omega
  | alt p q ihp ihq =>
    intro value next h
    rcases Reading.orElse_eq_matched h with h | ⟨-, h⟩
    · have h1 := ihp _ _ _ h
      exact ⟨h1.1, fun hs => h1.2 (by simp_all [nullable])⟩
    · have h1 := ihq _ _ _ h
      exact ⟨h1.1, fun hs => h1.2 (by simp_all [nullable])⟩
  | opt p ih =>
    intro value next h
    rcases Reading.orElse_eq_matched h with h | ⟨-, h⟩
    · obtain ⟨a, h, -⟩ := Reading.map_eq_matched h
      exact ⟨(ih _ _ _ h).1, by simp [nullable]⟩
    · simp only [Reading.outcome_matched, Outcome.matched.injEq] at h
      simp [← h.2, nullable]
  | many p ih =>
    intro value next h
    rcases Reading.orElse_eq_matched h with h | ⟨-, h⟩
    · obtain ⟨a, d, hp, hq⟩ := Reading.bind_eq_matched h
      obtain ⟨as, hq, -⟩ := Reading.map_eq_matched hq
      -- The first match and the repeated ones after it leave no more text than they found.
      have hfirst := (ih _ _ _ hp).1
      have hothers := (Reading.shrinks_repeated (fun c => (ih c).weaken) _ _ _ _ hq).1
      exact ⟨by omega, by simp [nullable]⟩
    · simp only [Reading.outcome_matched, Outcome.matched.injEq] at h
      simp [← h.2, nullable]
  | map f p ih =>
    intro value next h
    obtain ⟨a, h, -⟩ := Reading.map_eq_matched h
    exact ih _ _ _ h

/-- Two ways to read rules give the same reading of a phrase if they agree on all shorter texts and,
below the height at which the phrase starts, on the same text. -/
theorem read_congr {call call' : (r : Rule) → Cursor → Reading r.Value} {n h : Nat}
    (hcall : ∀ r c, (call r c).Shrinks c (!r.nullable))
    (agree : ∀ r c, c.rest.length < n ∨ c.rest.length = n ∧ r.height < h → call r c = call' r c)
    {α : Type} (p : Phrase α) (c : Cursor) (hc : c.rest.length ≤ n)
    (hp : c.rest.length = n → p.startsBelow h = true) : p.read call c = p.read call' c := by
  induction p generalizing c with
  | empty | never | finish | word => rfl
  | rule r =>
    apply agree
    by_cases hn : c.rest.length = n
    · exact .inr ⟨hn, by simpa [startsBelow] using hp hn⟩
    · exact .inl (by omega)
  | seq p q ihp ihq =>
    simp only [startsBelow, Bool.and_eq_true, Bool.or_eq_true, Bool.not_eq_true'] at hp
    simp only [read]
    rw [← ihp c hc fun hn => (hp hn).1]
    apply Reading.bind_congr
    intro a d hd
    obtain ⟨hle, hless⟩ := shrinks_read hcall p c a d hd
    have hskip := d.length_skipLayout
    rw [ihq _ (by omega)]
    intro hn
    -- The second part starts on the same text only if the first part read nothing.
    rcases (hp (by omega)).2 with hnull | hbelow
    · have hread := hless (by rw [hnull]; rfl)
      omega
    · exact hbelow
  | alt p q ihp ihq =>
    simp only [startsBelow, Bool.and_eq_true] at hp
    simp only [read]
    rw [ihp c hc fun hn => (hp hn).1, ihq c hc fun hn => (hp hn).2]
  | opt p ih =>
    simp only [read]
    rw [ih c hc hp]
  | many p ih =>
    simp only [startsBelow, Bool.and_eq_true, Bool.not_eq_true'] at hp
    simp only [read]
    rw [← ih c hc fun hn => (hp hn).1]
    congr 1
    apply Reading.bind_congr
    intro a d hd
    obtain ⟨hle, hless⟩ := shrinks_read hcall p c a d hd
    by_cases hn : d.rest.length = n
    · have hread := hless (by rw [(hp (by omega)).2]; rfl)
      omega
    · -- After the first match the text is shorter, so that nothing is known of heights any more.
      have hagree : ∀ c, c.rest.length ≤ n - 1 → p.read call c = p.read call' c := fun c hc' =>
        ih c (by omega) (by omega)
      rw [Reading.repeated_congr (fun c => (shrinks_read hcall p c).weaken) hagree _ _ (by omega)]
  | map f p ih =>
    simp only [read]
    rw [ih c hc hp]

end Phrase

namespace Rule

/-- A rule read within any depth leaves no more text than it found, and less unless it may match
without reading. -/
theorem shrinks_readWithin (n : Nat) (r : Rule) (c : Cursor) :
    (readWithin n r c).Shrinks c (!r.nullable) := by
  induction n generalizing r c with
  | zero => intro value next h; simp [readWithin] at h
  | succ n ih =>
    intro value next h
    rw [readWithin, Reading.outcome_settle] at h
    have hshrinks := Phrase.shrinks_read ih r.body c value next h
    rwa [nullable_body] at hshrinks

/-- The depth is smaller with less text ahead, and with the same text for a lower rule. -/
theorem depth_lt {r s : Rule} {c d : Cursor}
    (h : d.rest.length < c.rest.length ∨ d.rest.length = c.rest.length ∧ s.height < r.height) :
    s.depth d < r.depth c := by
  have hheight : s.height < heights := s.height_lt
  unfold depth heights at *
  omega

/-- A larger bound changes nothing. -/
theorem readWithin_eq {n m : Nat} {r : Rule} {c : Cursor} (hn : r.depth c ≤ n)
    (hm : r.depth c ≤ m) : readWithin n r c = readWithin m r c := by
  induction n generalizing m r c with
  | zero => simp [depth] at hn
  | succ n ih =>
    cases m with
    | zero => simp [depth] at hm
    | succ m =>
      -- The rules inside of the phrase have a smaller depth, so that both bounds are enough there.
      have agree : ∀ s d, d.rest.length < c.rest.length ∨
          d.rest.length = c.rest.length ∧ s.height < r.height →
          readWithin n s d = readWithin m s d := fun s d hsd => by
        have hdepth := depth_lt hsd
        exact ih (by omega) (by omega)
      rw [readWithin, readWithin, Phrase.read_congr (shrinks_readWithin n) agree r.body c
        (Nat.le_refl _) fun _ => r.startsBelow_body]

/-- Reading a rule is reading the phrase that it stands for. -/
theorem read_eq (r : Rule) (c : Cursor) : r.read c = (r.body.read read c).settle r c.offset := by
  have agree : ∀ s d, d.rest.length < c.rest.length ∨
      d.rest.length = c.rest.length ∧ s.height < r.height →
      readWithin (r.depth c) s d = s.read d := fun s d hsd =>
    readWithin_eq (Nat.le_of_lt (depth_lt hsd)) (Nat.le_refl _)
  rw [read, readWithin_eq (Nat.le_refl _) (Nat.le_succ _), readWithin,
    Phrase.read_congr (shrinks_readWithin _) agree r.body c (Nat.le_refl _)
      fun _ => r.startsBelow_body]

end Rule

namespace Phrase

variable {α : Type}

/-- A match of a phrase leaves no more text than it found, and less unless the phrase may match
without reading. -/
theorem shrinks (p : Phrase α) (c : Cursor) : (p.read Rule.read c).Shrinks c (!p.nullable) :=
  shrinks_read (fun r c => Rule.shrinks_readWithin _ r c) p c

/-- A phrase that cannot match without reading leaves less text than it found. -/
theorem shrinks_of_nullable {p : Phrase α} (hnull : p.nullable = false) (c : Cursor) :
    (p.read Rule.read c).Shrinks c true := by
  have hp := p.shrinks c
  rwa [hnull] at hp

end Phrase

end RelAlgebra
