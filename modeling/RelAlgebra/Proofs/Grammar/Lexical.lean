import RelAlgebra.Proofs.Rendering.Token

/-!
# What is measured is a word

Whatever length a shape measures at the start of a text, the characters of that length follow the
lexical rule of the shape: `Shape.admits_of_length?`. Together with `Shape.length?_of_admits` this
ties the measuring functions to the rules in both directions.
-/

namespace RelAlgebra.Shape

/-- The shape is one of those that the grammar of queries uses. -/
def listed : Shape → Bool
  | symbol text => text ∈ symbols
  | word letters => letters ∈ keywords
  | _ => true

variable {p : Char → Bool} {s : List Char} {n : Nat}

/-- What a run takes is one or more characters of its class. -/
theorem isRun_of_run? (h : run? p s = some n) : IsRun p (s.take n) := by
  obtain ⟨hpos, hle⟩ := run?_eq_some h
  -- What is measured is the whole run.
  have hn : n = run p s := by
    unfold run? at h
    split at h
    · simp at h
    · next m hm => rw [hm, ← Option.some.inj h]
  constructor
  · intro hnil
    have hlen : (s.take n).length = n := List.length_take_of_le hle
    rw [hnil, List.length_nil] at hlen
    omega
  · rw [hn, take_run]
    exact List.all_eq_true.1 List.all_takeWhile

/-- A fixed word takes all characters of names there are, which spell it in some case. -/
theorem lower_of_wordLength? {letters : String} (h : wordLength? letters s = some n) :
    s.take n = s.takeWhile isNameChar ∧ lower (s.take n) = letters := by
  unfold wordLength? at h
  simp only at h
  split at h
  · next hl =>
    have htake : s.take n = s.takeWhile isNameChar := by
      rw [← Option.some.inj h]
      exact take_run isNameChar s
    exact ⟨htake, htake ▸ hl⟩
  · simp at h

/-- A name is the longest run of its characters. -/
theorem isName_of_nameLength? {first : Char → Bool} (h : nameLength? first s = some n) :
    IsName first (s.take n) := by
  cases s with
  | nil => simp [nameLength?] at h
  | cons c s =>
    simp only [nameLength?] at h
    split at h
    · next hc =>
      rw [← Option.some.inj h, List.take_succ_cons, take_run]
      exact ⟨hc, List.all_eq_true.1 List.all_takeWhile⟩
    · simp at h

/-- A name takes all characters of names there are. -/
theorem take_nameLength? {first : Char → Bool} (hfirst : ∀ c, first c = true → isNameChar c = true)
    (h : nameLength? first s = some n) : s.take n = s.takeWhile isNameChar := by
  cases s with
  | nil => simp [nameLength?] at h
  | cons c s =>
    simp only [nameLength?] at h
    split at h
    · next hc =>
      rw [← Option.some.inj h, List.take_succ_cons, take_run,
        List.takeWhile_cons_of_pos (hfirst c hc)]
    · simp at h

/-! ## Literals -/

/-- What is taken with a sign is a sign and a word, or the word alone. -/
theorem isSigned_of_signed {measure : List Char → Option Nat} {unsigned : List Char → Prop}
    (hm : ∀ s n, measure s = some n → unsigned (s.take n)) (h : signed measure s = some n) :
    IsSigned unsigned (s.take n) := by
  unfold signed at h
  split at h
  · next t =>
    obtain ⟨k, hk, rfl⟩ := Option.map_eq_some_iff.1 h
    exact .inr ⟨t.take k, by rw [List.take_succ_cons], hm t k hk⟩
  · exact .inl (hm s n h)

/-- What is taken for digits of another base is a number in that base. -/
theorem isBased_of_basedLength? {letter : Char} {digit : Char → Bool}
    (h : basedLength? letter digit s = some n) : IsBased letter digit (s.take n) := by
  unfold basedLength? at h
  split at h
  · next c t =>
    split at h
    · next hc =>
      obtain ⟨k, hk, rfl⟩ := Option.map_eq_some_iff.1 h
      exact ⟨c, t.take k, by simp, hc, isRun_of_run? hk⟩
    · simp at h
  · simp at h

/-- What is taken for a decimal number is one. -/
theorem isDecimal_of_decimalLength? (h : decimalLength? s = some n) : IsDecimal (s.take n) := by
  unfold decimalLength? at h
  split at h
  · simp at h
  · next k hk =>
    split at h
    · next t ht =>
      obtain ⟨m, hm, rfl⟩ := Option.map_eq_some_iff.1 h
      refine ⟨s.take k, t.take m, ?_, isRun_of_run? hk, isRun_of_run? hm⟩
      -- The digits, and then what is left after them, which starts with the point.
      rw [Nat.add_assoc, List.take_add, ht, Nat.add_comm 1 m, List.take_succ_cons]
    · simp at h

/-- What is taken for a quoted string ends at the first quote like the one it starts with. -/
theorem isQuoted_of_quotedLength? (h : quotedLength? s = some n) : IsQuoted (s.take n) := by
  cases s with
  | nil => simp [quotedLength?] at h
  | cons q s =>
    simp only [quotedLength?] at h
    split at h
    · next hq =>
      split at h
      · next hlt =>
        -- The run of other characters ends before the end of the text, so a quote ends it.
        have hclose : s.drop (run (fun c => decide (c ≠ q)) s) ≠ [] := by
          rw [Ne, List.drop_eq_nil_iff]
          omega
        have hdrop : s.drop (run (fun c => decide (c ≠ q)) s) =
            s.dropWhile fun c => decide (c ≠ q) := by
          have h1 := List.takeWhile_append_dropWhile (p := fun c => decide (c ≠ q)) (l := s)
          have h2 := List.take_append_drop (run (fun c => decide (c ≠ q)) s) s
          rw [take_run] at h2
          exact List.append_cancel_left (h2.trans h1.symm)
        obtain ⟨d, t, hdt⟩ := List.exists_cons_of_ne_nil hclose
        have hd : d = q := by
          have hhead := List.head?_dropWhile_not (fun c => decide (c ≠ q)) s
          rw [← hdrop, hdt] at hhead
          simpa using hhead
        refine ⟨q, s.takeWhile fun c => decide (c ≠ q), ?_, by simpa using hq, ?_⟩
        · rw [← Option.some.inj h, List.take_succ_cons, List.take_add, take_run, hdt, hd]
          rfl
        · intro hmem
          simpa using List.all_eq_true.1 List.all_takeWhile q hmem
      · simp at h
    · simp at h

/-- What is taken for a literal is one of its kind. -/
theorem isLiteral_of_literalLength? {kind : LiteralKind} (h : literalLength? kind s = some n) :
    IsLiteral kind (s.take n) := by
  cases kind with
  | integer => exact isSigned_of_signed (fun _ _ => isRun_of_run?) h
  | decimal => exact isSigned_of_signed (fun _ _ => isDecimal_of_decimalLength?) h
  | binary | hex | octal => exact isSigned_of_signed (fun _ _ => isBased_of_basedLength?) h
  | string => exact isQuoted_of_quotedLength? h
  | boolean value => cases value <;> exact (lower_of_wordLength? h).2

/-- The characters that a shape measures follow its lexical rule. -/
theorem admits_of_length? {shape : Shape} (hlisted : shape.listed = true)
    (h : shape.length? s = some n) : shape.Admits (s.take n) := by
  cases shape with
  | symbol text =>
    simp only [length?] at h
    split at h
    · next hp =>
      refine ⟨by simpa [listed] using hlisted, ?_⟩
      rw [← Option.some.inj h, ← String.length_toList]
      exact (List.prefix_iff_eq_take.1 (List.isPrefixOf_iff_prefix.1 hp)).symm
    · simp at h
  | word letters => exact ⟨by simpa [listed] using hlisted, (lower_of_wordLength? h).2⟩
  | name => exact isName_of_nameLength? h
  | identifier =>
    -- A name that is measured is all that stands there of it, and that is no keyword.
    simp only [length?] at h
    split at h
    · simp at h
    · next hk =>
      refine ⟨isName_of_nameLength? h, ?_⟩
      rw [take_nameLength? (fun _ => isNameChar_of_isNameStart) h]
      simpa [isKeyword] using hk
  | typeName => exact isName_of_nameLength? h
  | literal kind => exact isLiteral_of_literalLength? h

end RelAlgebra.Shape
