import RelAlgebra.Analysis.Slots

/-!
# The names of slots

Different slots of one stem have different names, and slots of two stems have one name only if one
of the stems continues the other with digits. A stem that the settings accept keeps the names of
slots apart from every name that a text can spell.
-/

namespace RelAlgebra

/-- A name that a text can spell holds only characters that may stand in names. -/
def Spellable (name : String) : Prop := ∀ c ∈ name.toList, Shape.isNameChar c = true

instance (name : String) : Decidable (Spellable name) :=
  decidable_of_iff (name.toList.all Shape.isNameChar = true) List.all_eq_true

namespace Slots

/-- Numbers are written with decimal digits. -/
theorem isDigit_of_mem_toString {n : Nat} {c : Char} (h : c ∈ (toString n).toList) :
    c.isDigit = true := by
  have hmem : c ∈ Nat.toDigits 10 n := by
    rw [← Nat.toList_repr]
    exact h
  exact Nat.isDigit_of_mem_toDigits (by decide) (by decide) hmem

/-- Two slots with one name have one number. -/
theorem name_inj (s : Slots) {m n : Nat} : s.name m = s.name n ↔ m = n := by
  refine ⟨fun h => ?_, congrArg s.name⟩
  -- The digits after the stem are the same, and a number is read back from its digits.
  have hdigits : Nat.toDigits 10 m = Nat.toDigits 10 n := by
    rw [← Nat.toList_repr, ← Nat.toList_repr]
    exact congrArg String.toList ((String.append_right_inj s.stem).1 h)
  rw [← Nat.ofDigitChars_ten_toDigits (n := m), hdigits, Nat.ofDigitChars_ten_toDigits]

/-- The longer stem is the shorter one followed by one or more decimal digits. -/
def Continues (longer shorter : String) : Prop :=
  ∃ digits : List Char, digits ≠ [] ∧ (∀ c ∈ digits, c.isDigit = true) ∧
    longer = shorter ++ String.ofList digits

/-- If one number is written as the other with some characters before it, then these characters,
which the stem of the other has at its end, are digits. -/
theorem eq_or_continues {p q : String} {m n : Nat} {digits : List Char}
    (hstem : q.toList = p.toList ++ digits)
    (hnumber : (toString m).toList = digits ++ (toString n).toList) :
    (p = q ∧ m = n) ∨ Continues q p := by
  cases digits with
  | nil =>
    rw [List.append_nil, String.toList_inj] at hstem
    rw [List.nil_append, String.toList_inj] at hnumber
    exact .inl ⟨hstem.symm, (Slots.mk p 0).name_inj.1 (congrArg (p ++ ·) hnumber)⟩
  | cons c digits =>
    refine .inr ⟨c :: digits, by simp, fun d hd => ?_, ?_⟩
    · exact isDigit_of_mem_toString (hnumber ▸ List.mem_append_left _ hd)
    · rw [← String.toList_inj, String.toList_append, String.toList_ofList]
      exact hstem

/-- Slots have one name only if they have one stem and one number, or if one of the stems continues
the other with digits. -/
theorem append_toString_cases {p q : String} {m n : Nat}
    (h : p ++ toString m = q ++ toString n) :
    (p = q ∧ m = n) ∨ Continues p q ∨ Continues q p := by
  rw [← String.toList_inj, String.toList_append, String.toList_append,
    List.append_eq_append_iff] at h
  rcases h with ⟨digits, hstem, hnumber⟩ | ⟨digits, hstem, hnumber⟩
  · rcases eq_or_continues hstem hnumber with hsame | hlonger
    · exact .inl hsame
    · exact .inr (.inr hlonger)
  · rcases eq_or_continues hstem hnumber with ⟨hsame, hsame'⟩ | hlonger
    · exact .inl ⟨hsame.symm, hsame'.symm⟩
    · exact .inr (.inl hlonger)

end Slots

/-- No text spells the name of a slot whose stem was accepted. -/
theorem Config.not_spellable (config : Config) (n : Nat) :
    ¬ Spellable (config.stem ++ toString n) := by
  intro h
  have hstem := config.foreign
  rw [List.all_eq_false] at hstem
  -- A character of the stem that stands in no name stands in the name of the slot.
  obtain ⟨c, hc, hforeign⟩ := hstem
  apply hforeign
  apply h c
  rw [String.toList_append]
  exact List.mem_append_left _ hc

end RelAlgebra
