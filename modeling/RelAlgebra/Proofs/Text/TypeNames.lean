import RelAlgebra.Grammar.Shape

/-!
# Names of data types

A data type that is read from a text has the text's canonical form as its name. For a text of name
characters, such as a declaration has it, the canonical form is the text with its ASCII letters in
upper case: there are no blanks to remove, and no letter has a capital beyond ASCII. Both are seen
from the code points of letters and digits (`Shape.isAlpha_iff`, `Shape.isDigit_iff`).
-/

namespace RelAlgebra

namespace Shape

variable {c : Char}

/-- The code points of the digits. -/
theorem isDigit_iff : c.isDigit = true ↔ 0x30 ≤ c.toNat ∧ c.toNat ≤ 0x39 := by
  change (decide (0x30 ≤ c.toNat) && decide (c.toNat ≤ 0x39)) = true ↔ _
  rw [Bool.and_eq_true, decide_eq_true_iff, decide_eq_true_iff]

/-- The code points of the capital letters and of the small ones. -/
theorem isAlpha_iff : c.isAlpha = true ↔
    (0x41 ≤ c.toNat ∧ c.toNat ≤ 0x5A) ∨ (0x61 ≤ c.toNat ∧ c.toNat ≤ 0x7A) := by
  change (decide (0x41 ≤ c.toNat ∧ c.toNat ≤ 0x5A) ||
    (decide (0x61 ≤ c.toNat) && decide (c.toNat ≤ 0x7A))) = true ↔ _
  rw [Bool.or_eq_true, Bool.and_eq_true, decide_eq_true_iff, decide_eq_true_iff,
    decide_eq_true_iff]

/-- All characters but the capital letters are their own lower case. -/
theorem toLower_eq_self (h : ¬ (0x41 ≤ c.toNat ∧ c.toNat ≤ 0x5A)) : c.toLower = c := dif_neg h

/-- The characters of names lie in ASCII, beyond its blanks. -/
theorem toNat_of_isNameChar (h : isNameChar c = true) : 0x30 ≤ c.toNat ∧ c.toNat < 0x80 := by
  simp only [isNameChar, Char.isAlphanum, Bool.or_eq_true, isAlpha_iff, isDigit_iff,
    decide_eq_true_eq] at h
  rcases h with h | rfl
  · omega
  · decide

end Shape

namespace Blank

/-- No character of a name is blank. -/
theorem isBlank_of_isNameChar {c : Char} (h : Shape.isNameChar c = true) : isBlank c = false := by
  obtain ⟨hlow, hhigh⟩ := Shape.toNat_of_isNameChar h
  simp only [isBlank, intervals, List.any_cons, List.any_nil]
  grind

/-- Nothing is removed from a text without blanks. -/
theorem trim_of_not_isBlank {s : List Char} (h : ∀ c ∈ s, isBlank c = false) : trim s = s := by
  have hstart {s : List Char} (h : ∀ c ∈ s, isBlank c = false) : trimStart s = s := by
    cases s with
    | nil => rfl
    | cons c s =>
      have hc : ¬ isBlank c = true := by simp [h c (List.mem_cons_self ..)]
      exact List.dropWhile_cons_of_neg hc
  have hreverse : ∀ c ∈ s.reverse, isBlank c = false := fun c hc => h c (List.mem_reverse.1 hc)
  rw [trim, hstart h, trimEnd, hstart hreverse, List.reverse_reverse]

end Blank

/-- In ASCII, the capital of a character is one character. -/
theorem Uppercase.ofChar_of_lt {c : Char} (h : c.toNat < 0x80) : ofChar c = [c.toUpper] := by
  have hall : ∀ n < 0x80, ofChar (Char.ofNat n) = [(Char.ofNat n).toUpper] := by decide
  have hc := hall c.toNat h
  rwa [Char.ofNat_toNat] at hc

namespace DataType

/-- The type with a given name has that name. -/
theorem name_ofName (name : String) : (ofName name).name = name := by
  unfold ofName
  cases h : known.find? (·.name = name) with
  | none => rfl
  | some type => simpa using List.find?_some h

/-- The canonical form of a text of name characters is that text in upper case. -/
theorem canonical_of_isNameChar {w : List Char} (h : ∀ c ∈ w, Shape.isNameChar c = true) :
    canonical (String.ofList w) = String.ofList (w.map Char.toUpper) := by
  have hblank : ∀ c ∈ w, Blank.isBlank c = false := fun c hc => Blank.isBlank_of_isNameChar (h c hc)
  have hupper : Uppercase.ofList w = w.map Char.toUpper := by
    have hchars : ∀ c ∈ w, Uppercase.ofChar c = [c.toUpper] := fun c hc =>
      Uppercase.ofChar_of_lt (Shape.toNat_of_isNameChar (h c hc)).2
    calc Uppercase.ofList w = (w.map fun c => [c.toUpper]).flatten := by
          rw [Uppercase.ofList, List.flatMap_def, List.map_congr_left hchars]
      _ = w.map Char.toUpper := by rw [← List.flatMap_def, ← List.map_eq_flatMap]
  rw [canonical, String.toList_ofList, Blank.trim_of_not_isBlank hblank, hupper]

/-- A type that is read from a text of name characters has that text, in upper case, as its name. -/
theorem name_ofText_of_isNameChar {w : List Char} (h : ∀ c ∈ w, Shape.isNameChar c = true) :
    (ofText (String.ofList w)).name = String.ofList (w.map Char.toUpper) := by
  rw [ofText, name_ofName, canonical_of_isNameChar h]

end DataType

end RelAlgebra
