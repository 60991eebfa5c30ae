import Mathlib.Algebra.Group.Nat.Defs
import Mathlib.Data.List.DropRight
import RelAlgebra.Proofs.Text.TypeNames

/-!
# Canonical spellings of data types

A text spells the data type that has the canonical form of the text as its name. So the name of a
type spells the type again, which comes to this: the canonical form of a canonical form is that form
itself. Trimming a text and putting it in upper case can change places (`Uppercase.trim_ofList`), and
doing either of them twice is doing it once.

For all of Unicode this rests on what the tables say of single characters. A capital is its own
capital and is not blank, and a blank character is its own capital. There are some 1500 letters, too
many to compare each one with every entry of the tables. Instead the code points of either kind are
collected as the bits of one number, and two kinds have no code point in common if the two numbers
have no bit in common (`Uppercase.notMem_of_bits`).
-/

namespace RelAlgebra

/-! ## The tables -/

namespace Uppercase

/-- The number whose bits are the given code points. -/
def bits (codes : List Nat) : Nat := codes.foldr (fun n acc => 2 ^ n ||| acc) 0

/-- The bits of the number are the code points. -/
theorem testBit_bits (codes : List Nat) (n : Nat) :
    (bits codes).testBit n = true ↔ n ∈ codes := by
  induction codes with
  | nil => simp [bits]
  | cons m codes ih =>
    have hcons : bits (m :: codes) = 2 ^ m ||| bits codes := rfl
    rw [hcons, Nat.testBit_or, Nat.testBit_two_pow, Bool.or_eq_true, decide_eq_true_eq, ih,
      List.mem_cons, eq_comm]

/-- Code points whose numbers have no bit in common have no member in common. -/
theorem notMem_of_bits {l m : List Nat} (h : bits l &&& bits m = 0) {n : Nat} (hl : n ∈ l) :
    n ∉ m := by
  intro hm
  have hboth : (bits l &&& bits m).testBit n = true := by
    rw [Nat.testBit_and, (testBit_bits l n).2 hl, (testBit_bits m n).2 hm]
    rfl
  rw [h, Nat.zero_testBit] at hboth
  exact nomatch hboth

/-- How far the letters of a run are from the first of them. -/
def Run.distances (r : Run) : List Nat :=
  (List.range (r.last - r.first + 1)).filter (· % r.stride = 0)

/-- The letters that have another capital. -/
def letters : List Nat :=
  List.range' 0x61 26 ++ runs.flatMap (fun r => r.distances.map (r.first + ·)) ++
    expansions.map (·.1)

/-- The code points in the capitals of these letters. -/
def capitals : List Nat :=
  List.range' 0x41 26 ++ runs.flatMap (fun r => r.distances.map (r.capital + ·)) ++
    expansions.flatMap (·.2)

/-- The blank code points. -/
def blanks : List Nat := Blank.intervals.flatMap fun (lo, hi) => List.range' lo (hi - lo + 1)

/-- No code point of a capital is blank or a letter with another capital. -/
theorem bits_capitals : bits capitals &&& bits (blanks ++ letters) = 0 := by decide +kernel

/-- No blank code point is a letter with another capital. -/
theorem bits_blanks : bits blanks &&& bits letters = 0 := by decide +kernel

/-- The code points of capitals are those of characters. -/
theorem isValidChar_of_mem_capitals : ∀ n ∈ capitals, n.isValidChar := by decide +kernel

/-- What a run gives for a code point lies as far along its capitals as the code point does along
its letters. -/
theorem Run.exists_distance {r : Run} {n m : Nat} (h : r.capital? n = some m) :
    ∃ i ∈ r.distances, n = r.first + i ∧ m = r.capital + i := by
  unfold capital? at h
  split at h
  · next hon =>
    obtain ⟨hfirst, hlast, hstride⟩ := hon
    have hrange : n - r.first ∈ List.range (r.last - r.first + 1) := by
      rw [List.mem_range]
      omega
    refine ⟨n - r.first, List.mem_filter.2 ⟨hrange, by simpa using hstride⟩, by omega, ?_⟩
    exact (Option.some.inj h).symm
  · exact nomatch h

/-- A code point is its own capital, or else it is a letter with another one. -/
theorem ofCode_cases (n : Nat) :
    ofCode n = [n] ∨ n ∈ letters ∧ ofCode n ≠ [] ∧ ∀ m ∈ ofCode n, m ∈ capitals := by
  unfold ofCode
  split
  · -- In ASCII there are just the small letters from `a` to `z`.
    split
    · next hsmall =>
      have hletter : n ∈ List.range' 0x61 26 := List.mem_range'_1.2 (by omega)
      have hcapital : n - 0x20 ∈ List.range' 0x41 26 := List.mem_range'_1.2 (by omega)
      refine .inr ⟨by simp [letters, hletter], by simp, fun m hm => ?_⟩
      rw [List.mem_singleton.1 hm]
      simp [capitals, hcapital]
    · exact .inl rfl
  · split
    · -- The code point lies on a run of letters.
      next capital hrun =>
      obtain ⟨r, hr, hcapital⟩ := List.exists_of_findSome?_eq_some hrun
      obtain ⟨i, hi, hn, hc⟩ := r.exists_distance hcapital
      have hletter : n ∈ runs.flatMap fun r => r.distances.map (r.first + ·) :=
        List.mem_flatMap.2 ⟨r, hr, List.mem_map.2 ⟨i, hi, hn.symm⟩⟩
      have hmem : capital ∈ runs.flatMap fun r => r.distances.map (r.capital + ·) :=
        List.mem_flatMap.2 ⟨r, hr, List.mem_map.2 ⟨i, hi, hc.symm⟩⟩
      refine .inr ⟨by simp [letters, hletter], by simp, fun m hm => ?_⟩
      rw [List.mem_singleton.1 hm]
      simp [capitals, hmem]
    · -- On no run, it may still have a capital of several characters.
      cases hlookup : expansions.lookup n with
      | none => exact .inl rfl
      | some codes =>
        have hmem : (n, codes) ∈ expansions := by
          obtain ⟨before, after, heq, -⟩ := List.lookup_eq_some_iff.1 hlookup
          rw [heq]
          simp
        have hne : ∀ e ∈ expansions, e.2 ≠ [] := by decide
        have hletter : n ∈ expansions.map (·.1) := List.mem_map_of_mem hmem
        refine .inr ⟨by simp [letters, hletter], hne _ hmem, fun m hm => ?_⟩
        have hcapital : m ∈ expansions.flatMap (·.2) := List.mem_flatMap.2 ⟨_, hmem, hm⟩
        simp [capitals, hcapital]

/-- All but the letters in the tables are their own capitals. -/
theorem ofCode_of_not_mem {n : Nat} (h : n ∉ letters) : ofCode n = [n] :=
  (ofCode_cases n).resolve_right fun hcases => h hcases.1

/-- A blank character has a blank code point. -/
theorem mem_blanks {c : Char} (h : Blank.isBlank c = true) : c.toNat ∈ blanks := by
  simp only [Blank.isBlank, List.any_eq_true, Bool.and_eq_true, decide_eq_true_eq] at h
  obtain ⟨e, he, hlo, hhi⟩ := h
  exact List.mem_flatMap.2 ⟨e, he, List.mem_range'_1.2 (by omega)⟩

/-! ## Characters -/

/-- A character is its own capital, or its capital is made of characters that are their own capitals
and are not blank. -/
theorem ofChar_cases (c : Char) :
    ofChar c = [c] ∨
      ofChar c ≠ [] ∧ ∀ d ∈ ofChar c, ofChar d = [d] ∧ Blank.isBlank d = false := by
  unfold ofChar
  rcases ofCode_cases c.toNat with hown | ⟨-, hne, hcapitals⟩
  · left
    rw [hown, List.map_singleton, Char.ofNat_toNat]
  · refine .inr ⟨by simpa using hne, fun d hd => ?_⟩
    obtain ⟨m, hm, rfl⟩ := List.mem_map.1 hd
    have hcapital := hcapitals m hm
    have hcode : (Char.ofNat m).toNat = m := by
      rw [Char.ofNat, dif_pos (isValidChar_of_mem_capitals m hcapital)]
      rfl
    -- A code point of a capital is neither blank nor a letter with another capital.
    have hapart := notMem_of_bits bits_capitals hcapital
    rw [List.mem_append, not_or] at hapart
    obtain ⟨hblank, hletter⟩ := hapart
    constructor
    · rw [hcode, ofCode_of_not_mem hletter, List.map_singleton]
    · rw [← Bool.not_eq_true]
      intro hd
      exact hblank (hcode ▸ mem_blanks hd)

/-- A blank character is its own capital. -/
theorem ofChar_of_isBlank {c : Char} (h : Blank.isBlank c = true) : ofChar c = [c] := by
  have hletter : c.toNat ∉ letters := notMem_of_bits bits_blanks (mem_blanks h)
  rw [ofChar, ofCode_of_not_mem hletter, List.map_singleton, Char.ofNat_toNat]

/-- A text in upper case is in upper case. -/
theorem ofList_ofList (s : List Char) : ofList (ofList s) = ofList s := by
  have hchar (c : Char) : (ofChar c).flatMap ofChar = ofChar c := by
    rcases ofChar_cases c with hown | ⟨-, hcapitals⟩
    · rw [hown, List.flatMap_singleton, hown]
    · calc (ofChar c).flatMap ofChar = (ofChar c).flatMap (fun d => [d]) :=
            List.flatMap_congr fun d hd => (hcapitals d hd).1
        _ = ofChar c := List.flatMap_singleton' _
  calc ofList (ofList s) = s.flatMap fun c => (ofChar c).flatMap ofChar := List.flatMap_assoc
    _ = ofList s := by rw [funext hchar]; rfl

end Uppercase

/-! ## Trimming -/

namespace Blank

/-- The text that stands for a character is blank only if the character is, and then it is the
character itself. -/
structure Keeps (f : Char → List Char) : Prop where
  blank : ∀ c, isBlank c = true → f c = [c]
  ne_nil : ∀ c, f c ≠ []
  solid : ∀ c, isBlank c = false → ∀ d ∈ f c, isBlank d = false

/-- It does not matter whether the start of a text is trimmed before or after its characters are
replaced. -/
theorem Keeps.trimStart_flatMap {f : Char → List Char} (h : Keeps f) (s : List Char) :
    trimStart (s.flatMap f) = (trimStart s).flatMap f := by
  unfold trimStart
  induction s with
  | nil => rfl
  | cons c s ih =>
    rw [List.flatMap_cons]
    cases hc : isBlank c with
    | true =>
      -- A blank stands for itself and is removed before and after.
      rw [h.blank c hc, List.singleton_append, List.dropWhile_cons_of_pos hc,
        List.dropWhile_cons_of_pos hc, ih]
    | false =>
      -- What stands for another character starts with one that is not blank.
      obtain ⟨d, ds, hd⟩ := List.exists_cons_of_ne_nil (h.ne_nil c)
      have hsolid : isBlank d = false := h.solid c hc d (by simp [hd])
      rw [List.dropWhile_cons_of_neg (by simp [hc]), List.flatMap_cons, hd, List.cons_append,
        List.dropWhile_cons_of_neg (by simp [hsolid])]

/-- Read backwards, the texts that stand for characters keep blanks as well. -/
theorem Keeps.reverse {f : Char → List Char} (h : Keeps f) : Keeps fun c => (f c).reverse where
  blank c hc := by rw [h.blank c hc, List.reverse_singleton]
  ne_nil c := by simpa using h.ne_nil c
  solid c hc d hd := h.solid c hc d (List.mem_reverse.1 hd)

/-- It does not matter whether a text is trimmed before or after its characters are replaced. -/
theorem Keeps.trim_flatMap {f : Char → List Char} (h : Keeps f) (s : List Char) :
    trim (s.flatMap f) = (trim s).flatMap f := by
  have hend (u : List Char) : trimEnd (u.flatMap f) = (trimEnd u).flatMap f := by
    calc trimEnd (u.flatMap f)
        = (trimStart (u.reverse.flatMap fun c => (f c).reverse)).reverse := by
          rw [trimEnd, List.reverse_flatMap]
          rfl
      _ = ((trimStart u.reverse).flatMap fun c => (f c).reverse).reverse := by
          rw [h.reverse.trimStart_flatMap]
      _ = (trimEnd u).flatMap f := List.flatMap_reverse.symm
  rw [trim, h.trimStart_flatMap, hend, trim]

/-- A trimmed text has nothing to be trimmed. -/
theorem trim_trim (s : List Char) : trim (trim s) = trim s := by
  have hstart : trimStart (trim s) = trim s := by
    have hprefix : trim s <+: trimStart s := List.rdropWhile_prefix isBlank _
    cases ht : trim s with
    | nil => rfl
    | cons c t =>
      -- The first character is that of the text after its blanks.
      obtain ⟨u, hu⟩ := hprefix
      rw [ht, List.cons_append] at hu
      have hself : trimStart (c :: (t ++ u)) = c :: (t ++ u) := by
        rw [hu]
        exact List.dropWhile_idempotent isBlank s
      have hc : ¬ isBlank c = true := List.dropWhile_eq_self_iff.1 hself (by simp)
      exact List.dropWhile_cons_of_neg hc
  calc trim (trim s) = trimEnd (trim s) := by rw [trim, hstart]
    _ = trim s := List.rdropWhile_idempotent isBlank (trimStart s)

end Blank

namespace Uppercase

/-- Capitals keep blanks. -/
theorem keeps_ofChar : Blank.Keeps ofChar where
  blank _ hc := ofChar_of_isBlank hc
  ne_nil c := by
    rcases ofChar_cases c with hown | ⟨hne, -⟩
    · simp [hown]
    · exact hne
  solid c hc d hd := by
    rcases ofChar_cases c with hown | ⟨-, hcapitals⟩
    · rw [hown, List.mem_singleton] at hd
      rw [hd, hc]
    · exact (hcapitals d hd).2

/-- A text may be trimmed before or after it is put in upper case. -/
theorem trim_ofList (s : List Char) : Blank.trim (ofList s) = ofList (Blank.trim s) :=
  keeps_ofChar.trim_flatMap s

end Uppercase

/-! ## Names of types -/

namespace DataType

/-- The canonical form of a canonical form is that form. -/
theorem canonical_canonical (s : String) : canonical (canonical s) = canonical s := by
  unfold canonical
  rw [String.toList_ofList, Uppercase.trim_ofList, Blank.trim_trim, Uppercase.ofList_ofList]

/-- Types with different names are different. -/
theorem ofName_inj {m n : String} : ofName m = ofName n ↔ m = n := by
  constructor
  · intro h
    rw [← name_ofName m, h, name_ofName]
  · rintro rfl
    rfl

/-- The name of the type that a text spells is the text without blanks at its ends and in upper
case, where the order of the two does not matter. It spells the type again, and two texts spell the
same type exactly if they give the same name. -/
theorem ofText_name_canonical (s t : String) :
    ofText (ofText s).name = ofText s ∧
    (ofText s).name = String.ofList (Uppercase.ofList (Blank.trim s.toList)) ∧
    (ofText s).name = String.ofList (Blank.trim (Uppercase.ofList s.toList)) ∧
    (ofText s = ofText t ↔
      Uppercase.ofList (Blank.trim s.toList) = Uppercase.ofList (Blank.trim t.toList)) := by
  have hname (u : String) : (ofText u).name = canonical u := name_ofName _
  refine ⟨?_, hname s, ?_, ?_⟩
  · rw [hname, ofText, canonical_canonical, ofText]
  · rw [Uppercase.trim_ofList]
    exact hname s
  · rw [ofText, ofText, ofName_inj, canonical, canonical, String.ofList_inj]

/-- The capital of a ligature or of a sharp s has two letters. -/
example : ofText " ﬂoaT\t" = float ∧ ofText "straße" = other "STRASSE" := by decide

end DataType

end RelAlgebra
