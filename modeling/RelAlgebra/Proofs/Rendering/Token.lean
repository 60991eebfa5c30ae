import Mathlib.Logic.Basic
import RelAlgebra.Proofs.Grammar.Names
import RelAlgebra.Proofs.Text.TypeNames

/-!
# Words and where they end

`Shape.Admits` is the lexical rule of each shape, stated for a whole word. A word that is followed
by layout, by a parenthesis or by nothing is measured to its end by its own shape:
`Shape.length?_of_admits`. A shape that clashes with the one of the word does not match there at
all: `Shape.length?_of_clashes`. Which shapes clash is computed, so that what a grammar rule makes
of the next word can be decided.
-/

namespace RelAlgebra

namespace Shape

/-! ## The lexical rules -/

/-- The symbols of the query language. -/
def symbols : List String :=
  ["(", ")", ",", ";", "->", "→", "<<", ">>", "∪", "∩", "−", "⋈", "[]", "×", "÷", "π", "ρ", "σ",
   "∧", "&&", "∨", "||", "<=", ">=", "<>", "!=", "=", "<", ">", "≤", "≥", "≠", "+", "-", "*", "/",
   "^", "%"]

/-- One or more characters of a class. -/
def IsRun (p : Char → Bool) (w : List Char) : Prop := w ≠ [] ∧ ∀ c ∈ w, p c = true

/-- A character of the given class, followed by characters of names. -/
def IsName (first : Char → Bool) : List Char → Prop
  | [] => False
  | c :: s => first c = true ∧ ∀ d ∈ s, isNameChar d = true

instance decidableIsName (first : Char → Bool) : (w : List Char) → Decidable (IsName first w)
  | [] => inferInstanceAs (Decidable False)
  | c :: s =>
    decidable_of_iff (first c = true ∧ s.all isNameChar = true) (.and .rfl List.all_eq_true)

/-- A word with or without a minus sign before it. -/
def IsSigned (unsigned : List Char → Prop) (w : List Char) : Prop :=
  unsigned w ∨ ∃ u, w = '-' :: u ∧ unsigned u

/-- Digits after a zero and the letter of their base. -/
def IsBased (letter : Char) (digit : Char → Bool) (w : List Char) : Prop :=
  ∃ x ds, w = '0' :: x :: ds ∧ x.toLower = letter ∧ IsRun digit ds

/-- Digits, a point and digits. -/
def IsDecimal (w : List Char) : Prop :=
  ∃ a b, w = a ++ '.' :: b ∧ IsRun Char.isDigit a ∧ IsRun Char.isDigit b

/-- A text between two quotes that are alike and do not occur in it. -/
def IsQuoted (w : List Char) : Prop :=
  ∃ q s, w = q :: (s ++ [q]) ∧ (q = '"' ∨ q = '\'') ∧ q ∉ s

/-- The lexical rules of the literals. -/
def IsLiteral : LiteralKind → List Char → Prop
  | .integer, w => IsSigned (IsRun Char.isDigit) w
  | .decimal, w => IsSigned IsDecimal w
  | .binary, w => IsSigned (IsBased 'b' isBinaryDigit) w
  | .hex, w => IsSigned (IsBased 'x' isHexDigit) w
  | .octal, w => IsSigned (IsBased 'o' isOctalDigit) w
  | .string, w => IsQuoted w
  | .boolean true, w => lower w = "true"
  | .boolean false, w => lower w = "false"

/-- The lexical rules of the words of the query language. -/
def Admits : Shape → List Char → Prop
  | symbol text, w => text ∈ symbols ∧ w = text.toList
  | word letters, w => letters ∈ keywords ∧ lower w = letters
  | name, w => IsName isNameStart w
  | identifier, w => IsName isNameStart w ∧ lower w ∉ keywords
  | typeName, w => IsName Char.isAlpha w
  | literal kind, w => IsLiteral kind w

/-! ## What follows a word -/

/-- The characters with which layout starts, and the parentheses. -/
def stops : List Char := [' ', '\t', '\r', '\n', '-', '(', ')']

/-- The text is empty or starts with layout or a parenthesis. -/
def Halts (r : List Char) : Prop := ∀ c ∈ r.head?, c ∈ stops

/-- A word of the shape ends before the text. A symbol also ends where a name starts. -/
def Ends : Shape → List Char → Prop
  | symbol _, r => ∀ c ∈ r.head?, c ∈ stops ∨ isNameChar c = true
  | _, r => Halts r

variable {w r : List Char} {p : Char → Bool}

/-- Every word ends before layout and parentheses. -/
theorem Halts.ends (hr : Halts r) (shape : Shape) : shape.Ends r := by
  cases shape with
  | symbol text => exact fun c hc => .inl (hr c hc)
  | _ => exact hr

/-- A class with none of these characters has no character there. -/
theorem Halts.head (hr : Halts r) (hp : stops.any p = false) : ∀ c ∈ r.head?, p c = false := by
  intro c hc
  simpa using List.any_eq_false.1 hp c (hr c hc)

/-- A word of a class is the longest one, if what follows it does not belong to the class. -/
theorem takeWhile_append_of_head (hr : ∀ c ∈ r.head?, p c = false) (hw : ∀ c ∈ w, p c = true) :
    (w ++ r).takeWhile p = w := by
  have hend : r.takeWhile p = [] := by
    cases r with
    | nil => rfl
    | cons c s => exact List.takeWhile_cons_of_neg (by simp [hr c rfl])
  rw [List.takeWhile_append_of_pos hw, hend, List.append_nil]

/-- A word of a class without layout and parentheses is the longest one. -/
theorem Halts.takeWhile_append (hr : Halts r) (hp : stops.any p = false)
    (hw : ∀ c ∈ w, p c = true) : (w ++ r).takeWhile p = w :=
  takeWhile_append_of_head (hr.head hp) hw

/-- The length of the longest word of a class is given, unless it is empty. -/
theorem run?_of_takeWhile {s : List Char} (hw : w ≠ []) (hs : s.takeWhile p = w) :
    run? p s = some w.length := by
  have hlen : 0 < w.length := List.length_pos_iff.2 hw
  unfold run? run
  rw [hs]
  split
  · omega
  · next h => rw [h]

/-- A run of characters is measured to its end. -/
theorem run?_append (hr : Halts r) (hp : stops.any p = false) (hw : IsRun p w) :
    run? p (w ++ r) = some w.length :=
  run?_of_takeWhile hw.1 (hr.takeWhile_append hp hw.2)

/-- Letters are characters of names. -/
theorem isNameChar_of_isAlpha {c : Char} (h : c.isAlpha = true) : isNameChar c = true := by
  simp [isNameChar, Char.isAlphanum, h]

/-- The characters of a word in lower case are those of the word. -/
theorem isNameChar_of_toLower {c : Char} (h : isNameChar c.toLower = true) :
    isNameChar c = true := by
  by_cases hupper : 0x41 ≤ c.toNat ∧ c.toNat ≤ 0x5A
  · exact isNameChar_of_isAlpha (isAlpha_iff.2 (.inl hupper))
  · rwa [toLower_eq_self hupper] at h

/-- A keyword in any case consists of characters of names. -/
theorem isNameChar_of_keyword {letters : String} (hl : letters ∈ keywords)
    (hw : lower w = letters) : ∀ c ∈ w, isNameChar c = true := by
  have hchars : ∀ letters ∈ keywords, letters.toList.all isNameChar = true := by decide
  intro c hc
  apply isNameChar_of_toLower
  apply List.all_eq_true.1 (hchars letters hl)
  rw [← hw, lower, String.toList_ofList]
  exact List.mem_map_of_mem hc

/-- A keyword in any case is measured to its end. -/
theorem wordLength?_append {letters : String} (hr : Halts r) (hl : letters ∈ keywords)
    (hw : lower w = letters) : wordLength? letters (w ++ r) = some w.length := by
  unfold wordLength?
  rw [hr.takeWhile_append (by decide) (isNameChar_of_keyword hl hw)]
  simp [hw]

/-- A name consists of characters of names. -/
theorem IsName.isNameChar {first : Char → Bool} (hw : IsName first w)
    (hfirst : ∀ c, first c = true → Shape.isNameChar c = true) :
    ∀ c ∈ w, Shape.isNameChar c = true := by
  cases w with
  | nil => simp
  | cons c s =>
    intro d hd
    rcases List.mem_cons.1 hd with rfl | hd
    · exact hfirst d hw.1
    · exact hw.2 d hd

/-- A name is measured to its end, if no character of a name follows it. -/
theorem nameLength?_append {first : Char → Bool} (hr : ∀ c ∈ r.head?, Shape.isNameChar c = false)
    (hw : IsName first w) : nameLength? first (w ++ r) = some w.length := by
  cases w with
  | nil => exact hw.elim
  | cons c s =>
    rw [List.cons_append, nameLength?, if_pos hw.1, run, takeWhile_append_of_head hr hw.2,
      List.length_cons]

/-! ## Literals -/

/-- A number in a base is measured to its end. -/
theorem basedLength?_append {letter : Char} {digit : Char → Bool} (hr : Halts r)
    (hd : stops.any digit = false) (hw : IsBased letter digit w) :
    basedLength? letter digit (w ++ r) = some w.length := by
  obtain ⟨x, ds, rfl, hx, hds⟩ := hw
  simp [basedLength?, hx, run?_append hr hd hds]

/-- A decimal number is measured to its end. -/
theorem decimalLength?_append (hr : Halts r) (hw : IsDecimal w) :
    decimalLength? (w ++ r) = some w.length := by
  obtain ⟨a, b, rfl, ha, hb⟩ := hw
  -- The first digits end at the point.
  have hrun : run? Char.isDigit (a ++ ('.' :: (b ++ r))) = some a.length := by
    refine run?_of_takeWhile ha.1 ?_
    rw [List.takeWhile_append_of_pos ha.2]
    simp
  rw [List.append_assoc, List.cons_append, decimalLength?, hrun]
  simp only [List.drop_left, run?_append hr (by decide : stops.any Char.isDigit = false) hb,
    Option.map_some, List.length_append, List.length_cons, Option.some.injEq]
  omega

/-- The first character of a number is a digit. -/
def StartsWithDigit : List Char → Prop
  | [] => False
  | c :: _ => c.isDigit = true

/-- An integer starts with a digit. -/
theorem IsRun.startsWithDigit (hw : IsRun Char.isDigit w) : StartsWithDigit w := by
  cases w with
  | nil => exact hw.1 rfl
  | cons c s => exact hw.2 c (List.mem_cons_self ..)

/-- A decimal number starts with a digit. -/
theorem IsDecimal.startsWithDigit (hw : IsDecimal w) : StartsWithDigit w := by
  obtain ⟨a, b, rfl, ha, -⟩ := hw
  cases a with
  | nil => exact (ha.1 rfl).elim
  | cons c s => exact ha.2 c (List.mem_cons_self ..)

/-- A number in a base starts with a digit, the zero. -/
theorem IsBased.startsWithDigit {letter : Char} {digit : Char → Bool}
    (hw : IsBased letter digit w) : StartsWithDigit w := by
  obtain ⟨x, ds, rfl, -, -⟩ := hw
  exact (by decide : '0'.isDigit = true)

/-- Before a digit there is no sign to skip. -/
theorem signed_of_startsWithDigit {measure : List Char → Option Nat} (hw : StartsWithDigit w) :
    signed measure (w ++ r) = measure (w ++ r) := by
  cases w with
  | nil => exact hw.elim
  | cons c s =>
    have hc : c ≠ '-' := by
      rintro rfl
      exact absurd hw (by decide : ¬ '-'.isDigit = true)
    rw [List.cons_append, signed]
    simpa using hc

/-- A measure that is faithful to an unsigned number is faithful to it with its sign. -/
theorem signed_append {measure : List Char → Option Nat} {unsigned : List Char → Prop}
    (hdigit : ∀ u, unsigned u → StartsWithDigit u)
    (hm : ∀ u, unsigned u → measure (u ++ r) = some u.length) (hw : IsSigned unsigned w) :
    signed measure (w ++ r) = some w.length := by
  rcases hw with hw | ⟨u, rfl, hu⟩
  · rw [signed_of_startsWithDigit (hdigit w hw), hm w hw]
  · rw [List.cons_append, signed, hm u hu]
    rfl

/-- A string is measured to its closing quote, whatever follows it. -/
theorem quotedLength?_append (hw : IsQuoted w) : quotedLength? (w ++ r) = some w.length := by
  obtain ⟨q, s, rfl, hq, hs⟩ := hw
  have hquote : (decide (q = '"') || decide (q = '\'')) = true := by simpa using hq
  -- Up to the closing quote stand just the characters between the quotes.
  have hrun : run (fun c => decide (c ≠ q)) (s ++ [q] ++ r) = s.length := by
    unfold run
    rw [List.append_assoc, List.takeWhile_append_of_pos]
    · simp
    · intro c hc
      have hne : c ≠ q := fun h => hs (h ▸ hc)
      simpa using hne
  rw [List.cons_append, quotedLength?, if_pos hquote]
  simp only [hrun]
  rw [if_pos (by simp)]
  simp

/-- A literal is measured to its end. -/
theorem literalLength?_append {kind : LiteralKind} (hr : Halts r) (hw : IsLiteral kind w) :
    literalLength? kind (w ++ r) = some w.length := by
  cases kind with
  | integer =>
    exact signed_append (fun _ => IsRun.startsWithDigit) (fun _ => run?_append hr (by decide)) hw
  | decimal =>
    exact signed_append (fun _ => IsDecimal.startsWithDigit) (fun _ => decimalLength?_append hr) hw
  | binary | hex | octal =>
    exact signed_append (fun _ => IsBased.startsWithDigit)
      (fun _ => basedLength?_append hr (by decide)) hw
  | string => exact quotedLength?_append hw
  | boolean value =>
    cases value with
    | true => exact wordLength?_append hr (by decide) hw
    | false => exact wordLength?_append hr (by decide) hw

/-- A word is measured to its end by its shape. -/
theorem length?_of_admits {shape : Shape} (hr : shape.Ends r) (hw : shape.Admits w) :
    shape.length? (w ++ r) = some w.length := by
  have hname (hr : Halts r) : ∀ c ∈ r.head?, isNameChar c = false := hr.head (by decide)
  cases shape with
  | symbol text =>
    obtain ⟨-, rfl⟩ := hw
    have hprefix : text.toList.isPrefixOf (text.toList ++ r) = true :=
      List.isPrefixOf_iff_prefix.2 (List.prefix_append ..)
    rw [length?, if_pos hprefix, String.length_toList]
  | word letters => exact wordLength?_append hr hw.1 hw.2
  | name => exact nameLength?_append (hname hr) hw
  | identifier =>
    have hkeyword : isKeyword w = false := by simpa [isKeyword] using hw.2
    rw [length?, takeWhile_append_of_head (hname hr)
      (hw.1.isNameChar fun _ => isNameChar_of_isNameStart), hkeyword]
    exact nameLength?_append (hname hr) hw.1
  | typeName => exact nameLength?_append (hname hr) hw
  | literal kind => exact literalLength?_append hr hw

/-! ## How words start -/

/-- Whether a word starts with a character outside of a class. -/
def startsOutside (p : Char → Bool) : List Char → Bool
  | [] => false
  | c :: _ => !p c

/-- Whether a character can start a literal. -/
def isLiteralStart (c : Char) : Bool :=
  isNameChar c || c = '-' || c = '"' || c = '\''

/-- No letter is a digit. -/
theorem isDigit_of_isAlpha {c : Char} (h : c.isAlpha = true) : c.isDigit = false := by
  rw [isAlpha_iff] at h
  rw [← Bool.not_eq_true, isDigit_iff]
  omega

/-- A digit is its own lower case. -/
theorem toLower_of_isDigit {c : Char} (h : c.isDigit = true) : c.toLower = c := by
  rw [isDigit_iff] at h
  exact toLower_eq_self (by omega)

/-- A keyword in any case is not empty, and starts with neither a digit nor a sign nor a quote. -/
theorem start_of_keyword {letters : String} (hl : letters ∈ keywords) (hw : lower w = letters) :
    ∃ c s, w = c :: s ∧ isNameChar c = true ∧ c.isDigit = false := by
  have hhead : ∀ letters ∈ keywords, letters.toList.head?.any Char.isDigit = false := by decide
  have hne : ∀ letters ∈ keywords, letters ≠ "" := by decide
  cases w with
  | nil => exact absurd hw.symm (hne letters hl)
  | cons c s =>
    refine ⟨c, s, rfl, isNameChar_of_keyword hl hw c (List.mem_cons_self ..), ?_⟩
    -- A digit would be its own lower case, and no keyword starts with one.
    have hlower : c.toLower.isDigit = false := by
      have hfirst := hhead letters hl
      rwa [← hw, lower, String.toList_ofList] at hfirst
    rw [← Bool.not_eq_true]
    intro hc
    rw [toLower_of_isDigit hc, hc] at hlower
    exact nomatch hlower

/-- What starts with a digit is not empty. -/
theorem StartsWithDigit.cons (hw : StartsWithDigit w) : ∃ c s, w = c :: s ∧ c.isDigit = true := by
  cases w with
  | nil => exact hw.elim
  | cons c s => exact ⟨c, s, rfl, hw⟩

/-- Digits are characters of names. -/
theorem isNameChar_of_isDigit {c : Char} (h : c.isDigit = true) : isNameChar c = true := by
  simp [isNameChar, Char.isAlphanum, h]

/-- A number starts with a digit or a sign. -/
theorem IsSigned.start {unsigned : List Char → Prop}
    (hdigit : ∀ u, unsigned u → StartsWithDigit u) (hw : IsSigned unsigned w) :
    ∃ c s, w = c :: s ∧ (c.isDigit = true ∨ c = '-' ∧ StartsWithDigit s) := by
  rcases hw with hw | ⟨u, rfl, hu⟩
  · obtain ⟨c, s, rfl, hc⟩ := (hdigit w hw).cons
    exact ⟨c, s, rfl, .inl hc⟩
  · exact ⟨'-', u, rfl, .inr ⟨rfl, hdigit u hu⟩⟩

/-- A literal that is not a string starts with a character of a name, or with a sign and a digit. -/
theorem IsLiteral.start {kind : LiteralKind} (hkind : kind ≠ .string) (hw : IsLiteral kind w) :
    ∃ c s, w = c :: s ∧ (isNameChar c = true ∨ c = '-' ∧ StartsWithDigit s) := by
  -- Numbers start with a digit or a sign, truth values with a letter.
  have hnumber {unsigned : List Char → Prop} (hdigit : ∀ u, unsigned u → StartsWithDigit u)
      (hw : IsSigned unsigned w) :
      ∃ c s, w = c :: s ∧ (isNameChar c = true ∨ c = '-' ∧ StartsWithDigit s) := by
    obtain ⟨c, s, rfl, hc | hc⟩ := hw.start hdigit
    · exact ⟨c, s, rfl, .inl (isNameChar_of_isDigit hc)⟩
    · exact ⟨c, s, rfl, .inr hc⟩
  have hbool {letters : String} (hl : letters ∈ keywords) (hw : lower w = letters) :
      ∃ c s, w = c :: s ∧ (isNameChar c = true ∨ c = '-' ∧ StartsWithDigit s) := by
    obtain ⟨c, s, rfl, hc, -⟩ := start_of_keyword hl hw
    exact ⟨c, s, rfl, .inl hc⟩
  cases kind with
  | integer => exact hnumber (fun _ => IsRun.startsWithDigit) hw
  | decimal => exact hnumber (fun _ => IsDecimal.startsWithDigit) hw
  | binary | hex | octal => exact hnumber (fun _ => IsBased.startsWithDigit) hw
  | string => exact absurd rfl hkind
  | boolean value =>
    cases value with
    | true => exact hbool (by decide) hw
    | false => exact hbool (by decide) hw

/-! ## Words that a shape does not match -/

/-- Whether the first text is no start of the second one, when that ends like a symbol. -/
def differs : List Char → List Char → Bool
  | [], _ => false
  | c :: _, [] => c ∉ stops && !isNameChar c
  | c :: s, d :: t => c ≠ d || differs s t

/-- A text that differs from a symbol is no start of what begins with the symbol. -/
theorem isPrefixOf_of_differs {s t : List Char}
    (hr : ∀ c ∈ r.head?, c ∈ stops ∨ isNameChar c = true) (h : differs s t = true) :
    s.isPrefixOf (t ++ r) = false := by
  induction s generalizing t with
  | nil => simp [differs] at h
  | cons c s ih =>
    cases t with
    | nil =>
      cases r with
      | nil => rfl
      | cons d r =>
        -- The second text is a proper start of the first, which goes on otherwise.
        obtain ⟨hstop, hname⟩ : c ∉ stops ∧ isNameChar c = false := by simpa [differs] using h
        have hcd : c ≠ d := by
          rintro rfl
          rcases hr c rfl with hc | hc
          · exact hstop hc
          · simp [hc] at hname
        simp [List.isPrefixOf, hcd]
    | cons d t =>
      simp only [differs, Bool.or_eq_true, decide_eq_true_eq] at h
      -- They differ in this character or further on.
      rcases h with h | h
      · simp [List.isPrefixOf, h]
      · simp [List.isPrefixOf, ih h]

/-- The order in which the kinds of literals are tried. -/
def rank : LiteralKind → Nat
  | .string => 0
  | .binary => 1
  | .hex => 2
  | .octal => 3
  | .decimal => 4
  | .integer => 5
  | .boolean true => 6
  | .boolean false => 7

/-- Whether the first shape matches no word of the second shape. -/
def clashes : Shape → Shape → Bool
  | symbol a, symbol b => differs a.toList b.toList
  | symbol a, literal _ => startsOutside isLiteralStart a.toList
  | symbol a, _ => startsOutside isNameChar a.toList
  | word a, symbol b => a ≠ "" && startsOutside isNameChar b.toList
  | word a, word b => a ≠ b
  | word a, identifier => keywords.contains a
  | identifier, symbol b => startsOutside isNameChar b.toList
  | identifier, word _ => true
  | literal _, identifier => true
  | literal k, literal l => rank k < rank l
  | _, _ => false

/-- A text that starts with another character is no start. -/
theorem isPrefixOf_of_startsOutside {s t : List Char} (hs : startsOutside p s = true)
    (ht : ∃ c u, t = c :: u ∧ p c = true) : s.isPrefixOf t = false := by
  obtain ⟨c, u, rfl, hc⟩ := ht
  cases s with
  | nil => simp [startsOutside] at hs
  | cons d s =>
    have hd : d ≠ c := by
      rintro rfl
      simp [startsOutside, hc] at hs
    simp [List.isPrefixOf, hd]

/-- A word that is no literal and no symbol starts with a character of a name. -/
theorem IsName.start {first : Char → Bool} (hw : IsName first w)
    (hfirst : ∀ c, first c = true → Shape.isNameChar c = true) :
    ∃ c s, w = c :: s ∧ Shape.isNameChar c = true := by
  cases w with
  | nil => exact hw.elim
  | cons c s => exact ⟨c, s, rfl, hfirst c hw.1⟩

/-- A symbol does not match a word with whose shape it clashes. -/
theorem symbol_clashes {text : String} {shape : Shape} (hr : shape.Ends r) (hw : shape.Admits w)
    (h : (symbol text).clashes shape = true) : (symbol text).length? (w ++ r) = none := by
  suffices hprefix : text.toList.isPrefixOf (w ++ r) = false by rw [length?, hprefix]; rfl
  -- Most words start with a character of a name, and the symbol does not.
  have hname (hstart : ∃ c s, w = c :: s ∧ isNameChar c = true)
      (hout : startsOutside isNameChar text.toList = true) :
      text.toList.isPrefixOf (w ++ r) = false := by
    obtain ⟨c, s, rfl, hc⟩ := hstart
    exact isPrefixOf_of_startsOutside hout ⟨c, s ++ r, rfl, hc⟩
  cases shape with
  | symbol b =>
    -- Two symbols are compared character by character.
    obtain ⟨-, rfl⟩ := hw
    exact isPrefixOf_of_differs hr h
  | literal kind =>
    -- A literal starts with a quote, or with a character of a name, or with a sign.
    have hstart : ∃ c s, w = c :: s ∧ isLiteralStart c = true := by
      by_cases hk : kind = .string
      · subst hk
        obtain ⟨q, s, rfl, rfl | rfl, -⟩ := hw
        · exact ⟨_, _, rfl, by decide⟩
        · exact ⟨_, _, rfl, by decide⟩
      · obtain ⟨c, s, rfl, hc | ⟨rfl, -⟩⟩ := hw.start hk
        · exact ⟨c, s, rfl, by simp [isLiteralStart, hc]⟩
        · exact ⟨_, _, rfl, by decide⟩
    obtain ⟨c, s, rfl, hc⟩ := hstart
    exact isPrefixOf_of_startsOutside h ⟨c, s ++ r, rfl, hc⟩
  | word letters =>
    obtain ⟨c, s, hcs, hc, -⟩ := start_of_keyword hw.1 hw.2
    exact hname ⟨c, s, hcs, hc⟩ h
  | name => exact hname (IsName.start hw fun _ => isNameChar_of_isNameStart) h
  | identifier => exact hname (hw.1.start fun _ => isNameChar_of_isNameStart) h
  | typeName => exact hname (IsName.start hw fun _ => isNameChar_of_isAlpha) h

/-- A text that starts outside of names holds no name at its start. -/
theorem takeWhile_of_startsOutside {s : List Char} (h : startsOutside p s = true) :
    (s ++ r).takeWhile p = [] := by
  cases s with
  | nil => simp [startsOutside] at h
  | cons c s =>
    have hc : p c = false := by simpa [startsOutside] using h
    simp [hc]

/-- A keyword does not match a word with whose shape it clashes. -/
theorem word_clashes {letters : String} {shape : Shape} (hr : shape.Ends r) (hw : shape.Admits w)
    (h : (word letters).clashes shape = true) : (word letters).length? (w ++ r) = none := by
  suffices hne : lower ((w ++ r).takeWhile isNameChar) ≠ letters by
    rw [length?, wordLength?]
    exact if_neg hne
  cases shape with
  | symbol b =>
    -- No name stands there, and a keyword is not empty.
    obtain ⟨-, rfl⟩ := hw
    obtain ⟨hl, hout⟩ : letters ≠ "" ∧ startsOutside isNameChar b.toList = true := by
      simpa [clashes] using h
    rw [takeWhile_of_startsOutside hout]
    exact hl.symm
  | word other =>
    -- The characters of names that stand there are those of the other keyword.
    have hne : letters ≠ other := by simpa [clashes] using h
    rw [hr.takeWhile_append (by decide) (isNameChar_of_keyword hw.1 hw.2), hw.2]
    exact hne.symm
  | identifier =>
    -- An identifier is no keyword.
    have hl : letters ∈ keywords := by simpa [clashes] using h
    rw [hr.takeWhile_append (by decide) (hw.1.isNameChar fun _ => isNameChar_of_isNameStart)]
    exact fun heq => hw.2 (heq ▸ hl)
  | _ => simp [clashes] at h

/-- No identifier is found at a word with whose shape identifiers clash. -/
theorem identifier_clashes {shape : Shape} (hr : shape.Ends r) (hw : shape.Admits w)
    (h : identifier.clashes shape = true) : identifier.length? (w ++ r) = none := by
  cases shape with
  | symbol b =>
    -- A symbol that starts outside of names does not start like one.
    obtain ⟨-, rfl⟩ := hw
    have hout : startsOutside isNameChar b.toList = true := h
    rw [length?, takeWhile_of_startsOutside hout]
    cases hb : b.toList with
    | nil => simp [hb, startsOutside] at hout
    | cons c s =>
      have hc : isNameChar c = false := by simpa [hb, startsOutside] using hout
      have hstart : isNameStart c = false := by
        rw [← Bool.not_eq_true] at hc ⊢
        exact fun hs => hc (isNameChar_of_isNameStart hs)
      simp [nameLength?, hstart]
  | word letters =>
    -- A keyword is excluded from the identifiers.
    have hkeyword : isKeyword w = true := by simp [isKeyword, hw.2, hw.1]
    rw [length?, hr.takeWhile_append (by decide) (isNameChar_of_keyword hw.1 hw.2), hkeyword]
    rfl
  | _ => simp [clashes] at h

/-! ## Literals that another kind of literal does not match -/

/-- No run starts with a character outside of the class. -/
theorem run?_of_not {c : Char} {s : List Char} (hc : p c = false) : run? p (c :: s) = none := by
  simp [run?, run, hc]

/-- A measure of numbers that only matches where a digit stands. -/
def NeedsDigit (measure : List Char → Option Nat) : Prop :=
  ∀ c s, c.isDigit = false → measure (c :: s) = none

/-- An integer starts at a digit only. -/
theorem needsDigit_run? : NeedsDigit (run? Char.isDigit) := fun _ _ hc => run?_of_not hc

/-- A decimal number starts at a digit only. -/
theorem needsDigit_decimalLength? : NeedsDigit decimalLength? := by
  intro c s hc
  rw [decimalLength?, run?_of_not hc]

/-- A number in a base starts at a zero, which is a digit. -/
theorem needsDigit_basedLength? (letter : Char) (digit : Char → Bool) :
    NeedsDigit (basedLength? letter digit) := by
  intro c s hc
  unfold basedLength?
  split
  · next heq =>
    obtain ⟨rfl, -⟩ := List.cons.inj heq
    exact absurd hc (by decide)
  · rfl

/-- No number stands where neither a digit nor a sign does. -/
theorem signed_of_not_digit {measure : List Char → Option Nat} (hm : NeedsDigit measure) {c : Char}
    {s : List Char} (hc : c.isDigit = false) (hsign : c ≠ '-') :
    signed measure (c :: s) = none := by
  rw [signed, hm c s hc]
  simpa using hsign

/-- A measure that rejects an unsigned number rejects it with its sign. -/
theorem signed_eq_none {measure : List Char → Option Nat} {unsigned : List Char → Prop}
    (hdigit : ∀ u, unsigned u → StartsWithDigit u) (hm : ∀ u, unsigned u → measure (u ++ r) = none)
    (hw : IsSigned unsigned w) : signed measure (w ++ r) = none := by
  rcases hw with hw | ⟨u, rfl, hu⟩
  · rw [signed_of_startsWithDigit (hdigit w hw), hm w hw]
  · rw [List.cons_append, signed, hm u hu]
    rfl

/-- Digits are no digits of another base if no letter follows them. -/
theorem basedLength?_of_digits {letter : Char} {digit : Char → Bool} {u t : List Char}
    (hletter : letter.isDigit = false) (hu : IsRun Char.isDigit u)
    (ht : ∀ c ∈ t.head?, c.toLower ≠ letter) : basedLength? letter digit (u ++ t) = none := by
  unfold basedLength?
  split
  · next c s heq =>
    rw [if_neg]
    cases u with
    | nil => exact absurd rfl hu.1
    | cons d u =>
      obtain ⟨-, htail⟩ := List.cons.inj heq
      -- Where the letter would stand there is the second digit, or what follows a single one.
      cases u with
      | nil =>
        have hts : t = c :: s := htail
        apply ht
        rw [hts]
        rfl
      | cons e u =>
        obtain ⟨rfl, -⟩ := List.cons.inj htail
        have he : e.isDigit = true := hu.2 e (by simp)
        rw [toLower_of_isDigit he]
        rintro rfl
        exact absurd he (by rw [hletter]; decide)
  · rfl

/-- Digits of a base are no digits of another base. -/
theorem basedLength?_of_based {letter other : Char} {digit digit' : Char → Bool} {u : List Char}
    (hletter : other ≠ letter) (hu : IsBased other digit' u) :
    basedLength? letter digit (u ++ r) = none := by
  obtain ⟨x, ds, rfl, hx, -⟩ := hu
  rw [← hx] at hletter
  simp [basedLength?, hletter]

/-- Layout and parentheses are not letters, in whatever case. -/
theorem Halts.toLower_ne (hr : Halts r) {letter : Char} (hl : letter ∉ stops) :
    ∀ c ∈ r.head?, c.toLower ≠ letter := by
  intro c hc heq
  have hcode : ∀ c ∈ stops, ¬ (0x41 ≤ c.toNat ∧ c.toNat ≤ 0x5A) := by simp [stops]
  have hgap := hr c hc
  rw [toLower_eq_self (hcode c hgap)] at heq
  exact hl (heq ▸ hgap)

/-- The word for a truth value is no number. -/
theorem signed_of_boolean {measure : List Char → Option Nat} (hm : NeedsDigit measure)
    {value : Bool} (hw : IsLiteral (.boolean value) w) : signed measure (w ++ r) = none := by
  have hstart : ∃ c s, w = c :: s ∧ isNameChar c = true ∧ c.isDigit = false := by
    cases value with
    | true => exact start_of_keyword (by decide : "true" ∈ keywords) hw
    | false => exact start_of_keyword (by decide : "false" ∈ keywords) hw
  obtain ⟨c, s, rfl, hname, hc⟩ := hstart
  refine signed_of_not_digit hm hc ?_
  rintro rfl
  exact absurd hname (by decide)

/-- The letter of a kind of literals that are written in a base. -/
def baseLetter? : LiteralKind → Option Char
  | .binary => some 'b'
  | .hex => some 'x'
  | .octal => some 'o'
  | _ => none

/-- Only literals of its own base are measured as digits of a base. -/
theorem signed_basedLength?_of_literal {kind : LiteralKind} {letter : Char} {digit : Char → Bool}
    (hr : Halts r) (hw : IsLiteral kind w) (hkind : kind ≠ .string)
    (hletter : letter ∈ ['b', 'x', 'o']) (hbase : baseLetter? kind ≠ some letter) :
    signed (basedLength? letter digit) (w ++ r) = none := by
  have hfacts : ∀ c ∈ ['b', 'x', 'o'], c.isDigit = false ∧ c ∉ stops ∧ c ≠ '.' := by
    simp [stops]
  obtain ⟨hdigit, hgap, hdot⟩ := hfacts letter hletter
  have hother {other : Char} {digit' : Char → Bool} (hne : other ≠ letter)
      (hw : IsSigned (IsBased other digit') w) :
      signed (basedLength? letter digit) (w ++ r) = none :=
    signed_eq_none (fun _ => IsBased.startsWithDigit) (fun _ => basedLength?_of_based hne) hw
  cases kind with
  | integer =>
    -- After the digits of an integer stands no letter.
    exact signed_eq_none (fun _ => IsRun.startsWithDigit)
      (fun _ hu => basedLength?_of_digits hdigit hu (hr.toLower_ne hgap)) hw
  | decimal =>
    refine signed_eq_none (fun _ => IsDecimal.startsWithDigit) ?_ hw
    rintro _ ⟨a, b, rfl, ha, -⟩
    rw [List.append_assoc]
    -- After the first digits stands the point, which is no letter.
    refine basedLength?_of_digits hdigit ha ?_
    intro c hc
    obtain rfl : '.' = c := Option.some.inj hc
    exact hdot.symm
  | binary | hex | octal => exact hother (fun h => hbase (congrArg some h)) hw
  | string => exact absurd rfl hkind
  | boolean value => exact signed_of_boolean (needsDigit_basedLength? letter digit) hw

/-- Digits without a point after them are no decimal number. -/
theorem decimalLength?_of_digits {u : List Char} (hr : Halts r) (hu : IsRun Char.isDigit u) :
    decimalLength? (u ++ r) = none := by
  rw [decimalLength?, run?_append hr (by decide) hu]
  simp only [List.drop_left]
  split
  · exact absurd (hr '.' rfl) (by decide)
  · rfl

/-- A name or a number is no string. -/
theorem quotedLength?_of_not {c : Char} {s : List Char} (hc : isNameChar c = true ∨ c = '-') :
    quotedLength? (c :: s) = none := by
  have hquote : (decide (c = '"') || decide (c = '\'')) = false := by
    rw [← Bool.not_eq_true, Bool.or_eq_true, decide_eq_true_eq, decide_eq_true_eq]
    rintro (rfl | rfl)
    · exact absurd hc (by decide)
    · exact absurd hc (by decide)
  rw [quotedLength?, hquote]
  rfl

/-- A literal is not taken for one of a kind that is tried before its own. -/
theorem literalLength?_of_rank {kind own : LiteralKind} (hr : Halts r) (hw : IsLiteral own w)
    (h : rank kind < rank own) : literalLength? kind (w ++ r) = none := by
  have hstring : own ≠ .string := by
    rintro rfl
    exact absurd h (Nat.not_lt_zero _)
  cases kind with
  | string =>
    -- No other literal starts with a quote.
    obtain ⟨c, s, rfl, hc⟩ := hw.start hstring
    exact quotedLength?_of_not (hc.imp_right And.left)
  | binary | hex | octal =>
    -- Of the literals that come later, none is in this base.
    refine signed_basedLength?_of_literal hr hw hstring (by decide) ?_
    cases own <;> simp_all [rank, baseLetter?]
  | decimal =>
    -- After a decimal number come integers and truth values.
    cases own with
    | integer =>
      exact signed_eq_none (fun _ => IsRun.startsWithDigit)
        (fun _ => decimalLength?_of_digits hr) hw
    | boolean value => exact signed_of_boolean needsDigit_decimalLength? hw
    | _ => exact absurd h (by decide)
  | integer =>
    cases own with
    | boolean value => exact signed_of_boolean needsDigit_run? hw
    | _ => exact absurd h (by decide)
  | boolean value =>
    -- Of the kinds before a truth value, the only one left is the other truth value.
    have hfalse : value = true ∧ own = .boolean false := by
      cases value <;> cases own with
        | boolean value' => cases value' <;> simp_all [rank]
        | _ => exact absurd h (by decide)
    obtain ⟨rfl, rfl⟩ := hfalse
    have hword : (word "false").Admits w := ⟨by decide, hw⟩
    have hclash : (word "true").length? (w ++ r) = none :=
      word_clashes (hr.ends _) hword (by decide)
    exact hclash

/-- A name is no literal. -/
theorem literalLength?_of_identifier {kind : LiteralKind} (hr : Halts r)
    (hw : identifier.Admits w) : literalLength? kind (w ++ r) = none := by
  -- The truth values are keywords, and all other literals start with a digit, a sign or a quote.
  have hbool (letters : String) (hl : letters ∈ keywords) :
      (word letters).length? (w ++ r) = none :=
    word_clashes (hr.ends _) hw (by simpa [clashes] using hl)
  obtain ⟨c, s, rfl⟩ : ∃ c s, w = c :: s := by
    cases w with
    | nil => exact hw.1.elim
    | cons c s => exact ⟨c, s, rfl⟩
  have hc : isNameStart c = true := hw.1.1
  have hdigit : c.isDigit = false := by
    simp only [isNameStart, Bool.or_eq_true, decide_eq_true_eq] at hc
    rcases hc with hc | rfl
    · exact isDigit_of_isAlpha hc
    · decide
  have hnumber {measure : List Char → Option Nat} (hm : NeedsDigit measure) :
      signed measure (c :: s ++ r) = none := by
    refine signed_of_not_digit hm hdigit ?_
    rintro rfl
    exact absurd hc (by decide)
  cases kind with
  | integer => exact hnumber needsDigit_run?
  | decimal => exact hnumber needsDigit_decimalLength?
  | binary | hex | octal => exact hnumber (needsDigit_basedLength? _ _)
  | string => exact quotedLength?_of_not (.inl (isNameChar_of_isNameStart hc))
  | boolean value =>
    cases value with
    | true => exact hbool "true" (by decide)
    | false => exact hbool "false" (by decide)

/-- A shape that clashes with the shape of a word does not match the word. -/
theorem length?_of_clashes {shape own : Shape} (hr : own.Ends r) (hw : own.Admits w)
    (h : shape.clashes own = true) : shape.length? (w ++ r) = none := by
  cases shape with
  | symbol text => exact symbol_clashes hr hw h
  | word letters => exact word_clashes hr hw h
  | identifier => exact identifier_clashes hr hw h
  | literal kind =>
    cases own with
    | identifier => exact literalLength?_of_identifier hr hw
    | literal own => exact literalLength?_of_rank hr hw (by simpa [clashes] using h)
    | _ => simp [clashes] at h
  | name => cases own <;> simp [clashes] at h
  | typeName => cases own <;> simp [clashes] at h

end Shape

end RelAlgebra
