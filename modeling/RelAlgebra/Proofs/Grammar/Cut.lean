import RelAlgebra.Proofs.Grammar.Simulation
import RelAlgebra.Proofs.Rendering.Text

/-!
# Text before a line feed

A line feed ends every word and every comment, except that a quoted text goes on over it. So a text
without an open quote holds the same words whether it ends or goes on with a line feed:
`Shape.length?_append_newline` for words and `Layout.lengthFrom_append_semicolon` for layout.

`Mode.closes` tells whether the quotes of a text are all closed. It looks at the characters only,
and so does not depend on how a grammar splits the text into words: `Shape.Admits.closes_append`
says that no word of the query language changes it. A text that is a sequence of words has no open
quote (`Cursor.Words.closes`).
-/

namespace RelAlgebra

/-! ## Open quotes -/

/-- What a character of a text belongs to. -/
inductive Mode where
  /-- A word without quotes, or layout without comments. -/
  | code
  | comment
  /-- The inside of a quoted text. -/
  | quoted (quote : Char)
  deriving DecidableEq, Repr

namespace Mode

/-- Whether a character opens a quoted text. -/
def isQuote (c : Char) : Bool := c = '"' || c = '\''

/-- Whether no quote is open at the end of a text that starts in the given mode. -/
def closes : Mode → List Char → Bool
  | quoted _, [] => false
  | _, [] => true
  | code, '-' :: '-' :: s => comment.closes s
  | code, c :: s => if isQuote c then (quoted c).closes s else code.closes s
  | comment, c :: s => if c = '\n' then code.closes s else comment.closes s
  | quoted q, c :: s => if c = q then code.closes s else (quoted q).closes s

/-- Outside of quotes and comments only a quote or two hyphens change the mode. -/
theorem closes_code_cons {c : Char} {s : List Char} (h : c = '-' → s.head? ≠ some '-') :
    code.closes (c :: s) = if isQuote c then (quoted c).closes s else code.closes s := by
  rw [closes]
  rintro s' rfl rfl
  exact h rfl rfl

/-- Layout opens no quote. -/
theorem closes_drop_layout (inside : Bool) (s : List Char) :
    code.closes (s.drop (Layout.lengthFrom inside s)) =
      (if inside then comment else code).closes s := by
  fun_induction Layout.lengthFrom inside s with
  | case1 inside => cases inside <;> rfl
  | case2 c s ih =>
    rw [List.drop_succ_cons, ih]
    by_cases hc : c = '\n' <;> simp [closes, hc]
  | case3 s ih => simpa [closes] using ih
  | case4 c s hc hspace ih =>
    have hquote : isQuote c = false := by
      simp only [Layout.isSpace, Bool.or_eq_true, decide_eq_true_eq] at hspace
      rcases hspace with ((rfl | rfl) | rfl) | rfl <;> rfl
    have hhead : c = '-' → s.head? ≠ some '-' := by
      rintro rfl
      exact absurd hspace (by decide)
    rw [List.drop_succ_cons, ih]
    simp [closes_code_cons hhead, hquote]
  | case5 => rfl

/-- The characters that may open a quote or a comment. -/
def opening : List Char := ['-', '"', '\'']

/-- Characters that open neither a quote nor a comment change nothing. -/
theorem closes_append_of_plain {w : List Char} (hw : ∀ c ∈ w, c ∉ opening) (s : List Char) :
    code.closes (w ++ s) = code.closes s := by
  induction w with
  | nil => rfl
  | cons c w ih =>
    rw [List.forall_mem_cons] at hw
    obtain ⟨hhyphen, hdouble, hsingle⟩ : ¬ c = '-' ∧ ¬ c = '"' ∧ ¬ c = '\'' := by
      simpa [opening] using hw.1
    rw [List.cons_append, closes_code_cons fun hc => absurd hc hhyphen, ih hw.2]
    simp [isQuote, hdouble, hsingle]

/-- A quoted text closes its quote. -/
theorem closes_quoted_append {q : Char} {w : List Char} (hw : q ∉ w) (s : List Char) :
    (quoted q).closes (w ++ q :: s) = code.closes s := by
  induction w with
  | nil => simp [closes]
  | cons c w ih =>
    obtain ⟨hc, hw⟩ : ¬ q = c ∧ q ∉ w := by simpa using hw
    rw [List.cons_append, closes, if_neg (Ne.symm hc), ih hw]

/-- An open quote is closed by a character like it. -/
theorem mem_of_closes_quoted {q : Char} {s : List Char} (h : (quoted q).closes s = true) :
    q ∈ s := by
  induction s with
  | nil => simp [closes] at h
  | cons c s ih =>
    rw [closes] at h
    split at h
    · next hc => exact hc ▸ List.mem_cons_self ..
    · exact List.mem_cons_of_mem _ (ih h)

/-- A quote that a line feed and a semicolon follow is not closed by them. -/
theorem closes_of_append_semicolon {m : Mode} {s : List Char}
    (hm : ∀ q, m = quoted q → isQuote q = true) (h : m.closes (s ++ ['\n', ';']) = true) :
    m.closes s = true := by
  fun_induction closes m s with
  | case1 q =>
    -- At the end of the text inside a quote, neither of the two characters is a quote.
    have hq := hm q rfl
    have hmem : q ∈ ['\n', ';'] := mem_of_closes_quoted h
    simp only [List.mem_cons, List.not_mem_nil, or_false] at hmem
    rcases hmem with rfl | rfl <;> exact absurd hq (by decide)
  | case2 => rfl
  -- Two hyphens open a comment.
  | case3 s ih => exact ih (by simp) h
  | case4 c s hc hquote ih =>
    -- The character opens a quote.
    rw [List.cons_append, closes_code_cons, if_pos hquote] at h
    · exact ih (by rintro _ ⟨⟩; exact hquote) h
    · rintro rfl
      exact absurd hquote (by decide)
  | case5 c s hc hquote ih =>
    -- The character opens nothing. After a hyphen, no second one follows in the longer text either.
    rw [List.cons_append, closes_code_cons, if_neg hquote] at h
    · exact ih (by simp) h
    · rintro rfl hhead
      cases s with
      | nil => simp at hhead
      | cons d s => exact hc s rfl (by simpa using hhead)
  -- In a comment, up to the line feed, and then in a quote, up to its end.
  | case6 s ih => exact ih (by simp) (by simpa [closes] using h)
  | case7 c s hc ih => exact ih (by simp) (by simpa [closes, hc] using h)
  | case8 q s ih => exact ih (by simp) (by simpa [closes] using h)
  | case9 q c s hc ih => exact ih hm (by simpa [closes, hc] using h)

end Mode

namespace Shape

open Mode

/-- The word consists of characters that open nothing, with or without a hyphen before them. -/
def Bare (w : List Char) : Prop := ∃ u, (w = u ∨ w = '-' :: u) ∧ ∀ c ∈ u, c ∉ opening

/-- No character of a class opens anything if the class holds none that does. -/
theorem not_mem_opening {p : Char → Bool} (hp : opening.any p = false) {c : Char}
    (hc : p c = true) : c ∉ opening :=
  fun hmem => List.any_eq_false.1 hp c hmem hc

/-- A word made of characters of names opens nothing. -/
theorem bare_of_isNameChar {w : List Char} (h : ∀ c ∈ w, isNameChar c = true) : Bare w :=
  ⟨w, .inl rfl, fun c hc => not_mem_opening (by decide) (h c hc)⟩

/-- A run of characters opens nothing if their class holds none that does. -/
theorem IsRun.not_mem_opening {p : Char → Bool} (hp : opening.any p = false) {w : List Char}
    (hw : IsRun p w) : ∀ c ∈ w, c ∉ opening :=
  fun c hc => Shape.not_mem_opening hp (hw.2 c hc)

/-- A number in another base opens nothing. -/
theorem IsBased.not_mem_opening {letter : Char} {digit : Char → Bool}
    (hletter : opening.any (·.toLower = letter) = false) (hdigit : opening.any digit = false)
    {w : List Char} (hw : IsBased letter digit w) : ∀ c ∈ w, c ∉ opening := by
  obtain ⟨x, ds, rfl, hx, hds⟩ := hw
  simp only [List.forall_mem_cons]
  exact ⟨by decide, Shape.not_mem_opening hletter (by simpa using hx), hds.not_mem_opening hdigit⟩

/-- A decimal number opens nothing. -/
theorem IsDecimal.not_mem_opening {w : List Char} (hw : IsDecimal w) : ∀ c ∈ w, c ∉ opening := by
  obtain ⟨a, b, rfl, ha, hb⟩ := hw
  rw [List.forall_mem_append, List.forall_mem_cons]
  exact ⟨ha.not_mem_opening (by decide), by decide, hb.not_mem_opening (by decide)⟩

/-- A sign before a word that opens nothing is the one hyphen of the word. -/
theorem IsSigned.bare {unsigned : List Char → Prop} (h : ∀ u, unsigned u → ∀ c ∈ u, c ∉ opening)
    {w : List Char} (hw : IsSigned unsigned w) : Bare w := by
  rcases hw with hw | ⟨u, rfl, hu⟩
  · exact ⟨w, .inl rfl, h w hw⟩
  · exact ⟨u, .inr rfl, h u hu⟩

/-- A word that is not quoted opens no quote, and a hyphen stands at its start only. -/
theorem Admits.bare {shape : Shape} (hshape : shape ≠ .literal .string) {w : List Char}
    (hw : shape.Admits w) : Bare w := by
  cases shape with
  | symbol text =>
    obtain ⟨htext, rfl⟩ := hw
    -- The symbols with a hyphen are those that start with one.
    have hall : ∀ text ∈ symbols, text.toList.all (· ∉ opening) = true ∨
        text.toList.head? = some '-' ∧ text.toList.tail.all (· ∉ opening) = true := by decide
    rcases hall text htext with h | ⟨hhead, h⟩
    · exact ⟨_, .inl rfl, by simpa using h⟩
    · exact ⟨_, .inr (List.cons_head?_tail hhead).symm, by simpa using h⟩
  | word letters => exact bare_of_isNameChar (isNameChar_of_keyword hw.1 hw.2)
  | name => exact bare_of_isNameChar (IsName.isNameChar hw fun _ => isNameChar_of_isNameStart)
  | identifier => exact bare_of_isNameChar (hw.1.isNameChar fun _ => isNameChar_of_isNameStart)
  | typeName => exact bare_of_isNameChar (IsName.isNameChar hw fun _ => isNameChar_of_isAlpha)
  | literal kind =>
    cases kind with
    | integer => exact IsSigned.bare (fun _ => IsRun.not_mem_opening (by decide)) hw
    | decimal => exact IsSigned.bare (fun _ => IsDecimal.not_mem_opening) hw
    | binary | hex | octal =>
      exact IsSigned.bare (fun _ => IsBased.not_mem_opening (by decide) (by decide)) hw
    | string => exact absurd rfl hshape
    | boolean value =>
      cases value with
      | true | false => exact bare_of_isNameChar (isNameChar_of_keyword (by decide) hw)

/-- A word closes the quotes that it opens. -/
theorem Admits.closes_append {shape : Shape} {w s : List Char} (hw : shape.Admits w)
    (hlayout : Layout.length (w ++ s) = 0) : code.closes (w ++ s) = code.closes s := by
  by_cases hshape : shape = .literal .string
  · -- A string opens a quote and closes it again.
    subst hshape
    obtain ⟨q, t, rfl, hq, ht⟩ := hw
    have hquote : isQuote q = true := by simpa [isQuote] using hq
    have hhyphen : q ≠ '-' := by rcases hq with rfl | rfl <;> decide
    rw [List.cons_append, List.append_assoc, closes_code_cons fun h => absurd h hhyphen,
      if_pos hquote]
    exact closes_quoted_append ht s
  · obtain ⟨u, rfl | rfl, hu⟩ := hw.bare hshape
    · exact closes_append_of_plain hu s
    · -- Two hyphens would be layout.
      have hhead : (u ++ s).head? ≠ some '-' := by
        intro hhead
        obtain ⟨t, ht⟩ := List.head?_eq_some_iff.1 hhead
        rw [List.cons_append, ht, Layout.length, Layout.lengthFrom] at hlayout
        omega
      rw [List.cons_append, closes_code_cons fun _ => hhead]
      exact closes_append_of_plain hu s

end Shape

/-- A position without layout. -/
theorem Cursor.layout_length {c : Cursor} (hc : c.skipLayout = c) : Layout.length c.rest = 0 := by
  have hoffset : c.offset + Layout.length c.rest = c.offset := congrArg Cursor.offset hc
  omega

/-- A sequence of words up to the end of a text leaves no quote open. -/
theorem Cursor.Words.closes {c d : Cursor} {ws : List Word} (h : c.Words ws d) (hd : d.rest = []) :
    Mode.code.closes c.rest = true := by
  induction h with
  | done c =>
    rw [hd]
    rfl
  | @layout c d ws _ ih =>
    -- Layout opens no quote.
    have hskip : Mode.code.closes c.skipLayout.rest = Mode.code.closes c.rest :=
      Mode.closes_drop_layout false c.rest
    rw [← hskip]
    exact ih hd
  | @word c d shape n ws hc hshape hn _ ih =>
    -- A word closes the quotes that it opens.
    have hsplit : c.rest.take n ++ (c.advance n).rest = c.rest := List.take_append_drop n c.rest
    have hlayout : Layout.length (c.rest.take n ++ (c.advance n).rest) = 0 := by
      rw [hsplit, Cursor.layout_length hc]
    rw [← hsplit, (Shape.admits_of_length? hshape hn).closes_append hlayout]
    exact ih hd

/-! ## Words before a line feed -/

namespace Shape

/-- Characters of a class without the line feed stop before it. -/
theorem takeWhile_append_newline {p : Char → Bool} (hp : p '\n' = false) (s t : List Char) :
    (s ++ '\n' :: t).takeWhile p = s.takeWhile p := by
  induction s with
  | nil => simp [hp]
  | cons c s ih => simp only [List.cons_append, List.takeWhile_cons, ih]

/-- Whether a text starts with a word of one line is known before its line feed. -/
theorem isPrefixOf_append_newline {w : List Char} (hw : '\n' ∉ w) (s t : List Char) :
    w.isPrefixOf (s ++ '\n' :: t) = w.isPrefixOf s := by
  induction w generalizing s with
  | nil => rfl
  | cons c w ih =>
    obtain ⟨hc, hw⟩ : ¬ '\n' = c ∧ '\n' ∉ w := by simpa using hw
    cases s with
    | nil => simp [List.isPrefixOf, Ne.symm hc]
    | cons d s => simp only [List.cons_append, List.isPrefixOf, ih hw]

/-- The measure does not look beyond a line feed. -/
def StopsAtNewline (measure : List Char → Option Nat) : Prop :=
  ∀ s t, measure (s ++ '\n' :: t) = measure s

/-- A run of characters other than line feeds does not look beyond a line feed. -/
theorem stopsAtNewline_run? {p : Char → Bool} (hp : p '\n' = false) : StopsAtNewline (run? p) := by
  intro s t
  rw [run?, run?, run, run, takeWhile_append_newline hp]

/-- A fixed word does not look beyond a line feed. -/
theorem stopsAtNewline_wordLength? (letters : String) : StopsAtNewline (wordLength? letters) := by
  intro s t
  rw [wordLength?, wordLength?, takeWhile_append_newline (by decide)]

/-- A name does not look beyond a line feed. -/
theorem stopsAtNewline_nameLength? {first : Char → Bool} (hfirst : first '\n' = false) :
    StopsAtNewline (nameLength? first) := by
  intro s t
  cases s with
  | nil => simp [nameLength?, hfirst]
  | cons c s => rw [List.cons_append, nameLength?, nameLength?, run, run,
      takeWhile_append_newline (by decide)]

/-- A sign before the word looks no further than the word does. -/
theorem StopsAtNewline.signed {measure : List Char → Option Nat} (h : StopsAtNewline measure) :
    StopsAtNewline (signed measure) := by
  intro s t
  cases s with
  | nil => exact h [] t
  | cons c s =>
    by_cases hc : c = '-'
    · rw [hc, List.cons_append, Shape.signed, Shape.signed, h s t]
    · have hsigned : ∀ u, Shape.signed measure (c :: u) = measure (c :: u) := by
        intro u
        rw [Shape.signed]
        simpa using hc
      rw [List.cons_append, hsigned, hsigned]
      exact h (c :: s) t

/-- A number in another base does not look beyond a line feed. -/
theorem stopsAtNewline_basedLength? {letter : Char} {digit : Char → Bool}
    (hletter : '\n'.toLower ≠ letter) (hdigit : digit '\n' = false) :
    StopsAtNewline (basedLength? letter digit) := by
  intro s t
  match s with
  | [] => rfl
  | [c] =>
    by_cases hc : c = '0'
    · subst hc
      exact if_neg hletter
    · simp [basedLength?, hc]
  | c :: x :: s =>
    by_cases hc : c = '0'
    · subst hc
      simp only [List.cons_append, basedLength?, stopsAtNewline_run? hdigit s t]
    · simp [basedLength?, hc]

/-- A decimal number does not look beyond a line feed, not even for its point. -/
theorem stopsAtNewline_decimalLength? : StopsAtNewline decimalLength? := by
  have hrun := stopsAtNewline_run? (p := Char.isDigit) (by decide)
  intro s t
  unfold decimalLength?
  rw [hrun s t]
  cases hn : run? Char.isDigit s with
  | none => rfl
  | some n =>
    -- The digits end inside the text, so the character after them is the same or the line feed.
    have hle := (run?_eq_some hn).2
    simp only [List.drop_append_of_le_length hle]
    match s.drop n with
    | [] => rfl
    | c :: u =>
      by_cases hc : c = '.'
      · subst hc
        simp only [List.cons_append, hrun u t]
      · simp [hc]

/-- A quoted text that is closed before a line feed is the same whatever follows. -/
theorem quotedLength?_append_newline {s : List Char} (hs : Mode.code.closes s = true)
    (t : List Char) : quotedLength? (s ++ '\n' :: t) = quotedLength? s := by
  cases s with
  | nil => rfl
  | cons q s =>
    by_cases hq : Mode.isQuote q = true
    · -- The quote is closed inside the text, so that the string ends there.
      have hhyphen : q ≠ '-' := by
        rintro rfl
        exact absurd hq (by decide)
      rw [Mode.closes_code_cons fun h => absurd h hhyphen, if_pos hq] at hs
      obtain ⟨u, v, rfl, hu⟩ := List.eq_append_cons_of_mem (Mode.mem_of_closes_quoted hs)
      have hquoted : IsQuoted (q :: (u ++ [q])) := ⟨q, u, rfl, by simpa [Mode.isQuote] using hq, hu⟩
      have hsplit : q :: (u ++ q :: v) = q :: (u ++ [q]) ++ v := by simp
      rw [hsplit, List.append_assoc, quotedLength?_append hquoted, quotedLength?_append hquoted]
    · -- No string starts there.
      have hnone : ∀ u, quotedLength? (q :: u) = none := fun u => if_neg hq
      rw [List.cons_append, hnone, hnone]

/-- If no quote is open, the words at the start of a text are the same whether it ends or goes on
with a line feed. -/
theorem length?_append_newline {shape : Shape} (hshape : shape.listed = true) {s : List Char}
    (hs : Mode.code.closes s = true) (t : List Char) :
    shape.length? (s ++ '\n' :: t) = shape.length? s := by
  cases shape with
  | symbol text =>
    -- No symbol has a line feed in it.
    have hall : ∀ text ∈ symbols, '\n' ∉ text.toList := by decide
    rw [length?, length?, isPrefixOf_append_newline (hall text (by simpa [listed] using hshape))]
  | word letters => exact stopsAtNewline_wordLength? letters s t
  | name | typeName => exact stopsAtNewline_nameLength? (by decide) s t
  | identifier =>
    rw [length?, length?, takeWhile_append_newline (by decide),
      stopsAtNewline_nameLength? (by decide) s t]
  | literal kind =>
    cases kind with
    | integer => exact (stopsAtNewline_run? (by decide)).signed s t
    | decimal => exact stopsAtNewline_decimalLength?.signed s t
    | binary | hex | octal =>
      exact (stopsAtNewline_basedLength? (by decide) (by decide)).signed s t
    | string => exact quotedLength?_append_newline hs t
    | boolean value =>
      cases value with
      | true | false => exact stopsAtNewline_wordLength? _ s t

/-- Nothing that stands in a statement starts with a semicolon. -/
theorem length?_semicolon {shape : Shape} (hshape : shape.inStatement = true) (s : List Char) :
    shape.length? (';' :: s) = none := by
  obtain ⟨hlisted, hne⟩ : shape.listed = true ∧ ¬ shape = .symbol ";" := by
    simpa [inStatement] using hshape
  cases hn : shape.length? (';' :: s) with
  | none => rfl
  | some n =>
    -- The word would start with the semicolon.
    obtain ⟨n, rfl⟩ : ∃ k, n = k + 1 := by
      have hpos := (length?_eq_some hn).2 (nullable_of_listed hlisted)
      exact ⟨n - 1, by omega⟩
    have hw := admits_of_length? hlisted hn
    rw [List.take_succ_cons] at hw
    generalize hstart : ';' :: s.take n = w at hw
    -- What starts with a semicolon starts neither like a name nor like a literal.
    have hname : ¬ ∃ c t, w = c :: t ∧ isNameChar c = true := by
      rintro ⟨c, t, rfl, hc⟩
      obtain ⟨rfl, -⟩ := List.cons.inj hstart
      exact absurd hc (by decide)
    cases shape with
    | symbol text =>
      have hall : ∀ text ∈ symbols, text.toList.head? = some ';' → text = ";" := by decide
      obtain ⟨htext, rfl⟩ := hw
      exact absurd (congrArg Shape.symbol (hall text htext (by rw [← hstart]; rfl))) hne
    | word letters =>
      obtain ⟨c, t, heq, hc, -⟩ := start_of_keyword hw.1 hw.2
      exact absurd ⟨c, t, heq, hc⟩ hname
    | name => exact absurd (IsName.start hw fun _ => isNameChar_of_isNameStart) hname
    | identifier => exact absurd (hw.1.start fun _ => isNameChar_of_isNameStart) hname
    | typeName => exact absurd (IsName.start hw fun _ => isNameChar_of_isAlpha) hname
    | literal kind =>
      by_cases hk : kind = .string
      · subst hk
        obtain ⟨q, t, rfl, hq, -⟩ := hw
        obtain ⟨rfl, -⟩ := List.cons.inj hstart
        exact absurd hq (by decide)
      · obtain ⟨c, t, rfl, hc | ⟨rfl, -⟩⟩ := hw.start hk
        · exact absurd ⟨c, t, rfl, hc⟩ hname
        · simp at hstart

/-- At the end of a text no word stands. -/
theorem length?_nil {shape : Shape} (hshape : shape.listed = true) : shape.length? [] = none := by
  cases hn : shape.length? [] with
  | none => rfl
  | some n =>
    obtain ⟨hle, hpos⟩ := length?_eq_some hn
    have hone := hpos (nullable_of_listed hshape)
    rw [List.length_nil] at hle
    omega

end Shape

/-! ## Layout before a line feed and a semicolon -/

/-- Layout lies in the text. -/
theorem Layout.lengthFrom_le (inside : Bool) (s : List Char) : lengthFrom inside s ≤ s.length := by
  fun_induction lengthFrom inside s <;> simp_all

/-- Layout that ends inside a text ends at the same place if the text goes on, and layout that fills
a text goes on to a semicolon on the next line. -/
theorem Layout.lengthFrom_append_semicolon (inside : Bool) (s t : List Char) :
    lengthFrom inside (s ++ '\n' :: ';' :: t) =
      if lengthFrom inside s < s.length then lengthFrom inside s else s.length + 1 := by
  fun_induction lengthFrom inside s with
  | case1 inside => cases inside <;> rfl
  | case2 c s ih =>
    -- In a comment every character is layout.
    rw [List.cons_append, lengthFrom, ih]
    simp only [List.length_cons]
    split <;> split <;> omega
  | case3 s ih =>
    -- Two hyphens open a comment.
    rw [List.cons_append, List.cons_append, lengthFrom, ih]
    simp only [List.length_cons]
    split <;> split <;> omega
  | case4 c s hc hspace ih =>
    -- A space is layout, and no hyphen.
    have hhead : c = '-' → (s ++ '\n' :: ';' :: t).head? ≠ some '-' := by
      rintro rfl
      exact absurd hspace (by decide)
    rw [List.cons_append, lengthFrom_false_cons hhead, if_pos hspace, ih]
    simp only [List.length_cons]
    split <;> split <;> omega
  | case5 c s hc hspace =>
    -- Layout ends before any other character, also before a single hyphen.
    have hhead : c = '-' → (s ++ '\n' :: ';' :: t).head? ≠ some '-' := by
      rintro rfl
      cases s with
      | nil => simp
      | cons d s => simpa using fun hd => hc s rfl (by rw [hd])
    rw [List.cons_append, lengthFrom_false_cons hhead, if_neg hspace]
    simp

end RelAlgebra
