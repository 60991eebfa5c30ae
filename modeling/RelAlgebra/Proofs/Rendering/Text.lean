import RelAlgebra.Proofs.Rendering.Token

/-!
# Words with layout between them

`Spaced` relates a list of words to the texts in which they stand in this order with layout between
them. Skipping layout after a word leads to the next one, with one exception: a hyphen and a comment
right after it are three hyphens, which are read as a comment from the first hyphen on. So the words
are read back if no hyphen is followed at once by a comment.

Layout is not needed where a word ends anyway, such as before a parenthesis. What reading relies on
is only that the words stand `Apart`, each of them ending before what follows it.
-/

namespace RelAlgebra

namespace Layout

/-- Layout whose comments are all ended by a line feed. -/
inductive Gap : List Char → Prop where
  | nil : Gap []
  | space {c : Char} {s : List Char} (hc : isSpace c = true) (hs : Gap s) : Gap (c :: s)
  | comment {body s : List Char} (hbody : '\n' ∉ body) (hs : Gap s) :
    Gap ('-' :: '-' :: (body ++ '\n' :: s))

/-- A comment goes on to its line feed. -/
theorem lengthFrom_comment {body : List Char} (hbody : '\n' ∉ body) (s : List Char) :
    lengthFrom true (body ++ '\n' :: s) = body.length + 1 + lengthFrom false s := by
  induction body with
  | nil =>
    rw [List.nil_append, lengthFrom]
    simp [Nat.add_comm]
  | cons c body ih =>
    obtain ⟨hc, hbody⟩ : ¬ '\n' = c ∧ '\n' ∉ body := by simpa using hbody
    have hflag : (decide (c ≠ '\n')) = true := by simpa using Ne.symm hc
    rw [List.cons_append, lengthFrom, hflag, ih hbody, List.length_cons]
    omega

/-- A character that is neither a hyphen nor a space is no layout, and nor is a single hyphen. -/
theorem lengthFrom_false_cons {c : Char} {s : List Char} (h : c = '-' → s.head? ≠ some '-') :
    lengthFrom false (c :: s) = if isSpace c then lengthFrom false s + 1 else 0 := by
  rw [lengthFrom]
  rintro s' rfl rfl
  exact h rfl rfl

/-- Layout is skipped as a whole. -/
theorem Gap.length_append {gap : List Char} (hgap : Gap gap) (s : List Char) :
    Layout.length (gap ++ s) = gap.length + Layout.length s := by
  unfold Layout.length
  induction hgap with
  | nil => simp
  | @space c gap hc _ ih =>
    have hne : c ≠ '-' := by
      rintro rfl
      exact absurd hc (by decide)
    rw [List.cons_append, lengthFrom_false_cons (fun h => absurd h hne), if_pos hc, ih,
      List.length_cons]
    omega
  | @comment body gap hbody _ ih =>
    have hsplit : '-' :: '-' :: (body ++ '\n' :: gap) ++ s =
        '-' :: '-' :: (body ++ '\n' :: (gap ++ s)) := by simp
    rw [hsplit, lengthFrom, lengthFrom_comment hbody, ih]
    simp only [List.length_cons, List.length_append]
    omega

/-- Layout starts with a space or with a hyphen. -/
theorem Gap.halts {gap : List Char} (hgap : Gap gap) : Shape.Halts gap := by
  cases hgap with
  | nil => simp [Shape.Halts]
  | @space c _ hc _ =>
    have hspaces : c = ' ' ∨ c = '\t' ∨ c = '\r' ∨ c = '\n' := by
      simpa [isSpace, or_assoc] using hc
    intro d hd
    obtain rfl : c = d := Option.some.inj hd
    -- Each of the four spaces is one of the stops.
    rcases hspaces with rfl | rfl | rfl | rfl <;> decide
  | comment _ _ => simp [Shape.Halts, Shape.stops]

/-- Whether a text starts with something that is no layout, whatever follows it. A hyphen by itself
passes, although it is layout if another one follows. -/
def visible : List Char → Bool
  | [] => false
  | c :: s => !isSpace c && (c != '-' || s.head? != some '-')

/-- There is no layout where something visible stands, unless a hyphen is followed by another
one. -/
theorem length_of_visible {w r : List Char} (hw : visible w = true)
    (hr : w = ['-'] → r.head? ≠ some '-') : Layout.length (w ++ r) = 0 := by
  cases w with
  | nil => simp [visible] at hw
  | cons c s =>
    obtain ⟨hc, hs⟩ : isSpace c = false ∧ (¬ c = '-' ∨ ¬ s.head? = some '-') := by
      simpa [visible] using hw
    rw [List.cons_append, Layout.length, lengthFrom_false_cons, hc]
    · rfl
    · -- A hyphen is followed by its own word, or is a word by itself.
      rintro rfl
      cases s with
      | nil => exact hr rfl
      | cons d s => simpa using hs

end Layout

namespace Shape

/-- A character of a name is neither a space nor a hyphen. -/
theorem isSpace_of_isNameChar {c : Char} (hc : isNameChar c = true) :
    Layout.isSpace c = false ∧ c ≠ '-' := by
  constructor
  · rw [← Bool.not_eq_true]
    intro hs
    simp only [Layout.isSpace, Bool.or_eq_true, decide_eq_true_eq] at hs
    rcases hs with ((rfl | rfl) | rfl) | rfl <;> exact absurd hc (by decide)
  · rintro rfl
    exact absurd hc (by decide)

/-- A text that starts like a name does not start with layout. -/
theorem visible_of_isNameChar {c : Char} {s : List Char} (hc : isNameChar c = true) :
    Layout.visible (c :: s) = true := by
  obtain ⟨hspace, hhyphen⟩ := isSpace_of_isNameChar hc
  simp [Layout.visible, hspace, hhyphen]

/-- No word starts like layout. -/
theorem Admits.visible {shape : Shape} {w : List Char} (hw : shape.Admits w) :
    Layout.visible w = true := by
  have hname : (∃ c s, w = c :: s ∧ isNameChar c = true) → Layout.visible w = true := by
    rintro ⟨c, s, rfl, hc⟩
    exact visible_of_isNameChar hc
  cases shape with
  | symbol text =>
    obtain ⟨htext, rfl⟩ := hw
    have hall : ∀ text ∈ symbols, Layout.visible text.toList = true := by decide
    exact hall text htext
  | word letters =>
    obtain ⟨c, s, hcs, hc, -⟩ := start_of_keyword hw.1 hw.2
    exact hname ⟨c, s, hcs, hc⟩
  | name => exact hname (IsName.start hw fun _ => isNameChar_of_isNameStart)
  | identifier => exact hname (hw.1.start fun _ => isNameChar_of_isNameStart)
  | typeName => exact hname (IsName.start hw fun _ => isNameChar_of_isAlpha)
  | literal kind =>
    by_cases hk : kind = .string
    · subst hk
      -- A string starts with one quote or the other.
      obtain ⟨q, s, rfl, rfl | rfl, -⟩ := hw
      · rfl
      · rfl
    · obtain ⟨c, s, rfl, hc | ⟨rfl, hs⟩⟩ := hw.start hk
      · exact visible_of_isNameChar hc
      · -- A sign is followed by a digit and not by another hyphen.
        obtain ⟨d, u, rfl, hd⟩ := hs.cons
        have hne : d ≠ '-' := by
          rintro rfl
          exact absurd hd (by decide)
        simp [Layout.visible, hne, Layout.isSpace]

end Shape

/-- A word of the query language. -/
structure Token where
  shape : Shape
  text : List Char
  admitted : shape.Admits text

/-- The word that is a symbol. -/
def Token.ofSymbol (text : String) (h : text ∈ Shape.symbols) : Token :=
  ⟨.symbol text, text.toList, h, rfl⟩

/-- The layout after a word does not turn it into a comment: a hyphen is not followed by another. -/
def Token.Clear (t : Token) (gap : List Char) : Prop := t.text = ['-'] → gap.head? ≠ some '-'

/-- The texts in which the words stand in their order, with layout after each of them, which is
empty at most after the last one. Each word and the layout after it stand in the relation `next`. -/
inductive Spaced (next : Token → List Char → Prop) : List Token → List Char → Prop where
  | nil : Spaced next [] []
  | cons {t : Token} {gap : List Char} {ts : List Token} {s : List Char} (hgap : Layout.Gap gap)
      (hapart : ts ≠ [] → gap ≠ []) (hnext : next t gap) (hs : Spaced next ts s) :
    Spaced next (t :: ts) (t.text ++ (gap ++ s))

/-- The texts in which the words stand in their order, with layout or nothing after each of them,
and in which every word ends before what follows it. -/
inductive Apart : List Token → List Char → Prop where
  | nil : Apart [] []
  | cons {t : Token} {gap : List Char} {ts : List Token} {s : List Char} (hgap : Layout.Gap gap)
      (hends : t.shape.Ends (gap ++ s)) (hclear : t.Clear (gap ++ s)) (hs : Apart ts s) :
    Apart (t :: ts) (t.text ++ (gap ++ s))

variable {t : Token} {ts : List Token} {text : List Char}

/-- Words with layout between them stand apart. -/
theorem Spaced.apart (h : Spaced Token.Clear ts text) : Apart ts text := by
  induction h with
  | nil => exact .nil
  | @cons t gap ts s hgap hapart hnext hs ih =>
    cases gap with
    | nil =>
      -- Nothing stands between this word and the end, so it is the last one.
      cases hs with
      | nil =>
        have hhalts : Shape.Halts [] := by simp [Shape.Halts]
        exact .cons hgap (hhalts.ends _) (by simp [Token.Clear]) ih
      | cons _ _ _ _ => exact absurd rfl (hapart (by simp))
    | cons d gap =>
      have hhalts : Shape.Halts (d :: gap ++ s) := fun x hx => hgap.halts x hx
      exact .cons hgap (hhalts.ends _) hnext ih

namespace Apart

/-- The first word, the layout after it and the other words. -/
theorem exists_cons (h : Apart (t :: ts) text) :
    ∃ gap s, text = t.text ++ (gap ++ s) ∧ Layout.Gap gap ∧ t.shape.Ends (gap ++ s) ∧
      t.Clear (gap ++ s) ∧ Apart ts s := by
  cases h with
  | cons hgap hends hclear hs => exact ⟨_, _, rfl, hgap, hends, hclear, hs⟩

/-- Where a word stands there is no layout to skip. -/
theorem layout_length (h : Apart ts text) : Layout.length text = 0 := by
  cases h with
  | nil => rfl
  | @cons t gap ts s hgap hends hclear hs =>
    exact Layout.length_of_visible t.admitted.visible hclear

end Apart

namespace Cursor

/-- The given words are what follows, and the first of them stands right at the position. -/
def At (c : Cursor) (ts : List Token) : Prop := Apart ts c.rest

variable {c : Cursor} {t : Token} {ts : List Token}

/-- No layout is skipped in front of the words. -/
theorem At.skipLayout (h : c.At ts) : c.skipLayout = c := by
  rw [Cursor.skipLayout, Apart.layout_length h]
  rfl

/-- After layout, skipping it leads to the words. -/
theorem at_skipLayout {gap s : List Char} (hrest : c.rest = gap ++ s) (hgap : Layout.Gap gap)
    (hs : Apart ts s) : c.skipLayout.At ts := by
  unfold At Cursor.skipLayout advance
  rw [hrest, hgap.length_append, hs.layout_length, Nat.add_zero, List.drop_left]
  exact hs

/-- Skipping the layout after a word leads to the next word. -/
theorem At.next (h : c.At (t :: ts)) : (c.advance t.text.length).skipLayout.At ts := by
  obtain ⟨gap, s, hrest, hgap, -, -, hs⟩ := Apart.exists_cons h
  have hafter : (c.advance t.text.length).rest = gap ++ s := by
    rw [advance, hrest, List.drop_left]
  exact at_skipLayout hafter hgap hs

/-- After the last word the text is at its end. -/
theorem At.rest_eq_nil (h : c.At []) : c.rest = [] := by
  unfold At at h
  generalize c.rest = rest at h
  cases h
  rfl

/-- In front of a word the text is not at its end. -/
theorem At.rest_ne_nil (h : c.At (t :: ts)) : c.rest ≠ [] := by
  obtain ⟨gap, s, hrest, -⟩ := Apart.exists_cons h
  have hvisible := t.admitted.visible
  intro hnil
  rw [hnil] at hrest
  obtain ⟨ht, -⟩ := List.append_eq_nil_iff.1 hrest.symm
  simp [ht, Layout.visible] at hvisible

/-- The shape of a word matches it. -/
theorem At.length? (h : c.At (t :: ts)) : t.shape.length? c.rest = some t.text.length := by
  obtain ⟨gap, s, hrest, -, hends, -, -⟩ := Apart.exists_cons h
  rw [hrest]
  exact Shape.length?_of_admits hends t.admitted

/-- A shape that clashes with the shape of a word does not match there. -/
theorem At.length?_of_clashes (h : c.At (t :: ts)) {shape : Shape}
    (hclash : shape.clashes t.shape = true) : shape.length? c.rest = none := by
  obtain ⟨gap, s, hrest, -, hends, -, -⟩ := Apart.exists_cons h
  rw [hrest]
  exact Shape.length?_of_clashes hends t.admitted hclash

/-- The characters of a word stand at its position. -/
theorem At.take (h : c.At (t :: ts)) : c.rest.take t.text.length = t.text := by
  obtain ⟨gap, s, hrest, -⟩ := Apart.exists_cons h
  rw [hrest, List.take_left]

end Cursor

end RelAlgebra
