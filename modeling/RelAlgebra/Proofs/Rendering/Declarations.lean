import RelAlgebra.Proofs.Catalog.Grouping
import RelAlgebra.Proofs.Grammar.Listing
import RelAlgebra.Proofs.Text.TypeNames

/-!
# Declarations read back

A list of declarations is written as words: a relation, a point, an attribute, a colon and a type,
with semicolons between the declarations and perhaps one at the end. Any layout may stand around the
words, and none is needed, since a name ends where a point, a colon or a semicolon follows. `Loose`
relates the words to such texts, and `Loose.listing` shows that the declarations are read back.
-/

namespace RelAlgebra

open Phrase

/-- The texts in which the words stand in their order, with layout or nothing before each of them
and after the last one. -/
inductive Loose : List (List Char) → List Char → Prop where
  | nil {gap : List Char} (hgap : Layout.Gap gap) : Loose [] gap
  | cons {gap w s : List Char} {ws : List (List Char)} (hgap : Layout.Gap gap) (hs : Loose ws s) :
    Loose (w :: ws) (gap ++ (w ++ s))

namespace Declaration

/-- The words of a declaration. The two names may be keywords. -/
structure Spelling where
  relation : List Char
  attr : List Char
  type : List Char
  relation_isName : Shape.IsName Shape.isNameStart relation
  attr_isName : Shape.IsName Shape.isNameStart attr
  type_isName : Shape.IsName Char.isAlpha type

namespace Spelling

/-- The declaration that is spelled. -/
def declaration (d : Spelling) : Declaration :=
  ⟨.ofList d.relation, .ofList d.attr, .ofText (.ofList d.type)⟩

/-- All words of a declaration. -/
def words (d : Spelling) : List (List Char) := [d.relation, ['.'], d.attr, [':'], d.type]

/-- The words of declarations with semicolons between them. -/
def joined (ds : List Spelling) : List (List Char) := [[';']].intercalate (ds.map words)

/-- A single declaration has no semicolon. -/
theorem joined_singleton (d : Spelling) : joined [d] = d.words := List.intercalate_singleton

/-- Between two declarations stands a semicolon. -/
theorem joined_cons_cons (d e : Spelling) (ds : List Spelling) :
    joined (d :: e :: ds) = d.words ++ [';'] :: joined (e :: ds) := by
  rw [joined, List.map_cons, List.map_cons, List.intercalate_cons_cons, List.append_assoc]
  rfl

end Spelling

end Declaration

namespace Loose

variable {c : Cursor} {w s : List Char} {ws : List (List Char)}

/-- No character of a name follows, if the next word does not start with one. -/
theorem isNameChar_head (h : Loose ws s)
    (hws : ∀ w ∈ ws.head?, Shape.startsOutside Shape.isNameChar w = true) :
    ∀ c ∈ s.head?, Shape.isNameChar c = false := by
  have hhead {gap : List Char} (hgap : Layout.Gap gap) :
      ∀ c ∈ gap.head?, Shape.isNameChar c = false := hgap.halts.head (by decide)
  cases h with
  | nil hgap => exact hhead hgap
  | @cons gap w s ws hgap hs =>
    cases gap with
    -- Layout stands before the word, or else the word itself comes first.
    | cons d gap => exact fun x hx => hhead hgap x hx
    | nil =>
      have hw := hws w rfl
      cases w with
      | nil => simp [Shape.startsOutside] at hw
      | cons d w => simpa [Shape.startsOutside] using hw

/-- Skipping layout leads to the next word. -/
theorem exists_skipLayout (h : Loose (w :: ws) c.rest) (hw : Layout.visible w = true)
    (hhyphen : w ≠ ['-']) : ∃ s, c.skipLayout.rest = w ++ s ∧ Loose ws s := by
  generalize hrest : c.rest = rest at h
  cases h with
  | @cons gap _ s _ hgap hs =>
    have hlength : Layout.length (w ++ s) = 0 :=
      Layout.length_of_visible hw fun h => absurd h hhyphen
    refine ⟨s, ?_, hs⟩
    rw [Cursor.skipLayout, Cursor.advance, hrest, hgap.length_append, hlength, Nat.add_zero,
      List.drop_left]

/-- Skipping layout after the last word leads to the end. -/
theorem skipLayout_nil (h : Loose [] c.rest) : c.skipLayout.rest = [] := by
  generalize hrest : c.rest = rest at h
  cases h with
  | nil hgap =>
    have hlength := hgap.length_append []
    rw [List.append_nil] at hlength
    rw [Cursor.skipLayout, Cursor.advance, hrest, hlength]
    exact List.drop_length

/-- The next word is read by a shape that measures it. -/
theorem exists_read_word {shape : Shape} (h : Loose (w :: ws) c.rest)
    (hw : Layout.visible w = true) (hhyphen : w ≠ ['-'])
    (hlength : ∀ s, Loose ws s → shape.length? (w ++ s) = some w.length) :
    ∃ l d, ((word shape).read Rule.read c.skipLayout).outcome = .matched l d ∧
      l.text = String.ofList w ∧ Loose ws d.rest := by
  obtain ⟨s, hrest, hs⟩ := h.exists_skipLayout hw hhyphen
  refine ⟨⟨String.ofList w, c.skipLayout.loc⟩, c.skipLayout.advance w.length, ?_, rfl, ?_⟩
  · simp [Phrase.read, hrest, hlength s hs]
  · rw [Cursor.advance, hrest, List.drop_left]
    exact hs

/-- The next word is read if it is the symbol that is wanted. -/
theorem exists_read_symbol (h : Loose (w :: ws) c.rest) (text : String) (htext : text.toList = w)
    (hw : Layout.visible w = true) (hhyphen : w ≠ ['-']) :
    ∃ l d, ((symbol text).read Rule.read c.skipLayout).outcome = .matched l d ∧
      Loose ws d.rest := by
  have hlength (s : List Char) : (Shape.symbol text).length? (w ++ s) = some w.length := by
    have hprefix : text.toList.isPrefixOf (w ++ s) = true :=
      List.isPrefixOf_iff_prefix.2 (htext ▸ List.prefix_append ..)
    rw [Shape.length?, if_pos hprefix, ← htext, String.length_toList]
  obtain ⟨l, d, hread, -, hd⟩ := h.exists_read_word hw hhyphen fun s _ => hlength s
  exact ⟨l, d, hread, hd⟩

/-- The next word is read if it is a name, and no character of a name follows it. -/
theorem exists_read_name (h : Loose (w :: ws) c.rest) (shape : Shape) {first : Char → Bool}
    (hshape : ∀ s, shape.length? s = Shape.nameLength? first s) (hw : Shape.IsName first w)
    (hfirst : ∀ c, first c = true → Shape.isNameChar c = true)
    (hws : ∀ w ∈ ws.head?, Shape.startsOutside Shape.isNameChar w = true) :
    ∃ l d, ((word shape).read Rule.read c.skipLayout).outcome = .matched l d ∧
      l.text = String.ofList w ∧ Loose ws d.rest := by
  obtain ⟨c, s, rfl, hc⟩ := hw.start hfirst
  have hhyphen : c :: s ≠ ['-'] := by
    rintro ⟨⟩
    exact (Shape.isSpace_of_isNameChar hc).2 rfl
  refine h.exists_read_word (Shape.visible_of_isNameChar hc) hhyphen ?_
  intro s hs
  rw [hshape]
  exact Shape.nameLength?_append (hs.isNameChar_head hws) hw

/-- A declaration is read from its words. -/
theorem exists_item (d : Declaration.Spelling) (h : Loose (d.words ++ ws) c.rest)
    (hws : ∀ w ∈ ws.head?, Shape.startsOutside Shape.isNameChar w = true) :
    ∃ e, c.Item .declaration d.declaration e ∧ Loose ws e.rest := by
  have hname {c : Char} : Shape.isNameStart c = true → Shape.isNameChar c = true :=
    Shape.isNameChar_of_isNameStart
  have hnext {v : List Char} {vs : List (List Char)}
      (hv : Shape.startsOutside Shape.isNameChar v = true) :
      ∀ w ∈ (v :: vs).head?, Shape.startsOutside Shape.isNameChar w = true := by
    rintro _ ⟨⟩
    exact hv
  -- The five words are read one after the other.
  have h₀ : Loose (d.relation :: ['.'] :: d.attr :: [':'] :: d.type :: ws) c.rest := h
  obtain ⟨relation, e₁, hread₁, hrelation, h₁⟩ :=
    h₀.exists_read_name .name (fun _ => rfl) d.relation_isName (fun _ => hname) (hnext rfl)
  obtain ⟨_, e₂, hread₂, h₂⟩ := h₁.exists_read_symbol "." rfl rfl (by decide)
  obtain ⟨attr, e₃, hread₃, hattr, h₃⟩ :=
    h₂.exists_read_name .name (fun _ => rfl) d.attr_isName (fun _ => hname) (hnext rfl)
  obtain ⟨_, e₄, hread₄, h₄⟩ := h₃.exists_read_symbol ":" rfl rfl (by decide)
  obtain ⟨type, e₅, hread₅, htype, h₅⟩ := h₄.exists_read_name .typeName (fun _ => rfl)
    d.type_isName (fun _ => Shape.isNameChar_of_isAlpha) hws
  -- The three names are read by their rules, and what they are made into is put together.
  have hfirst := outcome_fmap (fun (relation attr type : Lexeme) =>
    (⟨relation.text, attr.text, .ofText type.text⟩ : Declaration))
    ((outcome_rule .name _).trans hread₁)
  have hsecond := outcome_ap (outcome_seqLeft hfirst hread₂) ((outcome_rule .name _).trans hread₃)
  have hthird := outcome_ap (outcome_seqLeft hsecond hread₄)
    ((outcome_rule .typeName _).trans hread₅)
  refine ⟨e₅, ?_, h₅⟩
  rw [hrelation, hattr, htype] at hthird
  rw [Cursor.Item, Rule.read_eq, Reading.outcome_settle]
  exact hthird

/-- After layout there is the semicolon, and behind it the other words. -/
theorem exists_semicolon (h : Loose ([';'] :: ws) c.rest) :
    ∃ s, c.skipLayout.rest = ';' :: s ∧ Loose ws (c.skipLayout.advance 1).rest := by
  obtain ⟨s, hrest, hs⟩ := h.exists_skipLayout rfl (by decide)
  refine ⟨s, hrest, ?_⟩
  rw [Cursor.advance, hrest]
  exact hs

/-- The declarations are read from their words, with or without a semicolon after the last one. -/
theorem listing {ds : List Declaration.Spelling} {closing : List (List Char)}
    (hclosing : closing = [] ∨ closing = [[';']] ∧ ds ≠ [])
    (h : Loose (Declaration.Spelling.joined ds ++ closing) c.rest) :
    c.Listing .declaration (ds.map Declaration.Spelling.declaration) := by
  induction ds generalizing c with
  | nil =>
    obtain rfl : closing = [] := hclosing.resolve_right fun h => h.2 rfl
    exact .nothing h.skipLayout_nil
  | cons d ds ih =>
    cases ds with
    | nil =>
      rw [Declaration.Spelling.joined_singleton] at h
      rcases hclosing with rfl | ⟨rfl, -⟩
      · -- The text ends with the declaration.
        obtain ⟨e, hitem, he⟩ := h.exists_item d (by simp)
        exact .last hitem he.skipLayout_nil
      · -- The text ends with a semicolon.
        obtain ⟨e, hitem, he⟩ := h.exists_item d (by rintro _ ⟨⟩; rfl)
        obtain ⟨s, hs, hend⟩ := he.exists_semicolon
        exact .more hitem hs (.nothing hend.skipLayout_nil)
    | cons d' ds =>
      rw [Declaration.Spelling.joined_cons_cons, List.append_assoc] at h
      obtain ⟨e, hitem, he⟩ := h.exists_item d (by rintro _ ⟨⟩; rfl)
      obtain ⟨s, hs, hmore⟩ := he.exists_semicolon
      have hclosing' : closing = [] ∨ closing = [[';']] ∧ d' :: ds ≠ [] :=
        hclosing.imp_right fun h => ⟨h.1, by simp⟩
      exact .more hitem hs (ih hclosing' hmore)

end Loose

/-- Declarations are read back from all texts that spell them, whatever layout stands around their
words. What is read is always a list of declarations that can be spelled: names follow their lexical
rule, and a type is named by its spelling in upper case. So no text is refused for an empty name. -/
theorem parseDeclarations_of_spelling :
    (∀ (ds : List Declaration.Spelling) (closing : List (List Char)) (text : String),
      closing = [] ∨ closing = [[';']] ∧ ds ≠ [] →
      Loose (Declaration.Spelling.joined ds ++ closing) text.toList →
        parseDeclarations text = .ok (ds.map Declaration.Spelling.declaration)) ∧
    (∀ text ds, parseDeclarations text = .ok ds → ∀ d ∈ ds,
      Shape.IsName Shape.isNameStart d.relation.toList ∧
      Shape.IsName Shape.isNameStart d.attr.toList ∧
      ∃ w, Shape.IsName Char.isAlpha w ∧ d.type = .ofText (String.ofList w) ∧
        d.type.name = String.ofList (w.map Char.toUpper)) ∧
    ∀ text, Catalog.ofText text ≠ .error (.declare .emptyName) := by
  refine ⟨?_, ?_, ?_⟩
  · -- The words are read one after the other, to the end of the text.
    intro ds closing text hclosing h
    exact parseDeclarations_eq_ok_iff.2 (Loose.listing hclosing h)
  · -- What was read follows the lexical rules, and the type is named by its spelling.
    intro text ds hds d hd
    obtain ⟨hrelation, hattr, w, hw, htype⟩ := parseDeclarations_valid hds d hd
    have hchars : ∀ c ∈ w, Shape.isNameChar c = true :=
      Shape.IsName.isNameChar hw fun _ => Shape.isNameChar_of_isAlpha
    refine ⟨hrelation, hattr, w, hw, htype.symm, ?_⟩
    rw [← htype, DataType.name_ofText_of_isNameChar hchars]
  · -- Declarations that are read have names, so that a refusal has another reason.
    intro text herror
    cases hds : parseDeclarations text with
    | error e =>
      rw [Catalog.ofText, hds] at herror
      cases herror
    | ok ds =>
      rcases Catalog.ofText_cases hds with ⟨c, hc, -⟩ | ⟨_, d, _, -, -, -, hd⟩
      · cases hc.symm.trans herror
      · cases hd.symm.trans herror

namespace Keyword

/-- The words of `Select . join : Int`. -/
def first : Declaration.Spelling :=
  ⟨"Select".toList, "join".toList, "Int".toList, by decide, by decide, by decide⟩

/-- The words of `_a . _1 : date_2`. -/
def second : Declaration.Spelling :=
  ⟨"_a".toList, "_1".toList, "date_2".toList, by decide, by decide, by decide⟩

end Keyword

/-- Keywords as names, words without layout between them, and a comment with a point in it. -/
theorem parseDeclarations_of_spelling_keywords :
    parseDeclarations "\nSelect.join--.x;\n:Int;_a ._1:date_2 ;" =
      .ok [⟨"Select", "join", .int⟩, ⟨"_a", "_1", .other "DATE_2"⟩] ∧
    ∃ w, Shape.IsName Char.isAlpha w ∧ "DATE_2" = String.ofList (w.map Char.toUpper) := by
  have hspace {c : Char} (hc : Layout.isSpace c = true) : Layout.Gap [c] := .space hc .nil
  have hcomment : Layout.Gap ("--".toList ++ (".x;".toList ++ ['\n'])) :=
    .comment (by decide : '\n' ∉ ".x;".toList) .nil
  have hloose : Loose (Declaration.Spelling.joined [Keyword.first, Keyword.second] ++ [[';']]) _ :=
    .cons (hspace (c := '\n') rfl) <| .cons .nil <| .cons .nil <| .cons hcomment <| .cons .nil <|
    .cons .nil <| .cons .nil <| .cons (hspace (c := ' ') rfl) <| .cons .nil <| .cons .nil <|
    .cons .nil <| .cons (hspace (c := ' ') rfl) <| .nil .nil
  have hread := parseDeclarations_of_spelling.1 [Keyword.first, Keyword.second] [[';']]
    "\nSelect.join--.x;\n:Int;_a ._1:date_2 ;" (.inr ⟨rfl, by simp⟩) hloose
  have hdeclared : [Keyword.first, Keyword.second].map Declaration.Spelling.declaration =
      [⟨"Select", "join", .int⟩, ⟨"_a", "_1", .other "DATE_2"⟩] := by rfl
  rw [hdeclared] at hread
  obtain ⟨-, -, w, hw, -, hname⟩ :=
    parseDeclarations_of_spelling.2.1 _ _ hread _ (.tail _ (.head _))
  exact ⟨hread, w, hw, hname⟩

end RelAlgebra
