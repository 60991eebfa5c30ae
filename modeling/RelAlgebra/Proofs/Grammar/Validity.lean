import RelAlgebra.Proofs.Grammar.Lexical
import RelAlgebra.Proofs.Rendering.Basic

/-!
# What was parsed is valid

The words in a query that was read from a text follow the lexical rules of what they stand for: a
name is no keyword, a literal is one of its kind, the type of a test has a name. No list of
arguments is empty. In a declaration that was read, names may be keywords, but they are not empty.

`Phrase.Ensures` says that all values which a phrase can read have a property, if the values of the
rules inside of it are valid, and has one lemma for each way to build phrases. `Rule.valid_body`
then goes through the grammar.
-/

namespace RelAlgebra

/-! ## Properties of what phrases read -/

namespace Phrase

variable {α β γ δ : Type} {P : Rule.Motive}

/-- Every value that the phrase can read is good, if a rule can read what `P` admits. -/
def Ensures (P : Rule.Motive) (p : Phrase α) (good : α → Prop) : Prop :=
  ∀ c a d, p.Derives P c a d → good a

/-- Nothing has to be known of a value of which nothing is said. -/
theorem ensures_true (p : Phrase α) : p.Ensures P fun _ => True := fun _ _ _ _ => trivial

/-- A word follows the lexical rule of its shape. -/
theorem ensures_word {shape : Shape} (h : shape.listed = true) :
    (word shape).Ensures P fun l => shape.Admits l.text.toList := by
  rintro c _ _ ⟨n, hn, rfl, -⟩
  rw [String.toList_ofList]
  exact Shape.admits_of_length? h hn

/-- A function of good values may give good values. -/
theorem Ensures.map {p : Phrase α} {g : α → β} {first : α → Prop} {good : β → Prop}
    (h : p.Ensures P first) (hg : ∀ a, first a → good (g a)) : (g <$> p).Ensures P good := by
  rintro c _ d ⟨a, ha, rfl⟩
  exact hg a (h c a d ha)

/-- Either alternative gives a good value. -/
theorem Ensures.orElse {p q : Phrase α} {good : α → Prop} (hp : p.Ensures P good)
    (hq : q.Ensures P good) : (p <|> q).Ensures P good := by
  rintro c a d (h | h)
  · exact hp c a d h
  · exact hq c a d h

/-- What is read afterwards does not change the value. -/
theorem Ensures.seqLeft {p : Phrase α} {q : Phrase β} {good : α → Prop} (h : p.Ensures P good) :
    (p <* q).Ensures P good := by
  intro c a d hseq
  obtain ⟨_, m, ha, -⟩ := derives_seqLeft.1 hseq
  exact h c a m ha

/-- What is read before does not change the value. -/
theorem Ensures.seqRight {p : Phrase α} {q : Phrase β} {good : β → Prop} (h : q.Ensures P good) :
    (p *> q).Ensures P good := by
  intro c b d hseq
  obtain ⟨_, m, -, hb⟩ := derives_seqRight.1 hseq
  exact h _ b d hb

/-- Parentheses do not change the value. -/
theorem Ensures.parens {p : Phrase α} {good : α → Prop} (h : p.Ensures P good) :
    (parens p).Ensures P good := h.seqRight.seqLeft

/-- Two phrases one after the other, whose values are put together. -/
theorem Ensures.ap {p : Phrase α} {q : Phrase β} {g : α → β → γ} {first : α → Prop}
    {second : β → Prop} {good : γ → Prop} (hp : p.Ensures P first) (hq : q.Ensures P second)
    (h : ∀ a b, first a → second b → good (g a b)) : (g <$> p <*> q).Ensures P good := by
  intro c _ d hseq
  obtain ⟨_, b, m, hfirst, hb, rfl⟩ := derives_seq.1 hseq
  obtain ⟨a, ha, rfl⟩ := derives_map.1 hfirst
  exact h a b (hp c a m ha) (hq _ b d hb)

/-- Three phrases one after the other, whose values are put together. -/
theorem Ensures.ap₂ {p : Phrase α} {q : Phrase β} {r : Phrase γ} {g : α → β → γ → δ}
    {first : α → Prop} {second : β → Prop} {third : γ → Prop} {good : δ → Prop}
    (hp : p.Ensures P first) (hq : q.Ensures P second) (hr : r.Ensures P third)
    (h : ∀ a b e, first a → second b → third e → good (g a b e)) :
    (g <$> p <*> q <*> r).Ensures P good := by
  intro c _ d hseq
  obtain ⟨_, e, m, htwo, he, rfl⟩ := derives_seq.1 hseq
  obtain ⟨_, b, m', hone, hb, rfl⟩ := derives_seq.1 htwo
  obtain ⟨a, ha, rfl⟩ := derives_map.1 hone
  exact h a b e (hp c a m' ha) (hq _ b m hb) (hr _ e d he)

/-- An optional value is good if there is one. -/
theorem Ensures.opt {p : Phrase α} {good : α → Prop} (h : p.Ensures P good) :
    (opt p).Ensures P fun a? => ∀ a ∈ a?, good a := by
  intro c a? d ha?
  cases a? with
  | none => simp
  | some a => simpa using h c a d ha?

/-- All values of a repetition are good. -/
theorem Ensures.many {p : Phrase α} {good : α → Prop} (h : p.Ensures P good) :
    (many p).Ensures P fun as => ∀ a ∈ as, good a := by
  intro c as d has a ha
  obtain ⟨m, m', ha⟩ := Derives.many_of_mem has ha
  exact h m a m' ha

/-- Values between separators are at least one. -/
theorem Ensures.separated {separator : String} {p : Phrase α} {good : α → Prop}
    (h : p.Ensures P good) :
    (separated separator p).Ensures P fun as => as ≠ [] ∧ ∀ a ∈ as, good a := by
  refine .ap h h.seqRight.many fun a as ha has => ⟨by simp, ?_⟩
  simpa using ⟨ha, has⟩

/-- All items of a list up to the end of the text are good. -/
theorem Ensures.list {p : Phrase α} {good : α → Prop} (h : p.Ensures P good) :
    (list p).Ensures P fun as => ∀ a ∈ as, good a := by
  intro c as d has a ha
  obtain ⟨m, m', ha⟩ := Derives.list_of_mem has ha
  exact h m a m' ha

/-- A chain is valid if its operands are. -/
theorem valid_chain {tier : Tier} {first : Scalar tier.operand}
    {more : List ((tier.Op × Lexeme) × Scalar tier.operand)} (hfirst : first.Valid)
    (hmore : ∀ x ∈ more, x.2.Valid) : (Scalar.chain first more).Valid := by
  induction more generalizing first with
  | nil => simpa [Scalar.chain, Scalar.Valid] using hfirst
  | cons x more ih =>
    obtain ⟨⟨op, mark⟩, next⟩ := x
    rw [List.forall_mem_cons] at hmore
    rw [Scalar.chain, Scalar.Valid]
    exact ⟨hfirst, ih hmore.1 hmore.2⟩

/-- A chain of valid operands is valid. -/
theorem Ensures.chain {tier : Tier} {operand : Phrase (Scalar tier.operand)}
    {operator : Phrase (tier.Op × Lexeme)} (h : operand.Ensures P Scalar.Valid) :
    (chain operand operator).Ensures P Scalar.Valid := by
  have hlink : (Prod.mk <$> operator <*> operand).Ensures P fun x => x.2.Valid :=
    .ap (ensures_true operator) h fun _ _ _ hnext => hnext
  exact .ap h hlink.many fun _ _ hfirst hmore => valid_chain hfirst hmore

end Phrase

/-! ## The grammar -/

namespace Rule

open Phrase

/-- The value of a rule is valid. -/
def Valid : (r : Rule) → r.Value → Prop
  | .name, l => Shape.name.Admits l.text.toList
  | .identifier, l | .relation, l | .attr, l => Shape.identifier.Admits l.text.toList
  | .typeName, l => Shape.typeName.Admits l.text.toList
  | .program, qs => ∀ q ∈ qs, q.Valid
  | .statement, q | .query, q | .binary, q | .unary, q | .project, q | .rename, q | .select, q
  | .closure, q => q.Valid
  | .binaryOperand, o | .unaryOperand, o => o.Valid
  | .renamePair, (old, new) =>
    Shape.identifier.Admits old.text.toList ∧ Shape.identifier.Admits new.text.toList
  | .predicate, e => e.Valid
  | .comparison, e => e.Valid
  | .typeTest, e => e.Valid
  | .additive, e => e.Valid
  | .multiplicative, e => e.Valid
  | .factor, e => e.Valid
  | .literal, (kind, l) => (Shape.literal kind).Admits l.text.toList
  | .literalWord kind, l => (Shape.literal kind).Admits l.text.toList
  | .declarations, ds => ∀ d ∈ ds, d.Valid
  | .declaration, d => d.Valid
  | _, _ => True

/-- The value of every rule is valid, if those of the rules inside of it are. -/
theorem valid_body (r : Rule) : r.body.Ensures (fun r _ value _ => r.Valid value) r.Valid := by
  have hQ (r : Rule) : (rule r).Ensures (fun r _ value _ => r.Valid value) r.Valid :=
    fun _ _ _ h => h
  -- What stands inside the parentheses of an operand.
  have hinner : innerOperand.Ensures (fun r _ value _ => r.Valid value) Operand.Valid := by
    unfold innerOperand
    exact .orElse (.map (hQ .query) fun _ hq => hq)
      (.orElse (.map (hQ .relation) fun _ hname => hname) (hQ .unaryOperand))
  cases r with
  | name | identifier | typeName => exact ensures_word rfl
  | relation | attr => exact hQ .identifier
  | program => exact .list (hQ .statement)
  | statement => exact .orElse (hQ .query) (.parens (hQ .statement))
  | query => exact .orElse (hQ .binary) (hQ .unary)
  | binary =>
    exact .ap₂ (hQ .binaryOperand) (hQ .binaryOp) (hQ .binaryOperand)
      fun _ _ _ hleft _ hright => ⟨hleft, hright⟩
  | binaryOperand =>
    exact .orElse (.map (hQ .relation) fun _ hname => hname)
      (.parens (.orElse (.map (hQ .query) fun _ hq => hq) (hQ .binaryOperand)))
  | unary => exact .orElse (hQ .project) (.orElse (hQ .rename) (.orElse (hQ .select) (hQ .closure)))
  | unaryOperand => exact .parens hinner
  | project =>
    exact .ap₂ (hQ (.verb .project)) (.parens (.separated (hQ .attr))) (hQ .unaryOperand)
      fun _ _ _ _ hattrs ho => ⟨hattrs, ho⟩
  | rename =>
    exact .ap₂ (hQ (.verb .rename)) (.parens (.separated (hQ .renamePair))) (hQ .unaryOperand)
      fun _ _ _ _ hpairs ho => ⟨hpairs, ho⟩
  | renamePair =>
    -- The arrow stands between the first name and the second.
    intro c _ d h
    obtain ⟨_, new, m, hfirst, hnew, rfl⟩ := derives_seq.1 h
    obtain ⟨_, m', hpair, -⟩ := derives_seqLeft.1 hfirst
    obtain ⟨old, hold, rfl⟩ := derives_map.1 hpair
    exact ⟨hold, hnew⟩
  | select =>
    exact .ap₂ (hQ (.verb .select)) (.parens (hQ .predicate)) (hQ .unaryOperand)
      fun _ _ _ _ hpredicate ho => ⟨hpredicate, ho⟩
  | closure =>
    exact .orElse (.ap (hQ (.verb .closure)) (hQ .unaryOperand) fun _ _ _ ho => ⟨trivial, ho⟩)
      (.seqLeft (.ap (hQ .closureOpen) hinner fun _ _ _ ho => ⟨trivial, ho⟩))
  | predicate => exact .chain (hQ .comparison)
  | comparison => exact .chain (hQ .typeTest)
  | typeTest =>
    refine .ap (hQ .additive) (.opt (.seqRight (hQ .typeName))) fun operand type ho htype => ?_
    cases type with
    | none => exact ho
    | some l => exact ⟨ho, l.text.toList, htype l rfl, by rw [String.ofList_toList]⟩
  | additive => exact .chain (hQ .multiplicative)
  | multiplicative => exact .chain (hQ .factor)
  | factor =>
    exact .orElse (.map (.parens (hQ .comparison)) fun _ h => h)
      (.orElse (.map (hQ .literal) fun _ h => h) (.map (hQ .attr) fun _ h => h))
  | literal =>
    have hkind (kind : LiteralKind) : (Prod.mk kind <$> rule (.literalWord kind)).Ensures
        (fun r _ value _ => r.Valid value) Rule.literal.Valid :=
      (hQ (.literalWord kind)).map fun _ h => h
    exact .orElse (hkind .string) (.orElse (hkind .binary) (.orElse (hkind .hex)
      (.orElse (hkind .octal) (.orElse (hkind .decimal) (.orElse (hkind .integer)
        (.orElse (hkind (.boolean true)) (hkind (.boolean false))))))))
  | literalWord kind => exact ensures_word rfl
  | declarations => exact .list (hQ .declaration)
  | declaration =>
    -- A relation, a point, an attribute, a colon and a type.
    intro c _ d h
    obtain ⟨_, type, _, hcolon, htype, rfl⟩ := derives_seq.1 h
    obtain ⟨_, _, hseq, -⟩ := derives_seqLeft.1 hcolon
    obtain ⟨_, attr, _, hdot, hattr, rfl⟩ := derives_seq.1 hseq
    obtain ⟨_, _, hfirst, -⟩ := derives_seqLeft.1 hdot
    obtain ⟨relation, hrelation, rfl⟩ := derives_map.1 hfirst
    exact ⟨hrelation, hattr, type.text.toList, htype, by rw [String.ofList_toList]⟩
  -- The values of the other rules hold nothing that could be invalid.
  | _ => exact ensures_true _

/-- Every value that is read from a text is valid. -/
theorem valid_of_parse {r : Rule} {text : String} {value : r.Value}
    (h : r.parse text = .ok value) : r.Valid value := by
  simp only [parse] at h
  split at h
  · next value d hr =>
    obtain rfl := Except.ok.inj h
    exact read_induction (P := fun r _ value _ => r.Valid value)
      (fun r c value d hd => r.valid_body c value d hd) hr
  · cases h

end Rule

/-- The queries of a program text are valid. -/
theorem parseProgram_valid {text : String} {qs : List Query} (h : parseProgram text = .ok qs) :
    ∀ q ∈ qs, q.Valid :=
  Rule.valid_of_parse (r := .program) h

/-- The declarations of a text are valid. -/
theorem parseDeclarations_valid {text : String} {ds : List Declaration}
    (h : parseDeclarations text = .ok ds) : ∀ d ∈ ds, d.Valid :=
  Rule.valid_of_parse (r := .declarations) h

end RelAlgebra
