import RelAlgebra.Proofs.Rendering.Basic
import RelAlgebra.Proofs.Rendering.Reading

/-!
# Predicates are read back

A rendering of a scalar expression is read back as that expression, up to places. A chain takes
every operator of its tier that follows, so it has to be known of the next word that it is none. The
words that end an expression of a form are those that all operators of its tier and of the tighter
ones reject: `Level.closes`.
-/

namespace RelAlgebra

open Phrase

variable {ts us vs : List Token}

/-- A phrase in parentheses. -/
theorem Phrase.Yields.parens {α : Type} {p : Phrase α} {R : α → Prop}
    (h : p.Yields ts (.rparen :: vs) R) : (parens p).Yields (enclosed 1 ts) vs R := by
  have hopen : (symbol "(").Yields [.lparen] (ts ++ .rparen :: vs) _ := yields_word rfl
  have hclose : (symbol ")").Yields [.rparen] vs _ := yields_word rfl
  exact (hopen.seqRight h).seqLeft hclose

/-- What is not there after the opening parenthesis is not there in parentheses. -/
theorem Phrase.Rejects.parens {α : Type} {p : Phrase α} (h : p.Rejects ts) :
    (parens p).Rejects (.lparen :: ts) := by
  have hopen : (symbol "(").Yields [.lparen] ts _ := yields_word rfl
  exact (Rejects.seq_right hopen h).map.seq.map

/-! ## The forms of expressions and their rules -/

/-- The phrase that reads the expressions of a form. -/
def Level.phrase : (level : Level) → Phrase (Scalar level)
  | .chain .logical => rule .predicate
  | .chain .comparison => rule .comparison
  | .chain .additive => rule .additive
  | .chain .multiplicative => rule .multiplicative
  | .test => rule .typeTest
  | .factor => rule .factor

/-- The phrase that reads the operators of a tier. -/
def Tier.operator : (tier : Tier) → Phrase (tier.Op × Lexeme)
  | .logical => rule .logicalOp
  | .comparison => rule .compareOp
  | .additive => rule .additiveOp
  | .multiplicative => rule .multiplicativeOp

/-- The rules that are tried at the end of an expression of the given form. -/
def Level.operators : Level → List Rule
  | .factor => []
  | .chain .multiplicative => [.multiplicativeOp]
  | .chain .additive => [.multiplicativeOp, .additiveOp]
  | .test => [.multiplicativeOp, .additiveOp, .instanceOf]
  | .chain .comparison => [.multiplicativeOp, .additiveOp, .instanceOf, .compareOp]
  | .chain .logical => [.multiplicativeOp, .additiveOp, .instanceOf, .compareOp, .logicalOp]

/-- Whether the next word ends an expression of the given form. -/
def Level.closes (level : Level) (first : Option Shape) : Bool :=
  level.operators.all (·.rejects first)

/-- What ends a chain ends its last operand. -/
theorem Tier.closes_operand {tier : Tier} {first : Option Shape}
    (h : (Level.chain tier).closes first = true) : tier.operand.closes first = true := by
  cases tier <;> simp_all [Level.closes, Level.operators]

/-- What ends a chain is no operator of its tier. -/
theorem Tier.rejects_operator {tier : Tier} (h : (Level.chain tier).closes (firstShape vs) = true) :
    tier.operator.Rejects vs := by
  cases tier <;> refine rejects_rule ?_ <;> simp_all [Level.closes, Level.operators]

/-- Every spelling of an operator is read as that operator. -/
theorem Tier.single_of_mem {tier : Tier} (op : tier.Op) :
    ∀ shape ∈ tier.shapes op, tier.operator.single Rule.single shape = some (Prod.mk op) := by
  cases tier <;> cases op <;>
    simp only [shapes, LogicalOp.shapes, CompareOp.shapes, AdditiveOp.shapes,
      MultiplicativeOp.shapes, List.forall_mem_cons, List.not_mem_nil, false_imp_iff,
      implies_true, and_true] <;>
    and_intros <;> rfl

/-- A word of an operator is read back as that operator. -/
theorem Tier.yields_operator {tier : Tier} {op : tier.Op} {t : Token}
    (ht : t.shape ∈ tier.shapes op) : tier.operator.Yields [t] vs (·.1 = op) := by
  refine (yields_of_single (single_of_mem op t.shape ht)).mono ?_
  rintro _ ⟨l, -, rfl⟩
  rfl

/-- An operator of a tier ends the operand before it. -/
theorem Tier.closes_of_mem {tier : Tier} {op : tier.Op} :
    ∀ shape ∈ tier.shapes op, tier.operand.closes (some shape) = true := by
  cases tier <;> cases op <;> decide

/-! ## Chains -/

/-- The phrase that reads an operator of a tier with the operand after it. -/
def Tier.item (tier : Tier) : Phrase ((tier.Op × Lexeme) × Scalar tier.operand) :=
  Prod.mk <$> tier.operator <*> tier.operand.phrase

/-- An operator with its operand is never empty. -/
theorem Tier.nullable_item (tier : Tier) : tier.item.nullable = false := by
  cases tier <;> rfl

/-- What ends a chain is no operator with an operand after it. -/
theorem Tier.rejects_item {tier : Tier} (h : (Level.chain tier).closes (firstShape vs) = true) :
    tier.item.Rejects vs :=
  (rejects_operator h).map.seq.map

/-- The rule of a tier reads its chains. -/
theorem Tier.yields_chain {tier : Tier} {R : Scalar (.chain tier) → Prop}
    (h : (chain tier.operand.phrase tier.operator).Yields ts vs R) :
    (Level.chain tier).phrase.Yields ts vs R := by
  cases tier <;> exact .rule h

/-- An operator and the operand after it, without places. -/
def Scalar.unplacedLink {tier : Tier} (x : (tier.Op × Lexeme) × Scalar tier.operand) :
    (tier.Op × Lexeme) × Scalar tier.operand :=
  ((x.1.1, .blank), x.2.unplaced)

/-- The places of a chain are those of its operands and operators. -/
theorem Scalar.unplaced_chain {tier : Tier} (first : Scalar tier.operand)
    (more : List ((tier.Op × Lexeme) × Scalar tier.operand)) :
    (Scalar.chain first more).unplaced =
      Scalar.chain first.unplaced (more.map Scalar.unplacedLink) := by
  induction more generalizing first with
  | nil => rfl
  | cons x more ih =>
    obtain ⟨⟨op, mark⟩, next⟩ := x
    rw [Scalar.chain, Scalar.unplaced, ih next]
    rfl

/-- The words are read back as the expression, up to places, where the next word ends it. For a
chain this is split into its first operand and the other ones, each with the operator before it. -/
def Scalar.ReadsBack : {level : Level} → Scalar level → List Token → Prop
  | .chain tier, s, ts => ∀ vs, (Level.chain tier).closes (firstShape vs) = true →
    ∃ us ws first more, ts = us ++ ws ∧ (Scalar.chain first more).unplaced = s.unplaced ∧
      tier.operand.phrase.Yields us (ws ++ vs) (·.unplaced = first.unplaced) ∧
      tier.item.YieldsAll ws vs (·.map unplacedLink = more.map unplacedLink)
  | level, s, ts => ∀ vs, level.closes (firstShape vs) = true →
    level.phrase.Yields ts vs (·.unplaced = s.unplaced)

/-- An expression that is read back is read by the phrase of its form. -/
theorem Scalar.ReadsBack.yields {level : Level} {s : Scalar level} (h : s.ReadsBack ts)
    (hvs : level.closes (firstShape vs) = true) :
    level.phrase.Yields ts vs (·.unplaced = s.unplaced) := by
  cases level with
  | chain tier =>
    -- The first operand is read, and then the repetition reads the others.
    obtain ⟨us, ws, first, more, rfl, hs, hfirst, hmore⟩ := h vs hvs
    refine Tier.yields_chain (((hfirst.map Scalar.chain).ap hmore.many).mono ?_)
    rintro _ ⟨_, l, ⟨a, ha, rfl⟩, hl, rfl⟩
    rw [← hs, Scalar.unplaced_chain, Scalar.unplaced_chain, ha, hl]
  | test => exact h vs hvs
  | factor => exact h vs hvs

/-- A name that is read from its word is that name, up to the place. -/
theorem Token.Names.unplaced_eq {t : Token} {name l : Lexeme} (h : t.Names name)
    (hl : l.text = String.ofList t.text) : l.unplaced = name.unplaced := by
  rw [Lexeme.unplaced, Lexeme.unplaced, hl, h.2, String.ofList_toList]

/-- A rendering of a scalar expression is read back as that expression. -/
theorem Scalar.Renders.readsBack {level : Level} {s : Scalar level} (h : s.Renders ts) :
    s.ReadsBack ts := by
  induction h with
  | @attr name t ht =>
    intro vs _
    have hsingle : Rule.single .factor t.shape = some Scalar.attr := by rw [ht.1]; rfl
    refine (yields_single hsingle).mono ?_
    rintro _ ⟨l, hl, rfl⟩
    exact congrArg Scalar.attr (ht.unplaced_eq hl)
  | @literal kind word t hshape htext =>
    intro vs _
    have hsingle : Rule.single .factor t.shape = some (Scalar.literal kind) := by
      rw [hshape]
      rcases kind with _ | _ | _ | _ | _ | _ | (_ | _) <;> rfl
    refine (yields_single hsingle).mono ?_
    rintro _ ⟨l, hl, rfl⟩
    have hl' : l.unplaced = word.unplaced := by
      rw [Lexeme.unplaced, Lexeme.unplaced, hl, htext, String.ofList_toList]
    exact congrArg (Scalar.literal kind) hl'
  | @paren inner ts _ ih =>
    intro vs _
    -- The closing parenthesis ends the expression inside.
    have hinner : (rule .comparison).Yields ts (.rparen :: vs) _ := ih.yields rfl
    refine Yields.rule ((hinner.parens.map Scalar.paren).left.mono ?_)
    rintro _ ⟨a, ha, rfl⟩
    exact congrArg Scalar.paren ha
  | @plain operand ts _ ih =>
    intro vs hvs
    obtain ⟨hoperand, hinstance⟩ : (Level.chain .additive).closes (firstShape vs) = true ∧
        Rule.instanceOf.rejects (firstShape vs) = true := by
      simpa [Level.closes, Level.operators, and_assoc] using hvs
    -- No type test follows, so the optional one is passed over.
    have htest : (rule .instanceOf *> rule .typeName).Rejects vs :=
      (rejects_rule hinstance).seq.map
    have hread : (rule .additive).Yields ts ([] ++ vs) _ := ih.yields hoperand
    have hall := (hread.map (fun operand (type : Option Lexeme) =>
      Scalar.testOf operand (type.map (.ofText ·.text)))).ap htest.opt
    rw [List.append_nil] at hall
    refine Yields.rule (hall.mono ?_)
    rintro _ ⟨_, _, ⟨a, ha, rfl⟩, rfl, rfl⟩
    exact congrArg Scalar.plain ha
  | @instanceOf operand type ts t u _ ht hu htype ih =>
    intro vs _
    -- The word `instanceof` ends the operand before it.
    have hoperand : (Level.chain .additive).closes (firstShape (t :: u :: vs)) = true := by
      change (Level.chain .additive).closes (some t.shape) = true
      rw [ht]
      decide
    have hword : (rule .instanceOf).Yields [t] (u :: vs) _ :=
      yields_single (f := id) (by rw [ht]; rfl)
    have hname : (rule .typeName).Yields [u] vs _ := yields_single (f := id) (by rw [hu]; rfl)
    have hread : (rule .additive).Yields ts ([t, u] ++ vs) _ := ih.yields hoperand
    have hall := (hread.map (fun operand (type : Option Lexeme) =>
      Scalar.testOf operand (type.map (.ofText ·.text)))).ap (hword.seqRight hname).opt
    refine Yields.rule (hall.mono ?_)
    rintro _ ⟨_, _, ⟨a, ha, rfl⟩, ⟨_, ⟨l, hl, rfl⟩, rfl⟩, rfl⟩
    simp only [Option.map_some, hl, htype, Scalar.testOf, Scalar.unplaced, ha]
  | @last tier operand ts _ ih =>
    intro vs hvs
    -- What ends the chain ends its operand, and the repetition reads nothing.
    refine ⟨ts, [], operand, [], by simp, rfl, ih.yields (Tier.closes_operand hvs), ?_⟩
    exact (Tier.rejects_item hvs).yieldsAll.mono fun as h => by rw [h]
  | @link tier operand op mark rest ts us t _ ht _ ih ihrest =>
    intro vs hvs
    obtain ⟨us, ws, first, more, rfl, hrest, hfirst, hmore⟩ := ihrest vs hvs
    -- The operator and the first operand of the rest are one item of the repetition.
    have hop : tier.operator.Yields [t] (us ++ (ws ++ vs)) (·.1 = op) := Tier.yields_operator ht
    have hitem : tier.item.Yields (t :: us) (ws ++ vs) _ := (hop.map Prod.mk).ap hfirst
    refine ⟨ts, t :: us ++ ws, operand, ((op, mark), first) :: more, rfl, ?_, ?_, ?_⟩
    · rw [Scalar.chain, Scalar.unplaced, Scalar.unplaced, hrest]
    · exact ih.yields (Tier.closes_of_mem t.shape ht)
    · refine (YieldsAll.cons tier.nullable_item hitem hmore).mono ?_
      rintro _ ⟨_, l, ⟨_, a, ⟨o, ho, rfl⟩, ha, rfl⟩, hl, rfl⟩
      simp only [List.map_cons, hl, unplacedLink, ho, ha]

end RelAlgebra
