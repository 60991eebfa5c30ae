import Mathlib.Data.List.Forall2
import RelAlgebra.Proofs.Grammar.Words
import RelAlgebra.Proofs.Query.Relocation

/-!
# Reading alike at related positions

Two positions, perhaps in different texts, are read alike if the words that can stand there are the
same and this goes on after each word and after layout. `Simulation R f` says so of all positions
that `R` relates, where a word at the place `l` of the first text stands at `f l` in the second.
Then whatever a rule of statements reads in the first text, it reads in the second one, with the
words moved: `Simulation.exists_read`.

A value is related to the one that is read in the other text. The relation of a phrase is put
together from those of its parts in the way its values are, so that a function that builds values
has to respect the relations of its arguments and of its result.
-/

namespace RelAlgebra

open scoped Relator

/-! ## Related outcomes -/

section Outcomes

variable {α β : Type} {R : Cursor → Cursor → Prop} {V : α → α → Prop} {W : β → β → Prop}

/-- Both match, with related values and positions, or both fail. Nothing is said if the first one
ran out of its bound. -/
def Outcome.Alike (R : Cursor → Cursor → Prop) (V : α → α → Prop) : Outcome α → Outcome α → Prop
  | .matched a d, .matched a' d' => V a a' ∧ R d d'
  | .failed, .failed => True
  | .exhausted, _ => True
  | _, _ => False

/-- Outcomes stay alike if they go on alike after related matches. -/
theorem Outcome.Alike.bind {x y : Outcome α} {k k' : α → Cursor → Outcome β} (h : Alike R V x y)
    (hk : ∀ a a' d d', V a a' → R d d' → Alike R W (k a d) (k' a' d')) :
    Alike R W (x.bind k) (y.bind k') := by
  -- The second outcome is of the kind of the first, unless that ran out of its bound.
  cases x with
  | exhausted => trivial
  | matched a d =>
    cases y with
    | matched a' d' => exact hk a a' d d' h.1 h.2
    | failed | exhausted => exact h.elim
  | failed =>
    cases y with
    | failed => trivial
    | matched | exhausted => exact h.elim

/-- A choice between outcomes that are alike gives outcomes that are alike. -/
theorem Outcome.Alike.orElse {x y x' y' : Outcome α} (h : Alike R V x y) (h' : Alike R V x' y') :
    Alike R V (x.orElse x') (y.orElse y') := by
  cases x with
  | exhausted => trivial
  | matched a d =>
    cases y with
    | matched a' d' => exact h
    | failed | exhausted => exact h.elim
  | failed =>
    cases y with
    | failed => exact h'
    | matched | exhausted => exact h.elim

/-- Repetitions are alike if what is repeated is. The bound of the second one has to suffice. -/
theorem Reading.alike_repeated {read read' : Cursor → Reading α}
    (hskip : ∀ c c', R c c' → R c.skipLayout c'.skipLayout)
    (h : ∀ c c', R c c' → c.skipLayout = c → c'.skipLayout = c' →
      (read c).outcome.Alike R V (read' c').outcome)
    (hshrinks : ∀ c, (read' c).Shrinks c true) (bound bound' : Nat) {c c' : Cursor} (hc : R c c')
    (hbound : c'.rest.length < bound') :
    (repeated read bound c).outcome.Alike R (List.Forall₂ V)
      (repeated read' bound' c').outcome := by
  induction bound generalizing bound' c c' with
  | zero => trivial
  | succ bound ih =>
    obtain ⟨bound', rfl⟩ : ∃ k, bound' = k + 1 := ⟨bound' - 1, by omega⟩
    have hfirst := h _ _ (hskip c c' hc) (by simp) (by simp)
    simp only [repeated]
    cases hx : (read c.skipLayout).outcome with
    | exhausted => trivial
    | failed =>
      -- The first repetition ends here, and so does the second one.
      rw [hx] at hfirst
      cases hy : (read' c'.skipLayout).outcome with
      | failed => exact ⟨.nil, hc⟩
      | matched | exhausted => rw [hy] at hfirst; exact hfirst.elim
    | matched a d =>
      rw [hx] at hfirst
      cases hy : (read' c'.skipLayout).outcome with
      | failed | exhausted => rw [hy] at hfirst; exact hfirst.elim
      | matched a' d' =>
        rw [hy] at hfirst
        -- The phrase has read something, so that the smaller bound suffices for what is left.
        have hlt := (hshrinks _ _ _ hy).2 rfl
        have hle := c'.length_skipLayout
        simp only [outcome_after, outcome_map]
        exact (ih bound' hfirst.2 (by omega)).bind fun as as' e e' has he =>
          ⟨.cons hfirst.1 has, he⟩

end Outcomes

/-! ## Related positions -/

/-- Whether words of the shape stand in statements. -/
def Shape.inStatement (shape : Shape) : Bool := shape.listed && shape != .symbol ";"

/-- At related positions after layout the same words of statements can be read. They stand at the
places that `f` gives, and the positions after them are related again, as are those after layout. -/
structure Simulation (R : Cursor → Cursor → Prop) (f : Location → Location) : Prop where
  skip : ∀ c c', R c c' → R c.skipLayout c'.skipLayout
  length? : ∀ (shape : Shape) c c', shape.inStatement = true → R c c' → c.skipLayout = c →
    c'.skipLayout = c' → shape.length? c'.rest = shape.length? c.rest
  word : ∀ (shape : Shape) c c' n, shape.inStatement = true → R c c' → c.skipLayout = c →
    c'.skipLayout = c' → shape.length? c.rest = some n →
    c'.rest.take n = c.rest.take n ∧ c'.loc = f c.loc ∧ R (c.advance n) (c'.advance n)

/-- The same with the two texts exchanged. -/
theorem Simulation.flip {R : Cursor → Cursor → Prop} {f g : Location → Location}
    (S : Simulation R f) (hg : ∀ l, g (f l) = l) : Simulation (fun c' c => R c c') g where
  skip c' c := S.skip c c'
  length? shape c' c hshape hR hc' hc := (S.length? shape c c' hshape hR hc hc').symm
  word shape c' c n hshape hR hc' hc hn := by
    rw [S.length? shape c c' hshape hR hc hc'] at hn
    obtain ⟨htake, hloc, hnext⟩ := S.word shape c c' n hshape hR hc hc' hn
    exact ⟨htake.symm, by rw [hloc, hg], hnext⟩

namespace Phrase

variable {α β : Type} {R : Cursor → Cursor → Prop} {f : Location → Location}
  {call : (r : Rule) → Cursor → Reading r.Value} {V : α → α → Prop} {W : β → β → Prop}

/-- At related positions the phrase is read alike, with values that `V` relates. In the first text
`call` reads the rules. -/
def Simulates (R : Cursor → Cursor → Prop) (call : (r : Rule) → Cursor → Reading r.Value)
    (p : Phrase α) (V : α → α → Prop) : Prop :=
  ∀ c c', R c c' → c.skipLayout = c → c'.skipLayout = c' →
    (p.read call c).outcome.Alike R V (p.read Rule.read c').outcome

/-- A word of statements is read alike, and moved. -/
theorem simulates_word (S : Simulation R f) {shape : Shape} (hshape : shape.inStatement = true) :
    (word shape).Simulates R call fun l l' => l.relocate f = l' := by
  intro c c' hR hc hc'
  simp only [read, S.length? shape c c' hshape hR hc hc']
  cases hn : shape.length? c.rest with
  | none => trivial
  | some n =>
    obtain ⟨htake, hloc, hnext⟩ := S.word shape c c' n hshape hR hc hc' hn
    refine ⟨?_, hnext⟩
    rw [htake, hloc]
    rfl

/-- A function that respects the relations of values is applied alike. -/
theorem Simulates.map {p : Phrase α} {k : α → β} (h : p.Simulates R call V) (hk : (V ⇒ W) k k) :
    (k <$> p).Simulates R call W := by
  intro c c' hR hc hc'
  change (Reading.map k _).outcome.Alike R W (Reading.map k _).outcome
  rw [Reading.outcome_map, Reading.outcome_map]
  exact (h c c' hR hc hc').bind fun a a' d d' ha hd => ⟨hk ha, hd⟩

/-- A choice is read alike if both alternatives are. -/
theorem Simulates.orElse {p q : Phrase α} (hp : p.Simulates R call V) (hq : q.Simulates R call V) :
    (p <|> q).Simulates R call V := by
  intro c c' hR hc hc'
  change (Reading.orElse _ _).outcome.Alike R V (Reading.orElse _ _).outcome
  rw [Reading.outcome_orElse, Reading.outcome_orElse]
  exact (hp c c' hR hc hc').orElse (hq c c' hR hc hc')

/-- Two phrases in a row are read alike if both are, since the positions after layout are
related. -/
theorem Simulates.seq (S : Simulation R f) {p : Phrase α} {q : Phrase β}
    (hp : p.Simulates R call V) (hq : q.Simulates R call W) :
    (seq p q).Simulates R call fun x x' => V x.1 x'.1 ∧ W x.2 x'.2 := by
  intro c c' hR hc hc'
  simp only [read, Reading.outcome_bind, Reading.outcome_map]
  refine (hp c c' hR hc hc').bind fun a a' d d' ha hd => ?_
  exact (hq _ _ (S.skip d d' hd) (by simp) (by simp)).bind fun b b' e e' hb he => ⟨⟨ha, hb⟩, he⟩

/-- A function and its argument, read one after the other, give related results. -/
theorem Simulates.ap (S : Simulation R f) {p : Phrase (α → β)} {q : Phrase α}
    (hp : p.Simulates R call (V ⇒ W)) (hq : q.Simulates R call V) :
    (p <*> q).Simulates R call W :=
  (hp.seq S hq).map fun _ _ h => h.1 h.2

/-- Two phrases in a row, the first one of which gives the value. -/
theorem Simulates.seqLeft (S : Simulation R f) {p : Phrase α} {q : Phrase β}
    (hp : p.Simulates R call V) (hq : q.Simulates R call W) : (p <* q).Simulates R call V :=
  (hp.seq S hq).map fun _ _ h => h.1

/-- Two phrases in a row, the second one of which gives the value. -/
theorem Simulates.seqRight (S : Simulation R f) {p : Phrase α} {q : Phrase β}
    (hp : p.Simulates R call V) (hq : q.Simulates R call W) : (p *> q).Simulates R call W :=
  (hp.seq S hq).map fun _ _ h => h.2

/-- A phrase in parentheses is read alike if the phrase is. -/
theorem Simulates.parens (S : Simulation R f) {p : Phrase α} (h : p.Simulates R call V) :
    (parens p).Simulates R call V :=
  ((simulates_word S rfl).seqRight S h).seqLeft S (simulates_word S rfl)

/-- Both texts have the optional phrase, or neither has. -/
theorem Simulates.opt {p : Phrase α} (h : p.Simulates R call V) :
    (opt p).Simulates R call (Option.Rel V) := by
  intro c c' hR hc hc'
  simp only [read, Reading.outcome_orElse, Reading.outcome_map, Reading.outcome_matched]
  refine .orElse ?_ ⟨.none, hR⟩
  exact (h c c' hR hc hc').bind fun a a' d d' ha hd => ⟨.some ha, hd⟩

/-- A repetition matches equally often in both texts, with values related one by one. -/
theorem Simulates.many (S : Simulation R f) {p : Phrase α} (hnull : p.nullable = false)
    (h : p.Simulates R call V) : (many p).Simulates R call (List.Forall₂ V) := by
  intro c c' hR hc hc'
  simp only [read, Reading.outcome_orElse, Reading.outcome_bind, Reading.outcome_map,
    Reading.outcome_matched]
  refine .orElse ((h c c' hR hc hc').bind fun a a' d d' ha hd => ?_) ⟨.nil, hR⟩
  have hrest := Reading.alike_repeated S.skip h (shrinks_of_nullable hnull) (d.rest.length + 1) _ hd
    (Nat.lt_succ_self _)
  exact hrest.bind fun as as' e e' has he => ⟨.cons ha has, he⟩

/-- A separated list has equally many items in both texts, each moved. -/
theorem Simulates.separated (S : Simulation R f) {separator : String} {p : Phrase α} {g : α → α}
    (hseparator : (Shape.symbol separator).inStatement = true)
    (h : p.Simulates R call fun a a' => g a = a') :
    (separated separator p).Simulates R call fun as as' => as.map g = as' := by
  have hitem := (simulates_word S hseparator).seqRight S h
  -- A separator has characters, so that each item of the repetition reads something.
  have hnull : (symbol separator *> p).nullable = false := by
    have hsymbol : (Shape.symbol separator).nullable = false :=
      Shape.nullable_of_listed (by simp_all [Shape.inStatement])
    change ((Shape.symbol separator).nullable && p.nullable) = false
    rw [hsymbol, Bool.false_and]
  -- The first item and the others make up the list in both texts.
  refine .ap S (h.map ?_) (hitem.many S hnull)
  rintro a _ rfl as as' has
  rw [← List.forall₂_map_left_iff, List.forall₂_eq_eq_eq] at has
  rw [List.map_cons, has]

/-- A word that is read with its meaning. -/
theorem Simulates.tag {p : Phrase Lexeme} (h : p.Simulates R call fun l l' => l.relocate f = l')
    (meaning : α) :
    (Prod.mk meaning <$> p).Simulates R call fun x x' => (x.1, x.2.relocate f) = x' :=
  h.map fun _ _ hl => congrArg (Prod.mk meaning) hl

/-- The first of some symbols that matches is the same in both texts. -/
theorem simulates_signs (S : Simulation R f) {table : List (String × α)}
    (h : ∀ x ∈ table, (Shape.symbol x.1).inStatement = true) :
    (signs table).Simulates R call fun x x' => (x.1, x.2.relocate f) = x' := by
  induction table with
  | nil => exact fun _ _ _ _ _ => trivial
  | cons x table ih =>
    rw [List.forall_mem_cons] at h
    exact ((simulates_word S h.1).tag x.2).orElse (ih h.2)

/-- A chain is moved if its operands and the words of its operators are. -/
theorem relocate_chain {tier : Tier} {first : Scalar tier.operand}
    {more more' : List ((tier.Op × Lexeme) × Scalar tier.operand)}
    (h : List.Forall₂ (fun x x' => ((x.1.1, x.1.2.relocate f), x.2.relocate f) = x') more more') :
    (Scalar.chain first more).relocate f = Scalar.chain (first.relocate f) more' := by
  induction h generalizing first with
  | nil => rfl
  | @cons x _ more more' hx _ ih =>
    obtain ⟨⟨op, mark⟩, next⟩ := x
    rw [← hx, Scalar.chain, Scalar.chain, Scalar.relocate, ih]

/-- A chain of operands is read alike, with the operands and the words of its operators moved. -/
theorem Simulates.chain (S : Simulation R f) {tier : Tier} {operand : Phrase (Scalar tier.operand)}
    {operator : Phrase (tier.Op × Lexeme)} (hnull : operator.nullable = false)
    (hoperand : operand.Simulates R call fun e e' => e.relocate f = e')
    (hoperator : operator.Simulates R call fun x x' => (x.1, x.2.relocate f) = x') :
    (chain operand operator).Simulates R call fun e e' => e.relocate f = e' := by
  -- An operator with the operand after it.
  have hitem : (Prod.mk <$> operator <*> operand).Simulates R call fun x x' =>
      ((x.1.1, x.1.2.relocate f), x.2.relocate f) = x' := by
    refine .ap S (hoperator.map ?_) hoperand
    rintro op _ rfl e _ rfl
    rfl
  have hitems := hitem.many S (by
    change (operator.nullable && operand.nullable) = false
    rw [hnull, Bool.false_and])
  refine .ap S (hoperand.map ?_) hitems
  rintro first _ rfl more more' hmore
  exact relocate_chain hmore

end Phrase

/-! ## The rules of statements -/

namespace Rule

open Phrase

/-- Whether the rule is one of those for statements. -/
def inStatement : Rule → Bool
  | .endOfInput | .program | .declarations | .declaration => false
  | _ => true

/-- The value of a rule for statements with all its words moved. -/
def relocate (f : Location → Location) : (r : Rule) → r.Value → r.Value
  | .name, l | .identifier, l | .typeName, l | .relation, l | .attr, l => l.relocate f
  | .statement, q | .query, q | .binary, q | .unary, q | .project, q | .rename, q | .select, q
  | .closure, q => q.relocate f
  | .binaryOperand, o | .unaryOperand, o => o.relocate f
  | .binaryOp, (op, l) => (op, l.relocate f)
  | .binaryWord _, l | .verb _, l | .closureOpen, l | .logicalWord _, l | .instanceOf, l
  | .literalWord _, l => l.relocate f
  | .renamePair, (old, new) => (old.relocate f, new.relocate f)
  | .predicate, e => e.relocate f
  | .comparison, e => e.relocate f
  | .typeTest, e => e.relocate f
  | .additive, e => e.relocate f
  | .multiplicative, e => e.relocate f
  | .factor, e => e.relocate f
  | .logicalOp, (op, l) => (op, l.relocate f)
  | .compareOp, (op, l) => (op, l.relocate f)
  | .additiveOp, (op, l) => (op, l.relocate f)
  | .multiplicativeOp, (op, l) => (op, l.relocate f)
  | .literal, (kind, l) => (kind, l.relocate f)
  | .endOfInput, value | .program, value | .declarations, value | .declaration, value => value

variable {R : Cursor → Cursor → Prop} {f : Location → Location}
  {call : (r : Rule) → Cursor → Reading r.Value}

/-- The value of the rule in the second text is that in the first one, moved. -/
abbrev Moved (f : Location → Location) (r : Rule) (value value' : r.Value) : Prop :=
  r.relocate f value = value'

/-- At related positions a rule for statements is read alike, if the rules inside of it are. -/
theorem simulates_body (S : Simulation R f)
    (hrule : ∀ r : Rule, r.inStatement = true → (rule r).Simulates R call (r.Moved f)) {r : Rule}
    (hr : r.inStatement = true) : r.body.Simulates R call (r.Moved f) := by
  -- What stands inside the parentheses of an operand.
  have hinner : innerOperand.Simulates R call fun o o' => o.relocate f = o' := by
    unfold innerOperand
    refine .orElse ((hrule .query rfl).map ?_) (.orElse ((hrule .relation rfl).map ?_)
      (hrule .unaryOperand rfl))
    · rintro q _ rfl
      simp only [relocate, Operand.relocate]
    · rintro name _ rfl
      simp only [relocate, Operand.relocate]
  -- Each rule is put together from its parts; where a function builds the value, that it moves the
  -- words of its arguments is checked by computation.
  cases r with
  | endOfInput | program | declarations | declaration => simp [inStatement] at hr
  | name | identifier | typeName => exact simulates_word S rfl
  | relation | attr => exact hrule .identifier rfl
  | statement => exact .orElse (hrule .query rfl) (.parens S (hrule .statement rfl))
  | query => exact .orElse (hrule .binary rfl) (hrule .unary rfl)
  | binary =>
    refine .ap S (.ap S ((hrule .binaryOperand rfl).map ?_) (hrule .binaryOp rfl))
      (hrule .binaryOperand rfl)
    rintro left _ rfl ⟨op, mark⟩ _ rfl right _ rfl
    simp only [Moved, relocate, Query.relocate]
  | binaryOperand =>
    refine .orElse ((hrule .relation rfl).map ?_)
      (.parens S (.orElse ((hrule .query rfl).map ?_) (hrule .binaryOperand rfl)))
    · rintro name _ rfl
      simp only [Moved, relocate, Operand.relocate]
    · rintro q _ rfl
      simp only [Moved, relocate, Operand.relocate]
  | binaryOp =>
    exact .orElse (.tag (hrule (.binaryWord .union) rfl) _)
      (.orElse (.tag (hrule (.binaryWord .intersection) rfl) _)
      (.orElse (.tag (hrule (.binaryWord .difference) rfl) _)
      (.orElse (.tag (hrule (.binaryWord .join) rfl) _)
      (.orElse (.tag (hrule (.binaryWord .cross) rfl) _)
        (.tag (hrule (.binaryWord .division) rfl) _)))))
  | binaryWord op =>
    cases op with
    | union | intersection | cross | division =>
      exact .orElse (simulates_word S rfl) (simulates_word S rfl)
    | difference | join =>
      exact .orElse (simulates_word S rfl)
        (.orElse (simulates_word S rfl) (simulates_word S rfl))
  | unary =>
    exact .orElse (hrule .project rfl)
      (.orElse (hrule .rename rfl) (.orElse (hrule .select rfl) (hrule .closure rfl)))
  | unaryOperand => exact .parens S hinner
  | project =>
    refine .ap S (.ap S ((hrule (.verb .project) rfl).map ?_)
      (.parens S (.separated S rfl (hrule .attr rfl)))) (hrule .unaryOperand rfl)
    rintro mark _ rfl attributes _ rfl operand _ rfl
    simp only [Moved, relocate, Query.relocate, UnaryOp.relocate]
    rfl
  | rename =>
    refine .ap S (.ap S ((hrule (.verb .rename) rfl).map ?_)
      (.parens S (.separated S rfl (hrule .renamePair rfl)))) (hrule .unaryOperand rfl)
    rintro mark _ rfl pairs _ rfl operand _ rfl
    simp only [Moved, relocate, Query.relocate, UnaryOp.relocate]
    rfl
  | renamePair =>
    refine .ap S (.seqLeft S ((hrule .attr rfl).map ?_)
      (.orElse (simulates_word S rfl) (simulates_word S rfl))) (hrule .attr rfl)
    rintro old _ rfl new _ rfl
    rfl
  | select =>
    refine .ap S (.ap S ((hrule (.verb .select) rfl).map ?_)
      (.parens S (hrule .predicate rfl))) (hrule .unaryOperand rfl)
    rintro mark _ rfl predicate _ rfl operand _ rfl
    simp only [Moved, relocate, Query.relocate, UnaryOp.relocate]
  | closure =>
    refine .orElse (.ap S ((hrule (.verb .closure) rfl).map ?_) (hrule .unaryOperand rfl))
      (.seqLeft S (.ap S ((hrule .closureOpen rfl).map ?_) hinner) (simulates_word S rfl))
    · rintro mark _ rfl operand _ rfl
      simp only [Moved, relocate, Query.relocate, UnaryOp.relocate]
    · rintro mark _ rfl operand _ rfl
      simp only [Moved, relocate, Query.relocate, UnaryOp.relocate]
  | verb v =>
    cases v with
    | project | rename | select => exact .orElse (simulates_word S rfl) (simulates_word S rfl)
    | closure => exact simulates_word S rfl
  | closureOpen | instanceOf => exact simulates_word S rfl
  | predicate => exact .chain S rfl (hrule .comparison rfl) (hrule .logicalOp rfl)
  | logicalOp =>
    exact .orElse (.tag (hrule (.logicalWord .and) rfl) _) (.tag (hrule (.logicalWord .or) rfl) _)
  | logicalWord op =>
    cases op with
    | and | or =>
      exact .orElse (simulates_word S rfl)
        (.orElse (simulates_word S rfl) (simulates_word S rfl))
  | comparison => exact .chain S rfl (hrule .typeTest rfl) (hrule .compareOp rfl)
  | compareOp => exact simulates_signs S (by decide)
  | typeTest =>
    -- The name of the type is optional, and present in both texts or in neither.
    refine .ap S ((hrule .additive rfl).map ?_)
      (.opt (.seqRight S (hrule .instanceOf rfl) (hrule .typeName rfl)))
    rintro operand _ rfl type type' htype
    cases htype with
    | none => rfl
    | some hname => subst hname; rfl
  | additive => exact .chain S rfl (hrule .multiplicative rfl) (hrule .additiveOp rfl)
  | additiveOp => exact simulates_signs S (by decide)
  | multiplicative => exact .chain S rfl (hrule .factor rfl) (hrule .multiplicativeOp rfl)
  | multiplicativeOp =>
    exact .orElse (simulates_signs S (by decide)) (.tag (simulates_word S rfl) _)
  | factor =>
    refine .orElse (.map (.parens S (hrule .comparison rfl)) ?_)
      (.orElse ((hrule .literal rfl).map ?_) ((hrule .attr rfl).map ?_))
    · rintro inner _ rfl
      rfl
    · rintro ⟨kind, l⟩ _ rfl
      rfl
    · rintro name _ rfl
      rfl
  | literal =>
    exact .orElse (.tag (hrule (.literalWord .string) rfl) _)
      (.orElse (.tag (hrule (.literalWord .binary) rfl) _)
      (.orElse (.tag (hrule (.literalWord .hex) rfl) _)
      (.orElse (.tag (hrule (.literalWord .octal) rfl) _)
      (.orElse (.tag (hrule (.literalWord .decimal) rfl) _)
      (.orElse (.tag (hrule (.literalWord .integer) rfl) _)
      (.orElse (.tag (hrule (.literalWord (.boolean true)) rfl) _)
        (.tag (hrule (.literalWord (.boolean false)) rfl) _)))))))
  | literalWord kind => exact simulates_word S rfl

/-- At related positions a rule for statements is read alike, whatever bound the reader has in the
first text. -/
theorem simulates (S : Simulation R f) (n : Nat) {r : Rule} (hr : r.inStatement = true) :
    (rule r).Simulates R (readWithin n) (r.Moved f) := by
  induction n generalizing r with
  | zero => exact fun _ _ _ _ _ => trivial
  | succ n ih =>
    intro c c' hR hc hc'
    rw [Phrase.read, Phrase.read, readWithin, read_eq, Reading.outcome_settle,
      Reading.outcome_settle]
    exact simulates_body S (fun _ => ih) hr c c' hR hc hc'

end Rule

/-- What a rule for statements reads at a position, it reads at a related one, with the words
moved. -/
theorem Simulation.exists_read {R : Cursor → Cursor → Prop} {f : Location → Location}
    (S : Simulation R f) {r : Rule} (hr : r.inStatement = true) {c c' d : Cursor} (hR : R c c')
    (hc : c.skipLayout = c) (hc' : c'.skipLayout = c') {value : r.Value}
    (h : (r.read c).outcome = .matched value d) :
    ∃ d', (r.read c').outcome = .matched (r.relocate f value) d' ∧ R d d' := by
  -- The bound that the reader has in the first text is one for which the readings are alike.
  have halike : (r.read c).outcome.Alike R (r.Moved f) (r.read c').outcome :=
    Rule.simulates S _ hr c c' hR hc hc'
  rw [h] at halike
  cases hy : (r.read c').outcome with
  | failed | exhausted => rw [hy] at halike; exact halike.elim
  | matched value' d' =>
    rw [hy] at halike
    exact ⟨d', by rw [halike.1], halike.2⟩

end RelAlgebra
