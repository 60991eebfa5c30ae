import RelAlgebra.Proofs.Rendering.Scalar

/-!
# Queries are read back

A rendering of a query is read back as that query, up to places. The difficulty is in parentheses:
one may open a whole query, an operand of an operator with two operands, or an operand of an
operator with one operand, and the alternatives are tried in this order. Where an operand in
parentheses is read, it is tried first whether it is the left operand of a longer query. That reads
the whole operand and then fails, because the word after it is no operator: `rejects_query`.
-/

namespace RelAlgebra

open Phrase

variable {ts us vs : List Token}

/-! ## Names and lists -/

/-- The name of a relation is read back. -/
theorem Token.Names.yields_relation {t : Token} {name : Lexeme} (h : t.Names name) :
    (rule .relation).Yields [t] vs (·.unplaced = name.unplaced) := by
  refine (yields_single (f := id) (by rw [h.1]; rfl)).mono ?_
  rintro _ ⟨l, hl, rfl⟩
  exact h.unplaced_eq hl

/-- The name of an attribute is read back. -/
theorem Token.Names.yields_attr {t : Token} {name : Lexeme} (h : t.Names name) :
    (rule .attr).Yields [t] vs (·.unplaced = name.unplaced) := by
  refine (yields_single (f := id) (by rw [h.1]; rfl)).mono ?_
  rintro _ ⟨l, hl, rfl⟩
  exact h.unplaced_eq hl

section Separated

variable {α β : Type} {p : Phrase α} {item : α → List Token → Prop} {separator : String}
  {hsymbol : separator ∈ Shape.symbols} (view : α → β) (follow : List Token → Prop)

/-- The first item of a list is read, and then the repetition reads the others, each after its
separator. -/
theorem Separated.exists_cons {as : List α} (hnull : p.nullable = false)
    (hitem : ∀ a ts vs, item a ts → follow vs → p.Yields ts vs (view · = view a))
    (hseparator : ∀ ts, follow (.ofSymbol separator hsymbol :: ts)) (hvs : follow vs)
    (hend : (symbol separator *> p).Rejects vs)
    (h : Separated (.ofSymbol separator hsymbol) item as ts) :
    ∃ a rest us ws, as = a :: rest ∧ ts = us ++ ws ∧ p.Yields us (ws ++ vs) (view · = view a) ∧
      (symbol separator *> p).YieldsAll ws vs (·.map view = rest.map view) := by
  induction h with
  | @one a ts ha =>
    refine ⟨a, [], ts, [], rfl, by simp, hitem a ts vs ha hvs, ?_⟩
    exact hend.yieldsAll.mono fun as h => by rw [h]
  | @more a as ts us ha _ ih =>
    obtain ⟨b, rest, us, ws, rfl, rfl, hb, hrest⟩ := ih
    refine ⟨a, b :: rest, ts, .ofSymbol separator hsymbol :: us ++ ws, rfl, rfl,
      hitem a ts _ ha (hseparator _), ?_⟩
    -- The separator and the first item of the rest are one round of the repetition.
    have hword : (symbol separator).Yields [.ofSymbol separator hsymbol] (us ++ (ws ++ vs)) _ :=
      yields_word rfl
    have hnull' : (symbol separator *> p).nullable = false := by
      change (_ && p.nullable) = false
      rw [hnull, Bool.and_false]
    refine (YieldsAll.cons hnull' (hword.seqRight hb) hrest).mono ?_
    rintro _ ⟨c, cs, hc, hcs, rfl⟩
    rw [List.map_cons, List.map_cons, hc, hcs]

/-- Items with separators between them are read back as a list. -/
theorem Separated.yields {as : List α} (hnull : p.nullable = false)
    (hitem : ∀ a ts vs, item a ts → follow vs → p.Yields ts vs (view · = view a))
    (hseparator : ∀ ts, follow (.ofSymbol separator hsymbol :: ts)) (hvs : follow vs)
    (hend : (symbol separator *> p).Rejects vs)
    (h : Separated (.ofSymbol separator hsymbol) item as ts) :
    (separated separator p).Yields ts vs (·.map view = as.map view) := by
  obtain ⟨a, rest, us, ws, rfl, rfl, ha, hrest⟩ :=
    h.exists_cons view follow hnull hitem hseparator hvs hend
  refine ((ha.map List.cons).ap hrest.many).mono ?_
  rintro _ ⟨_, cs, ⟨c, hc, rfl⟩, hcs, rfl⟩
  rw [List.map_cons, List.map_cons, hc, hcs]

end Separated

/-- A list between parentheses ends at the closing one. -/
theorem rejects_comma {α : Type} {p : Phrase α} : (symbol "," *> p).Rejects (.rparen :: vs) :=
  (rejects_word rfl).seq.map

/-- The arguments of a projection are read back. -/
theorem yields_attributes {attributes : List Lexeme}
    (h : Separated .comma (fun name ts => ∃ t : Token, t.Names name ∧ ts = [t]) attributes ts) :
    (separated "," (rule .attr)).Yields ts (.rparen :: vs)
      (·.map Lexeme.unplaced = attributes.map Lexeme.unplaced) := by
  refine h.yields Lexeme.unplaced (fun _ => True) rfl ?_ (fun _ => trivial) trivial rejects_comma
  rintro name _ vs ⟨t, ht, rfl⟩ -
  exact ht.yields_attr

/-- An attribute and its new name are read back. -/
theorem yields_pair {pair : Lexeme × Lexeme} (h : RendersPair pair ts) :
    (rule .renamePair).Yields ts vs
      fun p => (p.1.unplaced, p.2.unplaced) = (pair.1.unplaced, pair.2.unplaced) := by
  obtain ⟨t, arrow, u, ht, harrow, hu, rfl⟩ := h
  have hsingle : ∀ shape ∈ [Shape.symbol "->", .symbol "→"],
      (symbol "->" <|> symbol "→").single Rule.single shape = some id := by
    simp only [List.forall_mem_cons, List.not_mem_nil, false_imp_iff, implies_true, and_true]
    exact ⟨rfl, rfl⟩
  have hmiddle : (symbol "->" <|> symbol "→").Yields [arrow] (u :: vs) _ :=
    yields_of_single (hsingle arrow.shape harrow)
  have hfirst : (rule .attr).Yields [t] (arrow :: u :: vs) _ := ht.yields_attr
  refine Yields.rule ((((hfirst.map Prod.mk).seqLeft hmiddle).ap hu.yields_attr).mono ?_)
  rintro _ ⟨_, b, ⟨a, ha, rfl⟩, hb, rfl⟩
  rw [ha, hb]

/-- The arguments of a renaming are read back. -/
theorem yields_pairs {pairs : List (Lexeme × Lexeme)} (h : Separated .comma RendersPair pairs ts) :
    (separated "," (rule .renamePair)).Yields ts (.rparen :: vs)
      fun l => l.map (fun p => (p.1.unplaced, p.2.unplaced)) =
        pairs.map fun p => (p.1.unplaced, p.2.unplaced) := by
  refine h.yields (fun p : Lexeme × Lexeme => (p.1.unplaced, p.2.unplaced)) (fun _ => True) rfl ?_
    (fun _ => trivial) trivial rejects_comma
  intro pair ts vs hpair _
  exact yields_pair hpair

/-! ## Operators -/

/-- Every spelling of an operator between two operands is read as that operator. -/
theorem BinaryOp.single_of_mem (op : BinaryOp) :
    ∀ shape ∈ op.shapes, Rule.single .binaryOp shape = some (Prod.mk op) := by
  cases op <;>
    simp only [shapes, List.forall_mem_cons, List.not_mem_nil, false_imp_iff, implies_true,
      and_true] <;>
    and_intros <;> rfl

/-- Every spelling of a verb is read as that verb. -/
theorem Verb.single_of_mem (verb : Verb) :
    ∀ shape ∈ verb.shapes, Rule.single (.verb verb) shape = some id := by
  cases verb <;>
    simp only [shapes, List.forall_mem_cons, List.not_mem_nil, false_imp_iff, implies_true,
      and_true] <;>
    and_intros <;> rfl

/-- The words that open a query with one operand start no query with two operands. -/
theorem Verb.rejects_binary (verb : Verb) :
    ∀ shape ∈ verb.shapes, Rule.binary.rejects (some shape) = true := by
  cases verb <;> decide

/-! ## Operands -/

/-- The words, without parentheses around them, are read back as the operand: they are the name of a
relation, or are read back as a query. -/
def Operand.ReadsBack : Operand → List Token → Prop
  | .relation name, ts => ∃ t : Token, t.Names name ∧ ts = [t]
  | .nested q, ts => ∀ vs, (rule .query).Yields ts vs (·.unplaced = q.unplaced)

/-- The last pair of parentheses encloses all others. -/
theorem enclosed_succ (n : Nat) (ts : List Token) :
    enclosed (n + 1) ts = enclosed 1 (enclosed n ts) := rfl

/-- A query with one operand does not start like an operand of an operator with two operands. -/
theorem Operand.ReadsBack.rejects_unary {o : Operand} (h : o.ReadsBack ts) (n : Nat) :
    (rule .unary).Rejects (enclosed (n + o.parens) ts ++ vs) := by
  refine rejects_rule ?_
  cases o with
  | relation name =>
    obtain ⟨t, ht, rfl⟩ := h
    cases n with
    | zero =>
      change Rule.unary.rejects (some t.shape) = true
      rw [ht.1]
      rfl
    | succ n => rfl
  | nested q => rfl

/-- A query is not what stands there if an operand can be read and no operator follows it. -/
theorem Operand.ReadsBack.rejects_query_of_yields {o : Operand} (h : o.ReadsBack ts) {n : Nat}
    {R : Operand → Prop} (hoperand : (rule .binaryOperand).Yields (enclosed (n + o.parens) ts) vs R)
    (hvs : Rule.binaryOp.rejects (firstShape vs) = true) :
    (rule .query).Rejects (enclosed (n + o.parens) ts ++ vs) := by
  -- As a query with two operands it lacks the operator, and no verb stands at its start.
  have hbinary : (rule .binary).Rejects (enclosed (n + o.parens) ts ++ vs) :=
    .rule (Rejects.seq_right (hoperand.map _) (rejects_rule hvs)).map.seq.map
  exact .rule (hbinary.alt (h.rejects_unary n))

/-- An operand of an operator with two operands is read back, in any number of parentheses. -/
theorem Operand.ReadsBack.yields_binaryOperand {o : Operand} (h : o.ReadsBack ts) (n : Nat) :
    (rule .binaryOperand).Yields (enclosed (n + o.parens) ts) vs (·.unplaced = o.unplaced) := by
  have hparen {ts vs : List Token} :
      (Operand.relation <$> rule .relation).Rejects (enclosed 1 ts ++ vs) := rejects_of_first rfl
  induction n generalizing vs with
  | zero =>
    cases o with
    | relation name =>
      -- A name stands without parentheses.
      obtain ⟨t, ht, rfl⟩ := h
      refine Yields.rule ((ht.yields_relation.map Operand.relation).left.mono ?_)
      rintro _ ⟨a, ha, rfl⟩
      rw [Operand.unplaced, Operand.unplaced, ha]
    | nested q =>
      -- A parenthesis opens, so that no name is read, and a query is tried first.
      refine Yields.rule (.right hparen ?_)
      refine (((h (.rparen :: vs)).map Operand.nested).left.mono ?_).parens
      rintro _ ⟨a, ha, rfl⟩
      rw [Operand.unplaced, Operand.unplaced, ha]
  | succ n ih =>
    -- Inside the parentheses a query is tried first, in vain, and then an operand.
    rw [Nat.add_right_comm, enclosed_succ]
    refine Yields.rule (.right hparen (Yields.parens (.right ?_ ih)))
    exact (h.rejects_query_of_yields ih rfl).map

/-- An operand in enough parentheses is not taken for a query if no operator follows it. -/
theorem Operand.ReadsBack.rejects_query {o : Operand} (h : o.ReadsBack ts) {n : Nat}
    (hn : o.parens ≤ n) (hvs : Rule.binaryOp.rejects (firstShape vs) = true) :
    (rule .query).Rejects (enclosed n ts ++ vs) := by
  obtain ⟨m, rfl⟩ := Nat.exists_eq_add_of_le' hn
  exact h.rejects_query_of_yields (h.yields_binaryOperand m) hvs

/-- An operand is read back in any number of parentheses. -/
theorem Operand.ReadsBack.yields_inner {o : Operand} (h : o.ReadsBack ts) (n : Nat)
    (hvs : Rule.binaryOp.rejects (firstShape vs) = true) :
    innerOperand.Yields (enclosed n ts) vs (·.unplaced = o.unplaced) := by
  induction n generalizing vs with
  | zero =>
    cases o with
    | relation name =>
      -- A query is tried first, in vain.
      have hquery : (Operand.nested <$> rule .query).Rejects (enclosed 0 ts ++ vs) :=
        (h.rejects_query (Nat.le_refl 0) hvs).map
      obtain ⟨t, ht, rfl⟩ := h
      refine .right hquery ((ht.yields_relation.map Operand.relation).left.mono ?_)
      rintro _ ⟨a, ha, rfl⟩
      rw [Operand.unplaced, Operand.unplaced, ha]
    | nested q =>
      refine ((h vs).map Operand.nested).left.mono ?_
      rintro _ ⟨a, ha, rfl⟩
      rw [Operand.unplaced, Operand.unplaced, ha]
  | succ n ih =>
    -- Neither a query nor a name: only the last alternative opens a parenthesis.
    have hparens : o.parens ≤ n + 1 := by cases o <;> simp [Operand.parens]
    have hquery : (Operand.nested <$> rule .query).Rejects (enclosed (n + 1) ts ++ vs) :=
      (h.rejects_query hparens hvs).map
    have hname : (Operand.relation <$> rule .relation).Rejects (enclosed (n + 1) ts ++ vs) :=
      rejects_of_first rfl
    exact .right hquery (.right hname (Yields.rule (ih rfl).parens))

/-- The operand of an operator with one operand is read back, in one pair of parentheses or more. -/
theorem Operand.ReadsBack.yields_unaryOperand {o : Operand} (h : o.ReadsBack ts) (n : Nat) :
    (rule .unaryOperand).Yields (enclosed (n + 1) ts) vs (·.unplaced = o.unplaced) :=
  Yields.rule (h.yields_inner n rfl).parens

/-! ## Queries -/

/-- Without places, a query with one operand is its operator and its operand. -/
theorem Query.unplaced_unary {op op' : UnaryOp} {mark mark' : Lexeme} {o o' : Operand}
    (hop : op.unplaced = op'.unplaced) (ho : o.unplaced = o'.unplaced) :
    (Query.unary op mark o).unplaced = (Query.unary op' mark' o').unplaced := by
  rw [Query.unplaced, Query.unplaced, hop, ho]

/-- An operator with arguments in parentheses and an operand. -/
theorem yields_application {α : Type} {p : Phrase α} {R : α → Prop} {verb : Verb} {t : Token}
    (make : α → UnaryOp) {op : UnaryOp} {mark : Lexeme} {o : Operand} (n : Nat)
    (ht : t.shape ∈ verb.shapes) (hargs : ∀ vs, p.Yields ts (.rparen :: vs) R)
    (hmake : ∀ a, R a → (make a).unplaced = op.unplaced) (h : o.ReadsBack us) :
    ((fun mark args operand => Query.unary (make args) mark operand) <$> rule (.verb verb) <*>
      parens p <*> rule .unaryOperand).Yields (t :: enclosed 1 ts ++ enclosed (n + 1) us) vs
      (·.unplaced = (Query.unary op mark o).unplaced) := by
  have hverb : (rule (.verb verb)).Yields [t] (enclosed 1 ts ++ (enclosed (n + 1) us ++ vs)) _ :=
    yields_single (verb.single_of_mem t.shape ht)
  refine (((hverb.map _).ap (hargs _).parens).ap (h.yields_unaryOperand n)).mono ?_
  rintro _ ⟨_, operand, ⟨_, args, ⟨mark, -, rfl⟩, hargs, rfl⟩, hoperand, rfl⟩
  exact Query.unplaced_unary (hmake args hargs) hoperand

/-- A query with one operand is read by the rule for its operator. -/
theorem UnaryOp.Renders.yields {op : UnaryOp} {mark : Lexeme} {o : Operand} (hop : op.Renders ts)
    (h : o.ReadsBack us) (n : Nat) :
    (rule .unary).Yields (ts ++ enclosed (n + 1) us) vs
      (·.unplaced = (Query.unary op mark o).unplaced) := by
  -- The rules of the operators that are tried before fail at the first word.
  have hfirst {shapes : List Shape} {r : Rule} {t : Token} {ts : List Token}
      (ht : t.shape ∈ shapes) (hr : ∀ shape ∈ shapes, r.rejects (some shape) = true) :
      (rule r).Rejects (t :: ts) := rejects_rule (hr t.shape ht)
  cases hop with
  | @project attributes verb ts hverb hargs =>
    exact .rule (.left (.rule (yields_application .project n hverb
      (fun vs => yields_attributes hargs) (fun a ha => congrArg UnaryOp.project ha) h)))
  | @rename pairs verb ts hverb hargs =>
    refine .rule (.right (hfirst hverb (by decide)) (.left ?_))
    exact .rule (yields_application .rename n hverb (fun vs => yields_pairs hargs)
      (fun a ha => congrArg UnaryOp.rename ha) h)
  | @select predicate verb ts hverb hargs =>
    refine .rule (.right (hfirst hverb (by decide)) (.right (hfirst hverb (by decide)) (.left ?_)))
    exact .rule (yields_application .select n hverb (fun vs => hargs.readsBack.yields rfl)
      (fun a ha => congrArg UnaryOp.select ha) h)
  | @closure verb hverb =>
    -- A closure has no arguments in parentheses, so that the operand follows its verb.
    have hword : (rule (.verb .closure)).Yields [verb] (enclosed (n + 1) us ++ vs) _ :=
      yields_single (Verb.single_of_mem .closure verb.shape hverb)
    have hclosure := (hword.map (Query.unary .closure)).ap (h.yields_unaryOperand n)
    refine .rule (.right (hfirst hverb (by decide)) (.right (hfirst hverb (by decide))
      (.right (hfirst hverb (by decide)) (.rule (.left (hclosure.mono ?_))))))
    rintro _ ⟨_, operand, ⟨mark, -, rfl⟩, hoperand, rfl⟩
    exact Query.unplaced_unary rfl hoperand

/-- A closure in brackets is read back. -/
theorem yields_brackets {mark : Lexeme} {o : Operand} (h : o.ReadsBack ts) (n : Nat) :
    (rule .unary).Yields (.closureOpen :: (enclosed n ts ++ [.closureClose])) vs
      (·.unplaced = (Query.unary .closure mark o).unplaced) := by
  have hopen : (rule .closureOpen).Yields [.closureOpen]
      (enclosed n ts ++ (.closureClose :: vs)) _ := yields_single (f := id) rfl
  have hclose : (symbol ">>").Yields [.closureClose] vs _ := yields_word rfl
  have hinner : innerOperand.Yields (enclosed n ts) (.closureClose :: vs) _ := h.yields_inner n rfl
  have hclosure := ((hopen.map (Query.unary .closure)).ap hinner).seqLeft hclose
  -- The opening bracket is no verb, so the other rules and the first form of closure fail.
  refine .rule (.right (rejects_rule rfl) (.right (rejects_rule rfl) (.right (rejects_rule rfl)
    (.rule (.right (rejects_of_first rfl) (hclosure.mono ?_))))))
  rintro _ ⟨_, operand, ⟨mark, -, rfl⟩, hoperand, rfl⟩
  exact Query.unplaced_unary rfl hoperand

/-- A query with two operands is read back. -/
theorem yields_binary {op : BinaryOp} {mark : Lexeme} {left right : Operand} {t : Token}
    (hleft : left.ReadsBack ts) (ht : t.shape ∈ op.shapes) (hright : right.ReadsBack us)
    (m n : Nat) :
    (rule .binary).Yields
      (enclosed (m + left.parens) ts ++ t :: enclosed (n + right.parens) us) vs
      (·.unplaced = (Query.binary op mark left right).unplaced) := by
  have hop : (rule .binaryOp).Yields [t] (enclosed (n + right.parens) us ++ vs) _ :=
    yields_single (op.single_of_mem t.shape ht)
  have hfirst : (rule .binaryOperand).Yields (enclosed (m + left.parens) ts)
      (t :: (enclosed (n + right.parens) us ++ vs)) _ := hleft.yields_binaryOperand m
  have hall := ((hfirst.map (fun left (x : BinaryOp × Lexeme) right =>
    Query.binary x.1 x.2 left right)).ap hop).ap (hright.yields_binaryOperand n)
  rw [List.append_assoc] at hall
  refine .rule (hall.mono ?_)
  rintro _ ⟨_, r, ⟨_, _, ⟨l, hl, rfl⟩, ⟨mark, -, rfl⟩, rfl⟩, hr, rfl⟩
  rw [Query.unplaced, Query.unplaced, hl, hr]

mutual

/-- A rendering of a query is read back as that query. -/
theorem Query.Renders.yields {q : Query} {ts : List Token} (h : q.Renders ts) (vs : List Token) :
    (rule .query).Yields ts vs (·.unplaced = q.unplaced) := by
  cases h with
  | unary n hop h =>
    -- A query with two operands is tried first, and fails at the verb.
    refine .rule (.right ?_ (hop.yields h.readsBack n))
    cases hop with
    | project hverb _ | rename hverb _ | select hverb _ | closure hverb =>
      exact rejects_rule (Verb.rejects_binary _ _ hverb)
  | brackets n h => exact .rule (.right (rejects_rule rfl) (yields_brackets h.readsBack n))
  | binary m n hleft ht hright =>
    exact .rule (.left (yields_binary hleft.readsBack ht hright.readsBack m n))

/-- A rendering of an operand is read back as that operand. -/
theorem Operand.Renders.readsBack {o : Operand} {ts : List Token} (h : o.Renders ts) :
    o.ReadsBack ts := by
  cases h with
  | relation ht => exact ⟨_, ht, rfl⟩
  | nested h => exact fun vs => h.yields vs

end

end RelAlgebra
