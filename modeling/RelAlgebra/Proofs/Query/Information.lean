import Mathlib.Data.List.Basic
import Mathlib.Order.Defs.PartialOrder
import RelAlgebra.Proofs.Query.Reports

/-!
# What a predicate sees of a schema

Of a schema, the check of a predicate sees only the kinds of names (`Schema.kind?`), and only of the
names that stand outside of type tests (`Scalar.visible`).

Kinds are ordered by what they tell, with the unknown kind below the others. Verdicts are ordered
with them: a verdict is below another one if it tells less of the kind and more is wrong. The check
is monotone (`Scalar.Alike.check_le`): if a schema tells more of the visible names, the verdict does
not get lower. So more information never adds a diagnostic (`Scalar.check_informed`). The order
being antisymmetric, two schemas that tell the same of the visible names have the same verdict
(`Scalar.check_visible`).
-/

namespace RelAlgebra

/-- Kinds are ordered by what they tell. -/
instance : PartialOrder Kind where
  le k k' := k = k' ∨ k = .unknown
  le_refl _ := .inl rfl
  le_trans := by
    rintro k _ k'' (rfl | rfl) h
    · exact h
    · exact .inr rfl
  le_antisymm := by
    rintro k k' (rfl | rfl) h
    · rfl
    · exact h.elim Eq.symm Eq.symm

/-- Verdicts are ordered by what they tell of the kind and by how little is wrong. -/
instance : PartialOrder Verdict where
  le v w := v.kind ≤ w.kind ∧ w.operands.Sublist v.operands ∧ w.operators.Sublist v.operators
  le_refl v := ⟨le_refl v.kind, .refl _, .refl _⟩
  le_trans _ _ _ h h' := ⟨le_trans h.1 h'.1, h'.2.1.trans h.2.1, h'.2.2.trans h.2.2⟩
  le_antisymm v w h h' := by
    obtain ⟨k, os, ps⟩ := v
    obtain ⟨k', os', ps'⟩ := w
    obtain rfl : k = k' := le_antisymm h.1 h'.1
    obtain rfl : os = os' := List.Sublist.antisymm h'.2.1 h.2.1
    obtain rfl : ps = ps' := List.Sublist.antisymm h'.2.2 h.2.2
    rfl

/-- Under a higher verdict less is wrong. -/
theorem Verdict.sublist_of_le {v w : Verdict} (h : v ≤ w) :
    w.diagnostics.Sublist v.diagnostics :=
  h.2.1.append h.2.2

namespace Tier

variable {tier : Tier}

/-- The more is known of both sides of an operator, the less there is to complain of. -/
theorem complaints_sublist (op : tier.Op) (mark : Lexeme) {l l' r r' : Kind} (hl : l ≤ l')
    (hr : r ≤ r') : (tier.complaints op mark l' r').Sublist (tier.complaints op mark l r) := by
  -- No operator wants a kind that is unknown.
  have hfault : tier.atFault op true l' r' = true → tier.atFault op true l r = true := by
    rcases hl with rfl | rfl <;> rcases hr with rfl | rfl <;> cases tier <;> simp_all [atFault]
  rw [complaints_eq op mark true (r := r') (by simp), complaints_eq op mark true (r := r) (by simp)]
  split
  · next h => rw [if_pos (hfault h)]
  · exact List.nil_sublist _

/-- The more is known of the first operand of a chain, the more is known of the chain. -/
theorem resultKind_le {k k' : Kind} (h : k ≤ k') : tier.resultKind k ≤ tier.resultKind k' := by
  cases tier with
  | comparison => exact le_refl Kind.boolean
  | logical | additive | multiplicative => exact h

end Tier

/-- The kind of the attribute of the given name, if there is one. -/
def Schema.kind? (s : Schema) (name : String) : Option Kind := (s.find? name).map (·.type.kind)

namespace Scalar

/-- The attributes that stand outside of type tests, from left to right. -/
def visible : {level : Level} → Scalar level → List Lexeme
  | _, attr name => [name]
  | _, literal _ _ => []
  | _, paren inner => inner.visible
  | _, plain operand => operand.visible
  | _, instanceOf _ _ => []
  | _, last operand => operand.visible
  | _, link operand _ _ rest => operand.visible ++ rest.visible

/-- The expressions are the same, but any type test may be one of another operand. -/
inductive Alike : {level : Level} → Scalar level → Scalar level → Prop where
  | attr (name : Lexeme) : Alike (.attr name) (.attr name)
  | literal (kind : LiteralKind) (word : Lexeme) : Alike (.literal kind word) (.literal kind word)
  | paren {inner inner' : Scalar (.chain .comparison)} (h : Alike inner inner') :
    Alike (.paren inner) (.paren inner')
  | plain {operand operand' : Scalar (.chain .additive)} (h : Alike operand operand') :
    Alike (.plain operand) (.plain operand')
  | instanceOf (operand operand' : Scalar (.chain .additive)) (type : DataType) :
    Alike (.instanceOf operand type) (.instanceOf operand' type)
  | last {tier : Tier} {operand operand' : Scalar tier.operand} (h : Alike operand operand') :
    Alike (.last operand) (.last operand')
  | link {tier : Tier} {operand operand' : Scalar tier.operand} {rest rest' : Scalar (.chain tier)}
      (op : tier.Op) (mark : Lexeme) (h : Alike operand operand') (hrest : Alike rest rest') :
    Alike (.link operand op mark rest) (.link operand' op mark rest')

variable {level : Level}

/-- An expression differs from itself in nothing. -/
theorem Alike.refl (e : Scalar level) : e.Alike e := by
  induction e with
  | attr name => exact .attr name
  | literal kind word => exact .literal kind word
  | paren _ ih => exact .paren ih
  | plain _ ih => exact .plain ih
  | instanceOf operand type _ => exact .instanceOf operand operand type
  | last _ ih => exact .last ih
  | link _ op mark _ ih ihrest => exact .link op mark ih ihrest

/-- It does not matter which of two expressions is compared with the other. -/
theorem Alike.symm {e e' : Scalar level} (h : e.Alike e') : e'.Alike e := by
  induction h with
  | attr name => exact .attr name
  | literal kind word => exact .literal kind word
  | paren _ ih => exact .paren ih
  | plain _ ih => exact .plain ih
  | instanceOf operand operand' type => exact .instanceOf operand' operand type
  | last _ ih => exact .last ih
  | link op mark _ _ ih ihrest => exact .link op mark ih ihrest

/-- An attribute is seen through the kind of its name. -/
theorem check_attr (s : Schema) (name : Lexeme) : (attr name).check s =
    match s.kind? name.text with
    | some k => ⟨k, [], []⟩
    | none => ⟨.unknown, [.missingAttribute name], []⟩ := by
  rw [check, Schema.kind?]
  cases s.find? name.text <;> rfl

/-- The check is monotone in what the schema tells of the visible names. -/
theorem Alike.check_le {s t : Schema} {e e' : Scalar level} (h : e.Alike e')
    (hst : ∀ name ∈ e.visible, ∀ k ∈ s.kind? name.text, ∃ k' ∈ t.kind? name.text, k ≤ k') :
    e.check s ≤ e'.check t := by
  induction h with
  | attr name =>
    rw [check_attr, check_attr]
    cases hs : s.kind? name.text with
    | none =>
      -- Nothing can be told less of than of a name that is missing.
      cases t.kind? name.text with
      | none => exact le_refl _
      | some k => exact ⟨.inr rfl, List.nil_sublist _, .refl _⟩
    | some k =>
      obtain ⟨k', hk', hle⟩ := hst name (by simp [visible]) k hs
      rw [Option.mem_def.1 hk']
      exact ⟨hle, .refl _, .refl _⟩
  | literal | instanceOf => exact le_refl _
  | paren _ ih | plain _ ih | last _ ih =>
    have hle := ih hst
    exact ⟨hle.1, Verdict.sublist_of_le hle, .refl _⟩
  | link op mark _ _ ih ihrest =>
    have hle := ih fun name hname => hst name (List.mem_append_left _ hname)
    have hrest := ihrest fun name hname => hst name (List.mem_append_right _ hname)
    exact ⟨Tier.resultKind_le hle.1, (Verdict.sublist_of_le hle).append hrest.2.1,
      hrest.2.2.append (Tier.complaints_sublist op mark hle.1 hrest.1)⟩

/-- More information never adds a diagnostic. If every attribute of `s` is there in `t` as well, and
is of the same kind there unless its kind in `s` is unknown, then what is wrong with an expression
against `t` is wrong with it against `s`, in the same order, and the kind of the expression is the
same, unless it is unknown against `s`. -/
theorem check_informed {s t : Schema}
    (h : ∀ name a, s.find? name = some a → ∃ b, t.find? name = some b ∧
      (a.type.kind = b.type.kind ∨ a.type.kind = .unknown)) (e : Scalar level) :
    (e.check t).diagnostics.Sublist (e.check s).diagnostics ∧
      ((e.check s).kind = (e.check t).kind ∨ (e.check s).kind = .unknown) := by
  have hle : e.check s ≤ e.check t := by
    refine (Alike.refl e).check_le fun name _ k hk => ?_
    obtain ⟨a, ha, rfl⟩ := Option.map_eq_some_iff.1 hk
    obtain ⟨b, hb, hkind⟩ := h name.text a ha
    exact ⟨b.type.kind, Option.map_eq_some_iff.2 ⟨b, hb, rfl⟩, hkind⟩
  exact ⟨Verdict.sublist_of_le hle, hle.1⟩

/-- The predicate `price and ghost > name`. In the second schema the type of `price` is known, and
there is an attribute `ghost`, so that one diagnostic of three goes away. -/
theorem check_informed_price :
    let word (text : String) (column : Nat) : Lexeme := ⟨text, ⟨1, column⟩⟩
    let test (f : Scalar .factor) : Scalar .test := .plain (.last (.last f))
    let e : Predicate := .link (.last (test (.attr (word "price" 1)))) .and (word "and" 7)
      (.last (.link (test (.attr (word "ghost" 11))) .gt (word ">" 17)
        (.last (test (.attr (word "name" 19))))))
    let s : Schema := ⟨[⟨"price", .other "MONEY"⟩, ⟨"name", .text⟩]⟩
    let t : Schema := ⟨[⟨"ghost", .int⟩, ⟨"name", .varchar⟩, ⟨"price", .decimal⟩]⟩
    (∀ name a, s.find? name = some a → ∃ b, t.find? name = some b ∧
        (a.type.kind = b.type.kind ∨ a.type.kind = .unknown)) ∧
      (e.check s).diagnostics = [⟨.unknownAttribute "ghost", ⟨1, 11⟩⟩,
        ⟨.nonNumericComparison ">", ⟨1, 17⟩⟩, ⟨.nonBooleanOperand "and", ⟨1, 7⟩⟩] ∧
      (e.check t).diagnostics =
        [⟨.nonNumericComparison ">", ⟨1, 17⟩⟩, ⟨.nonBooleanOperand "and", ⟨1, 7⟩⟩] ∧
      (e.check t).diagnostics.Sublist (e.check s).diagnostics ∧
      ((e.check s).kind = (e.check t).kind ∨ (e.check s).kind = .unknown) := by
  intro word test e s t
  have h : ∀ name a, s.find? name = some a → ∃ b, t.find? name = some b ∧
      (a.type.kind = b.type.kind ∨ a.type.kind = .unknown) := by
    intro name a ha
    have hmem : a ∈ s.attributes := List.mem_of_find?_eq_some ha
    have hname := List.find?_some ha
    obtain rfl : a.name = name := of_decide_eq_true hname
    -- The attributes of `s` are looked at one by one.
    obtain rfl | rfl : a = ⟨"price", .other "MONEY"⟩ ∨ a = ⟨"name", .text⟩ := by simpa [s] using hmem
    · exact ⟨⟨"price", .decimal⟩, rfl, .inr rfl⟩
    · exact ⟨⟨"name", .varchar⟩, rfl, .inl rfl⟩
  exact ⟨h, rfl, rfl, check_informed h e⟩

/-- No complaint about an operator is that an attribute is missing. -/
theorem missingAttribute_notMem_complaints {tier : Tier} (op : tier.Op) (mark name : Lexeme)
    (l r : Kind) : Diagnostic.missingAttribute name ∉ tier.complaints op mark l r := by
  rw [Tier.complaints_eq op mark true (r := r) (by simp)]
  cases tier <;> simp [Tier.fault, Diagnostic.missingAttribute]

/-- An attribute is reported as missing exactly if it stands outside of type tests and the schema
does not have its name. -/
theorem missingAttribute_mem_check (s : Schema) (name : Lexeme) (e : Scalar level) :
    Diagnostic.missingAttribute name ∈ (e.check s).diagnostics ↔
      name ∈ e.visible ∧ s.kind? name.text = none := by
  induction e with
  | attr attr =>
    have hinj : Diagnostic.missingAttribute name = .missingAttribute attr ↔ name = attr := by
      obtain ⟨text, loc⟩ := name
      obtain ⟨text', loc'⟩ := attr
      simp [Diagnostic.missingAttribute]
    rw [check_attr, visible, List.mem_singleton]
    cases hs : s.kind? attr.text with
    | some k =>
      -- The attribute is there, and nothing is reported for it.
      refine iff_of_false List.not_mem_nil ?_
      rintro ⟨rfl, hnone⟩
      exact Option.some_ne_none k (hs.symm.trans hnone)
    | none =>
      -- Its own report is the only one.
      constructor
      · intro h
        obtain rfl := hinj.1 (List.mem_singleton.1 h)
        exact ⟨rfl, hs⟩
      · rintro ⟨rfl, -⟩
        exact List.mem_singleton_self _
  | literal | instanceOf => simp [check, visible, Verdict.diagnostics]
  | paren _ ih | plain _ ih | last _ ih => simpa [check, visible, Verdict.diagnostics] using ih
  | link operand op mark rest ih ihrest =>
    -- What is reported comes from the operands, for the operator reports something else.
    have hop := missingAttribute_notMem_complaints op mark name (operand.check s).kind
      (rest.check s).kind
    simp only [Verdict.diagnostics, List.mem_append] at ih ihrest
    simp only [check, visible, Verdict.diagnostics, List.mem_append, hop, or_false, or_and_right,
      ← ih, ← ihrest, or_assoc]

/-- A predicate sees the attributes outside of its type tests and nothing else. Two schemas that
agree for each of these on whether it is there and on its kind have the same verdict, and so have
two predicates that differ in the operands of type tests only. Each of these attributes is looked
at: if it is not there, this is reported. -/
theorem check_visible (e : Scalar level) :
    (∀ s t : Schema, (∀ name ∈ e.visible, s.kind? name.text = t.kind? name.text) →
      e.check s = e.check t) ∧
    (∀ (e' : Scalar level), e.Alike e' → ∀ s : Schema, e.check s = e'.check s) ∧
    ∀ (s : Schema) (name : Lexeme), Diagnostic.missingAttribute name ∈ (e.check s).diagnostics ↔
      name ∈ e.visible ∧ s.kind? name.text = none := by
  refine ⟨fun s t hst => ?_, fun e' he s => ?_, fun s name => missingAttribute_mem_check s name e⟩
  · have hle {s t : Schema} (hst : ∀ name ∈ e.visible, s.kind? name.text = t.kind? name.text) :
        e.check s ≤ e.check t :=
      (Alike.refl e).check_le fun name hname k hk => ⟨k, hst name hname ▸ hk, le_refl k⟩
    exact le_antisymm (hle hst) (hle fun name hname => (hst name hname).symm)
  · have hle {e e' : Scalar level} (he : e.Alike e') : e.check s ≤ e'.check s :=
      he.check_le fun name _ k hk => ⟨k, hk, le_refl k⟩
    exact le_antisymm (hle he) (hle he.symm)

/-- The predicate `a > b and (b + ghost) instanceof INT`, of which the first schema has no attribute
`ghost`, and the second one has the others in another order and of other types of the same kinds.
The operand of the type test is replaced by `2`. -/
theorem check_visible_type_test :
    let word (text : String) (column : Nat) : Lexeme := ⟨text, ⟨1, column⟩⟩
    let test (f : Scalar .factor) : Scalar .test := .plain (.last (.last f))
    let ghost : Lexeme := word "ghost" 16
    let sum : Scalar (.chain .additive) := .link (.last (.attr (word "b" 12))) .add (word "+" 14)
      (.last (.last (.attr ghost)))
    let e (operand : Scalar (.chain .additive)) : Predicate :=
      .link (.link (test (.attr (word "a" 1))) .gt (word ">" 3)
        (.last (test (.attr (word "b" 5))))) .and (word "and" 7)
        (.last (.last (.instanceOf operand .int)))
    let s : Schema := ⟨[⟨"a", .int⟩, ⟨"b", .text⟩]⟩
    let t : Schema := ⟨[⟨"b", .char⟩, ⟨"ghost", .int⟩, ⟨"a", .long⟩]⟩
    (e sum).check s = (e sum).check t ∧
      (e sum).check s = (e (.last (.last (.literal .integer (word "2" 12))))).check s ∧
      Diagnostic.missingAttribute ghost ∉ ((e sum).check s).diagnostics := by
  intro word test ghost sum e s t
  obtain ⟨hschema, htest, hmissing⟩ := check_visible (e sum)
  refine ⟨hschema s t (by decide), htest _ ?_ s, ?_⟩
  · exact .link _ _ (.refl _) (.last (.last (.instanceOf ..)))
  · rw [hmissing]
    decide

end Scalar

end RelAlgebra
