import RelAlgebra.Grammar.Parse
import RelAlgebra.Proofs.Analysis.SlotNames
import RelAlgebra.Proofs.Grammar.Derivation

/-!
# The names in a text

The relations that the queries of a program text refer to, and the relations and attributes that a
text of declarations names, are spelled with characters of names only.
-/

namespace RelAlgebra

open Phrase

/-- What stands in the parentheses of an operand of an operator with one operand. -/
def innerOperand : Phrase Operand :=
  Operand.nested <$> rule .query <|> Operand.relation <$> rule .relation <|> rule .unaryOperand

mutual

/-- The relations that a query refers to by name. -/
def Query.relations : Query → List Lexeme
  | .unary _ _ operand => operand.relations
  | .binary _ _ left right => left.relations ++ right.relations

/-- The relations that an operand refers to by name. -/
def Operand.relations : Operand → List Lexeme
  | .relation name => [name]
  | .nested query => query.relations

end

/-- All relations that a query refers to can be spelled. -/
def Query.Spelled (q : Query) : Prop := ∀ r ∈ q.relations, Spellable r.text

/-- All relations that an operand refers to can be spelled. -/
def Operand.Spelled (o : Operand) : Prop := ∀ r ∈ o.relations, Spellable r.text

namespace Shape

/-- A character that may start a name may stand in one. -/
theorem isNameChar_of_isNameStart {c : Char} (h : isNameStart c = true) : isNameChar c = true := by
  simp only [isNameStart, isNameChar, Char.isAlphanum, Bool.or_eq_true] at *
  rcases h with h | h
  · exact .inl (.inl h)
  · exact .inr h

/-- A word that is measured as a name consists of characters of names. -/
theorem spellable_of_nameLength? {s : List Char} {n : Nat}
    (h : nameLength? isNameStart s = some n) :
    Spellable (String.ofList (s.take n)) := by
  cases s with
  | nil => simp [nameLength?] at h
  | cons c s =>
    simp only [nameLength?] at h
    split at h
    · next hc =>
      rw [Option.some.injEq] at h
      subst h
      intro d hd
      rw [String.toList_ofList, List.take_succ_cons, List.mem_cons] at hd
      rcases hd with rfl | hd
      · exact isNameChar_of_isNameStart hc
      · -- The characters after the first are those of the longest run of name characters.
        rw [take_run] at hd
        exact (List.all_eq_true.1 List.all_takeWhile) d hd
    · simp at h

end Shape

namespace Rule

/-- The names in the value of a rule can be spelled. -/
def Spelled : (r : Rule) → r.Value → Prop
  | .name, l | .identifier, l | .relation, l => Spellable l.text
  | .program, qs => ∀ q ∈ qs, q.Spelled
  | .statement, q | .query, q | .binary, q | .unary, q | .project, q | .rename, q | .select, q
  | .closure, q => q.Spelled
  | .binaryOperand, o | .unaryOperand, o => o.Spelled
  | .declarations, ds => ∀ d ∈ ds, Spellable d.relation ∧ Spellable d.attr
  | .declaration, d => Spellable d.relation ∧ Spellable d.attr
  | _, _ => True

/-- A query with one operand refers to the relations of the operand. -/
theorem spelled_unary {op : UnaryOp} {mark : Lexeme} {o : Operand} (h : o.Spelled) :
    (Query.unary op mark o).Spelled := by
  unfold Query.Spelled
  rw [Query.relations]
  exact h

/-- A relation that can be spelled is an operand that can. -/
theorem spelled_relation {name : Lexeme} (h : Spellable name.text) :
    (Operand.relation name).Spelled := by
  unfold Operand.Spelled
  rw [Operand.relations]
  simpa using h

/-- A query as an operand refers to the relations of the query. -/
theorem spelled_nested {q : Query} (h : q.Spelled) : (Operand.nested q).Spelled := by
  unfold Operand.Spelled
  rw [Operand.relations]
  exact h

/-- What stands in the parentheses of an operand is spelled as the rules in it are. -/
theorem spelled_inner {c d : Cursor} {o : Operand}
    (h : innerOperand.Derives (fun r _ value _ => r.Spelled value) c o d) : o.Spelled := by
  rcases derives_orElse.1 h with h | h
  · obtain ⟨q, hq, rfl⟩ := derives_map.1 h
    exact spelled_nested hq
  · rcases derives_orElse.1 h with h | h
    · obtain ⟨name, hn, rfl⟩ := derives_map.1 h
      exact spelled_relation hn
    · exact h

/-- The names in a match can be spelled if those in the matches inside of it can. -/
theorem spelled_of_derives {r : Rule} {c d : Cursor} {value : r.Value}
    (h : r.body.Derives (fun r _ value _ => r.Spelled value) c value d) : r.Spelled value := by
  cases r with
  | name =>
    obtain ⟨n, hn, rfl, -⟩ := h
    exact Shape.spellable_of_nameLength? hn
  | identifier =>
    obtain ⟨n, hn, rfl, -⟩ := h
    -- A keyword does not match, and any other word is measured as a name.
    simp only [Shape.length?] at hn
    split at hn
    · simp at hn
    · exact Shape.spellable_of_nameLength? hn
  | relation => exact h
  | program =>
    intro q hq
    obtain ⟨_, _, hq⟩ := Derives.list_of_mem h hq
    exact hq
  | statement =>
    rcases derives_orElse.1 h with h | h
    · exact h
    · obtain ⟨_, _, h⟩ := h.parens
      exact h
  | query =>
    rcases derives_orElse.1 h with h | h
    · exact h
    · exact h
  | binary =>
    obtain ⟨_, right, _, hop, hr, rfl⟩ := derives_seq.1 h
    obtain ⟨_, ⟨op, mark⟩, _, hleft, -, rfl⟩ := derives_seq.1 hop
    obtain ⟨left, hl, rfl⟩ := derives_map.1 hleft
    -- The names of the query are those of its two operands.
    intro r hmem
    rw [Query.relations] at hmem
    rcases List.mem_append.1 hmem with hmem | hmem
    · exact hl r hmem
    · exact hr r hmem
  | binaryOperand =>
    rcases derives_orElse.1 h with h | h
    · obtain ⟨name, hn, rfl⟩ := derives_map.1 h
      exact spelled_relation hn
    · obtain ⟨_, _, h⟩ := h.parens
      rcases derives_orElse.1 h with h | h
      · obtain ⟨q, hq, rfl⟩ := derives_map.1 h
        exact spelled_nested hq
      · exact h
  | unary =>
    rcases derives_orElse.1 h with h | h
    · exact h
    · rcases derives_orElse.1 h with h | h
      · exact h
      · rcases derives_orElse.1 h with h | h
        · exact h
        · exact h
  | unaryOperand =>
    obtain ⟨_, _, h⟩ := h.parens
    exact spelled_inner h
  | project | rename | select =>
    -- Of the arguments of an operator only the operand refers to relations.
    obtain ⟨_, operand, _, hargs, ho, rfl⟩ := derives_seq.1 h
    obtain ⟨_, _, _, hverb, -, rfl⟩ := derives_seq.1 hargs
    obtain ⟨_, -, rfl⟩ := derives_map.1 hverb
    exact spelled_unary ho
  | closure =>
    rcases derives_orElse.1 h with h | h
    · obtain ⟨_, operand, _, hverb, ho, rfl⟩ := derives_seq.1 h
      obtain ⟨_, -, rfl⟩ := derives_map.1 hverb
      exact spelled_unary ho
    · obtain ⟨_, _, hseq, -⟩ := derives_seqLeft.1 h
      obtain ⟨_, operand, _, hopen, ho, rfl⟩ := derives_seq.1 hseq
      obtain ⟨_, -, rfl⟩ := derives_map.1 hopen
      exact spelled_unary (spelled_inner ho)
  | declarations =>
    intro q hq
    obtain ⟨_, _, hq⟩ := Derives.list_of_mem h hq
    exact hq
  | declaration =>
    -- A relation, a point, an attribute, a colon and a type.
    obtain ⟨_, type, _, hcolon, -, rfl⟩ := derives_seq.1 h
    obtain ⟨_, _, hseq, -⟩ := derives_seqLeft.1 hcolon
    obtain ⟨_, attr, _, hdot, ha, rfl⟩ := derives_seq.1 hseq
    obtain ⟨_, _, hfirst, -⟩ := derives_seqLeft.1 hdot
    obtain ⟨relation, hr, rfl⟩ := derives_map.1 hfirst
    exact ⟨hr, ha⟩
  -- The values of the other rules hold no names of relations.
  | _ => exact trivial

/-- The names in every value that is read from a text can be spelled. -/
theorem spelled_of_parse {r : Rule} {text : String} {value : r.Value}
    (h : r.parse text = .ok value) : r.Spelled value := by
  simp only [parse] at h
  split at h
  · next v d hr =>
    rw [Except.ok.injEq] at h
    subst h
    exact read_induction (P := fun r _ value _ => r.Spelled value)
      (fun _ _ _ _ => spelled_of_derives) hr
  · simp at h

end Rule

/-- The relations that the queries of a program text refer to can be spelled. -/
theorem parseProgram_spelled {text : String} {qs : List Query} (h : parseProgram text = .ok qs) :
    ∀ q ∈ qs, ∀ r ∈ q.relations, Spellable r.text :=
  Rule.spelled_of_parse (r := .program) h

/-- The relations and attributes of a text of declarations can be spelled. -/
theorem parseDeclarations_spelled {text : String} {ds : List Declaration}
    (h : parseDeclarations text = .ok ds) :
    ∀ d ∈ ds, Spellable d.relation ∧ Spellable d.attr :=
  Rule.spelled_of_parse (r := .declarations) h

end RelAlgebra
