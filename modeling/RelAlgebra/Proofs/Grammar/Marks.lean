import Mathlib.Data.List.Forall2
import RelAlgebra.Proofs.Grammar.Words
import RelAlgebra.Proofs.Rendering.Basic

/-!
# The words that a query keeps

A query keeps some of the words that it was read from: names, literals, and the words that spell its
operators. `Query.marks` lists them in the order of the text, each with what it stands for.
`parseProgram_words` ties this list to the text: the text is a sequence of words, and the marks of
its queries are some of these words, in their order, each of a shape that fits what it stands for.
-/

namespace RelAlgebra

/-- What a word that is kept in a query stands for. -/
inductive Role where
  /-- A relation or an attribute. -/
  | name
  | literal (kind : LiteralKind)
  /-- The operator of a query with one operand. -/
  | verb (verb : Verb)
  /-- The operator of a query with two operands. -/
  | binary (op : BinaryOp)
  /-- An operator of a predicate. -/
  | operator (tier : Tier) (op : tier.Op)

/-- The shapes of the words that may stand for it. -/
def Role.shapes : Role → List Shape
  | name => [.identifier]
  | literal kind => [.literal kind]
  | verb .closure => [.word "closure", .symbol "<<"]
  | verb v => v.shapes
  | binary op => op.shapes
  | operator tier op => tier.shapes op

/-- A word that is kept in a query, with what it stands for. -/
structure Mark where
  role : Role
  lexeme : Lexeme

/-- The words that a scalar expression keeps, in the order of the text. -/
def Scalar.marks : {level : Level} → Scalar level → List Mark
  | _, .attr name => [⟨.name, name⟩]
  | _, .literal kind word => [⟨.literal kind, word⟩]
  | _, .paren inner => inner.marks
  | _, .plain operand => operand.marks
  | _, .instanceOf operand _ => operand.marks
  | _, .last operand => operand.marks
  | _, @Scalar.link tier operand op mark rest =>
    operand.marks ++ ⟨.operator tier op, mark⟩ :: rest.marks

namespace UnaryOp

/-- The keyword that opens a query with the operator. -/
def verb : UnaryOp → Verb
  | project _ => .project
  | rename _ => .rename
  | select _ => .select
  | closure => .closure

/-- The words that the arguments of an operator keep, in the order of the text. -/
def marks : UnaryOp → List Mark
  | project attributes => attributes.map (⟨.name, ·⟩)
  | rename pairs => pairs.flatMap fun (old, new) => [⟨.name, old⟩, ⟨.name, new⟩]
  | select predicate => predicate.marks
  | closure => []

end UnaryOp

mutual

/-- The words that a query keeps, in the order of the text. -/
def Query.marks : Query → List Mark
  | .unary op mark operand => ⟨.verb op.verb, mark⟩ :: (op.marks ++ operand.marks)
  | .binary op mark left right => left.marks ++ ⟨.binary op, mark⟩ :: right.marks

/-- The words that an operand keeps, in the order of the text. -/
def Operand.marks : Operand → List Mark
  | .relation name => [⟨.name, name⟩]
  | .nested query => query.marks

end

/-- The words that the value of a rule for queries keeps, in the order of the text. -/
def Rule.marks : (r : Rule) → r.Value → List Mark
  | .identifier, l | .relation, l | .attr, l => [⟨.name, l⟩]
  | .program, qs => qs.flatMap Query.marks
  | .statement, q | .query, q | .binary, q | .unary, q | .project, q | .rename, q | .select, q
  | .closure, q => q.marks
  | .binaryOperand, o | .unaryOperand, o => o.marks
  | .binaryOp, (op, l) => [⟨.binary op, l⟩]
  | .binaryWord op, l => [⟨.binary op, l⟩]
  | .renamePair, (old, new) => [⟨.name, old⟩, ⟨.name, new⟩]
  | .verb v, l => [⟨.verb v, l⟩]
  | .closureOpen, l => [⟨.verb .closure, l⟩]
  | .predicate, e => e.marks
  | .comparison, e => e.marks
  | .typeTest, e => e.marks
  | .additive, e => e.marks
  | .multiplicative, e => e.marks
  | .factor, e => e.marks
  | .logicalOp, (op, l) => [⟨.operator .logical op, l⟩]
  | .logicalWord op, l => [⟨.operator .logical op, l⟩]
  | .compareOp, (op, l) => [⟨.operator .comparison op, l⟩]
  | .additiveOp, (op, l) => [⟨.operator .additive op, l⟩]
  | .multiplicativeOp, (op, l) => [⟨.operator .multiplicative op, l⟩]
  | .literal, (kind, l) => [⟨.literal kind, l⟩]
  | .literalWord kind, l => [⟨.literal kind, l⟩]
  | _, _ => []

/-! ## Marks among words -/

/-- The word is the one that is kept, and its shape fits what it stands for. -/
def Mark.IsWord (m : Mark) (w : Word) : Prop := w.shape ∈ m.role.shapes ∧ w.lexeme = m.lexeme

/-- The marks are among the words, in the same order. -/
abbrev Among : List Mark → List Word → Prop := List.SublistForall₂ Mark.IsWord

namespace Among

variable {ms ns : List Mark} {us vs : List Word}

/-- Marks among words one after the other are among the words of both. -/
theorem append (h : Among ms us) (h' : Among ns vs) : Among (ms ++ ns) (us ++ vs) := by
  obtain ⟨us', hus, hsub⟩ := List.sublistForall₂_iff.1 h
  obtain ⟨vs', hvs, hsub'⟩ := List.sublistForall₂_iff.1 h'
  exact List.sublistForall₂_iff.2 ⟨us' ++ vs', List.rel_append hus hvs, hsub.append hsub'⟩

/-- There may be more words after them. -/
theorem left (h : Among ms us) (vs : List Word) : Among ms (us ++ vs) := by
  simpa using h.append (.nil (l := vs))

/-- There may be more words before them. -/
theorem right (h : Among ms us) (vs : List Word) : Among ms (vs ++ us) := by
  have hnil : Among [] vs := .nil
  exact hnil.append h

end Among

namespace Phrase

variable {α β γ δ : Type} {Q : Rule.WordMotive}

/-- The phrase reads the words that its value keeps. -/
def Carries (Q : Rule.WordMotive) (p : Phrase α) (marks : α → List Mark) : Prop :=
  ∀ c a ws d, p.Traces Q c a ws d → Among (marks a) ws

/-- A value that keeps no words. -/
theorem carries_nil (p : Phrase α) : p.Carries Q fun _ => [] := fun _ _ _ _ _ => .nil

/-- A word is kept by the value that it is. -/
theorem carries_word {shape : Shape} {role : Role} (h : shape ∈ role.shapes) :
    (word shape).Carries Q fun l => [⟨role, l⟩] := by
  rintro c _ _ _ ⟨n, -, rfl, rfl, -⟩
  exact .cons ⟨h, rfl⟩ .nil

/-- A function of the value may leave the words to what it is made of. -/
theorem Carries.map {p : Phrase α} {g : α → β} {marks : β → List Mark}
    (h : p.Carries Q fun a => marks (g a)) : (g <$> p).Carries Q marks := by
  rintro c _ ws d ⟨a, ha, rfl⟩
  exact h c a ws d ha

/-- Either alternative reads the words that its value keeps. -/
theorem Carries.orElse {p q : Phrase α} {marks : α → List Mark} (hp : p.Carries Q marks)
    (hq : q.Carries Q marks) : (p <|> q).Carries Q marks := by
  rintro c a ws d (h | h)
  · exact hp c a ws d h
  · exact hq c a ws d h

/-- What is read afterwards adds words that the value does not keep. -/
theorem Carries.seqLeft {p : Phrase α} {q : Phrase β} {marks : α → List Mark}
    (h : p.Carries Q marks) : (p <* q).Carries Q marks := by
  rintro c _ _ d ⟨a, ⟨m, us, vs, hus, -, rfl⟩, rfl⟩
  exact (h c _ us m hus).left vs

/-- What is read before adds words that the value does not keep. -/
theorem Carries.seqRight {p : Phrase α} {q : Phrase β} {marks : β → List Mark}
    (h : q.Carries Q marks) : (p *> q).Carries Q marks := by
  rintro c _ _ d ⟨a, ⟨m, us, vs, -, hvs, rfl⟩, rfl⟩
  exact (h _ _ vs d hvs).right us

/-- Parentheses add words that the value does not keep. -/
theorem Carries.parens {p : Phrase α} {marks : α → List Mark} (h : p.Carries Q marks) :
    (parens p).Carries Q marks := h.seqRight.seqLeft

/-- Two phrases one after the other, whose values are put together. -/
theorem Carries.ap {p : Phrase α} {q : Phrase β} {g : α → β → γ} {first : α → List Mark}
    {second : β → List Mark} {marks : γ → List Mark} (hp : p.Carries Q first)
    (hq : q.Carries Q second) (h : ∀ a b, marks (g a b) = first a ++ second b) :
    (g <$> p <*> q).Carries Q marks := by
  rintro c _ _ d ⟨⟨_, b⟩, ⟨m, us, vs, ⟨a, ha, rfl⟩, hb, rfl⟩, rfl⟩
  rw [show marks _ = _ from h a b]
  exact (hp c a us m ha).append (hq _ b vs d hb)

/-- Three phrases one after the other, whose values are put together. -/
theorem Carries.ap₂ {p : Phrase α} {q : Phrase β} {r : Phrase γ} {g : α → β → γ → δ}
    {first : α → List Mark} {second : β → List Mark} {third : γ → List Mark}
    {marks : δ → List Mark} (hp : p.Carries Q first) (hq : q.Carries Q second)
    (hr : r.Carries Q third) (h : ∀ a b e, marks (g a b e) = first a ++ second b ++ third e) :
    (g <$> p <*> q <*> r).Carries Q marks := by
  rintro c _ _ d ⟨⟨_, e⟩, ⟨m, us, vs, hfirst, he, rfl⟩, rfl⟩
  obtain ⟨⟨_, b⟩, ⟨m', us', vs', ⟨a, ha, rfl⟩, hb, rfl⟩, rfl⟩ := hfirst
  rw [show marks _ = _ from h a b e]
  exact ((hp c a us' m' ha).append (hq _ b vs' m hb)).append (hr _ e vs d he)

/-- A repetition reads the words of all its values, one after the other. -/
theorem Carries.many {p : Phrase α} {marks : α → List Mark} (h : p.Carries Q marks) :
    (many p).Carries Q fun as => as.flatMap marks := by
  -- The first match and the further ones are traced apart.
  have hrest : ∀ c as ws d, TracesRest (p.Traces Q) c as ws d → Among (as.flatMap marks) ws := by
    intro c as ws d has
    induction as generalizing c ws with
    | nil => exact .nil
    | cons a as ih =>
      obtain ⟨m, us, vs, ha, has, rfl⟩ := has
      exact (h _ a us m ha).append (ih m vs has)
  intro c as ws d has
  cases as with
  | nil => exact .nil
  | cons a as =>
    obtain ⟨m, us, vs, ha, has, rfl⟩ := has
    exact (h c a us m ha).append (hrest m as vs d has)

/-- Separators between values add words that none of the values keeps. -/
theorem Carries.separated {separator : String} {p : Phrase α} {marks : α → List Mark}
    (h : p.Carries Q marks) : (separated separator p).Carries Q fun as => as.flatMap marks :=
  h.ap h.seqRight.many fun _ _ => List.flatMap_cons ..

/-- A list up to the end of the text reads the words of all its items. -/
theorem Carries.list {p : Phrase α} {marks : α → List Mark} (h : p.Carries Q marks) :
    (list p).Carries Q fun as => as.flatMap marks := by
  refine .map (.seqLeft (.seqRight ?_))
  intro c items ws d hitems
  cases items with
  | none => exact .nil
  | some as => exact Carries.seqLeft (.separated h) c as ws d hitems

/-- The first of some symbols that matches, if each of them fits its meaning. -/
theorem carries_signs {table : List (String × α)} {role : α → Role}
    (h : ∀ x ∈ table, Shape.symbol x.1 ∈ (role x.2).shapes) :
    (signs table).Carries Q fun x => [⟨role x.1, x.2⟩] := by
  induction table with
  | nil => exact fun _ _ _ _ hfalse => hfalse.elim
  | cons x table ih =>
    rw [List.forall_mem_cons] at h
    exact (carries_word h.1).map.orElse (ih h.2)

/-- A chain keeps its operands and the words of its operators, in the order of the text. -/
theorem marks_chain {tier : Tier} (first : Scalar tier.operand)
    (more : List ((tier.Op × Lexeme) × Scalar tier.operand)) :
    (Scalar.chain first more).marks =
      first.marks ++ more.flatMap fun x => ⟨.operator tier x.1.1, x.1.2⟩ :: x.2.marks := by
  induction more generalizing first with
  | nil => simp [Scalar.chain, Scalar.marks]
  | cons x more ih =>
    obtain ⟨⟨op, mark⟩, next⟩ := x
    rw [Scalar.chain, Scalar.marks, ih next, List.flatMap_cons, List.cons_append]

/-- A chain of operands reads the words of the operands and those of the operators. -/
theorem Carries.chain {tier : Tier} {operand : Phrase (Scalar tier.operand)}
    {operator : Phrase (tier.Op × Lexeme)} (hoperand : operand.Carries Q Scalar.marks)
    (hoperator : operator.Carries Q fun x => [⟨.operator tier x.1, x.2⟩]) :
    (chain operand operator).Carries Q Scalar.marks :=
  hoperand.ap (hoperator.ap hoperand fun _ _ => rfl).many marks_chain

end Phrase

namespace Rule

open Phrase

variable {Q : WordMotive}

/-- Every rule reads the words that its value keeps, if the rules inside of it do. -/
theorem carries_body (hQ : ∀ r, (rule r).Carries Q r.marks) (r : Rule) :
    r.body.Carries Q r.marks := by
  -- What stands inside the parentheses of an operand.
  have hinner : innerOperand.Carries Q Operand.marks := by
    unfold innerOperand
    exact .orElse (.map (hQ .query)) (.orElse (.map (hQ .relation)) (hQ .unaryOperand))
  -- Each rule is followed through the ways in which its phrase is built.
  cases r with
  | identifier => exact carries_word (by decide)
  | relation | attr => exact hQ .identifier
  | program => exact .list (hQ .statement)
  | statement => exact .orElse (hQ .query) (.parens (hQ .statement))
  | query => exact .orElse (hQ .binary) (hQ .unary)
  | binary =>
    refine .ap₂ (hQ .binaryOperand) (hQ .binaryOp) (hQ .binaryOperand) fun left op right => ?_
    simp [marks, Query.marks]
  | binaryOperand =>
    exact .orElse (.map (hQ .relation)) (.parens (.orElse (.map (hQ .query)) (hQ .binaryOperand)))
  | binaryOp =>
    exact .orElse (.map (hQ (.binaryWord .union))) (.orElse (.map (hQ (.binaryWord .intersection)))
      (.orElse (.map (hQ (.binaryWord .difference))) (.orElse (.map (hQ (.binaryWord .join)))
        (.orElse (.map (hQ (.binaryWord .cross))) (.map (hQ (.binaryWord .division)))))))
  | binaryWord op =>
    cases op with
    | union | intersection | cross | division =>
      exact .orElse (carries_word (by decide)) (carries_word (by decide))
    | difference | join =>
      exact .orElse (carries_word (by decide))
        (.orElse (carries_word (by decide)) (carries_word (by decide)))
  | unary => exact .orElse (hQ .project) (.orElse (hQ .rename) (.orElse (hQ .select) (hQ .closure)))
  | unaryOperand => exact .parens hinner
  | project =>
    refine .ap₂ (hQ (.verb .project)) (.parens (.separated (hQ .attr))) (hQ .unaryOperand)
      fun mark attributes operand => ?_
    rw [marks, Query.marks, UnaryOp.marks, List.map_eq_flatMap]
    rfl
  | rename =>
    refine .ap₂ (hQ (.verb .rename)) (.parens (.separated (hQ .renamePair))) (hQ .unaryOperand)
      fun mark pairs operand => ?_
    rw [marks, Query.marks]
    rfl
  | renamePair =>
    -- The arrow between the two names is not kept.
    rintro c _ _ d ⟨⟨_, new⟩, ⟨m, us, vs, hfirst, hnew, rfl⟩, rfl⟩
    obtain ⟨⟨_, _⟩, ⟨m', us', vs', ⟨old, hold, rfl⟩, -, rfl⟩, rfl⟩ := hfirst
    exact ((hQ .attr c old us' m' hold).left vs').append (hQ .attr _ new vs d hnew)
  | select =>
    refine .ap₂ (hQ (.verb .select)) (.parens (hQ .predicate)) (hQ .unaryOperand)
      fun mark predicate operand => ?_
    simp [marks, Query.marks, UnaryOp.marks, UnaryOp.verb]
  | closure =>
    refine .orElse (.ap (hQ (.verb .closure)) (hQ .unaryOperand) fun mark operand => ?_)
      (.seqLeft (.ap (hQ .closureOpen) hinner fun mark operand => ?_))
    · simp [marks, Query.marks, UnaryOp.marks, UnaryOp.verb]
    · simp [marks, Query.marks, UnaryOp.marks, UnaryOp.verb]
  | verb v =>
    cases v with
    | project | rename | select =>
      exact .orElse (carries_word (by decide)) (carries_word (by decide))
    | closure => exact carries_word (by decide)
  | closureOpen => exact carries_word (by decide)
  | predicate => exact .chain (hQ .comparison) (hQ .logicalOp)
  | logicalOp => exact .orElse (.map (hQ (.logicalWord .and))) (.map (hQ (.logicalWord .or)))
  | logicalWord op =>
    cases op with
    | and | or =>
      exact .orElse (carries_word (by decide))
        (.orElse (carries_word (by decide)) (carries_word (by decide)))
  | comparison => exact .chain (hQ .typeTest) (hQ .compareOp)
  | compareOp => exact carries_signs (by decide)
  | typeTest =>
    refine .ap (hQ .additive) (carries_nil _) fun operand type => ?_
    cases type <;> simp [marks, Scalar.testOf, Scalar.marks]
  | additive => exact .chain (hQ .multiplicative) (hQ .additiveOp)
  | additiveOp => exact carries_signs (by decide)
  | multiplicative => exact .chain (hQ .factor) (hQ .multiplicativeOp)
  | multiplicativeOp => exact .orElse (carries_signs (by decide)) (.map (carries_word (by decide)))
  | factor =>
    exact .orElse (.map (.parens (hQ .comparison))) (.orElse (.map (hQ .literal)) (.map (hQ .attr)))
  | literal =>
    exact .orElse (.map (hQ (.literalWord .string))) (.orElse (.map (hQ (.literalWord .binary)))
      (.orElse (.map (hQ (.literalWord .hex))) (.orElse (.map (hQ (.literalWord .octal)))
        (.orElse (.map (hQ (.literalWord .decimal))) (.orElse (.map (hQ (.literalWord .integer)))
          (.orElse (.map (hQ (.literalWord (.boolean true))))
            (.map (hQ (.literalWord (.boolean false))))))))))
  | literalWord kind => exact carries_word (by simp [Role.shapes])
  -- The values of the other rules keep no words.
  | endOfInput | name | typeName | instanceOf | declarations | declaration => exact carries_nil _

/-- What is known of a match and of the words that were read. -/
structure Match (r : Rule) (c : Cursor) (value : r.Value) (ws : List Word) (d : Cursor) : Prop where
  /-- The words fill the stretch that was read. A program may start with layout. -/
  words : r.inQueries = true → r = .program ∨ c.skipLayout = c → c.Words ws d
  among : Among (r.marks value) ws
  finished : r = .endOfInput ∨ r = .program → d.rest = []

/-- A list of statements up to the end of the text starts with layout and reaches the end. -/
theorem Match.words_of_program {c d : Cursor} {qs : List Query} {ws : List Word}
    (h : Rule.program.body.Traces Match c qs ws d) : c.Words ws d ∧ d.rest = [] := by
  obtain ⟨items, ⟨⟨_, _⟩, ⟨m, us, vs, hitems, hend, rfl⟩, rfl⟩, rfl⟩ := h
  obtain ⟨⟨_, _⟩, ⟨_, _, us, ⟨rfl, rfl⟩, hitems, rfl⟩, rfl⟩ := hitems
  have hmain := words_of_traces (fun r c value ws d hr hc (hm : r.Match c value ws d) =>
    hm.words hr (.inr hc)) _ rfl (Cursor.skipLayout_skipLayout _) hitems
  exact ⟨(Cursor.Words.layout hmain).append (.layout (hend.words rfl (.inr (by simp)))),
    hend.finished (.inl rfl)⟩

/-- What is known of a match follows from what is known of the matches inside of it. -/
theorem match_of_traces {r : Rule} {c d : Cursor} {value : r.Value} {ws : List Word}
    (h : r.body.Traces Match c value ws d) : r.Match c value ws d where
  words hr hc := by
    rcases hc with rfl | hc
    · -- A program starts with layout, which belongs to its words.
      exact (Match.words_of_program h).1
    · exact words_of_traces (fun r c value ws d hr hc hm => hm.words hr (.inr hc)) r.body
        (inQueries_body hr) hc h
  among := carries_body (fun r c value ws d hm => hm.among) r c value ws d h
  finished hr := by
    rcases hr with rfl | rfl
    · obtain ⟨hrest, -, rfl⟩ := h
      exact hrest
    · exact (Match.words_of_program h).2

/-- Whatever a rule reads, it reads some words. -/
theorem exists_match {r : Rule} {c d : Cursor} {value : r.Value}
    (h : (r.read c).outcome = .matched value d) : ∃ ws, r.Match c value ws d := by
  refine read_induction (P := fun r c value d => ∃ ws, r.Match c value ws d) ?_ h
  intro r c value d hd
  obtain ⟨ws, hws⟩ := exists_traces r.body hd
  exact ⟨ws, match_of_traces hws⟩

end Rule

/-- The text is a sequence of these words with layout around them. -/
def WordsOf (text : String) (ws : List Word) : Prop :=
  ∃ d, (Cursor.start text.toList).Words ws d ∧ d.rest = []

/-- A program text is a sequence of words, and the words that its queries keep are among them. -/
theorem parseProgram_words {text : String} {qs : List Query} (h : parseProgram text = .ok qs) :
    ∃ ws, WordsOf text ws ∧ Among (qs.flatMap Query.marks) ws := by
  unfold parseProgram Rule.parse at h
  simp only at h
  split at h
  · next value d hr =>
    rw [Except.ok.injEq] at h
    subst h
    obtain ⟨ws, hws⟩ := Rule.exists_match hr
    exact ⟨ws, ⟨d, hws.words rfl (.inl rfl), hws.finished (.inr rfl)⟩, hws.among⟩
  · simp at h

namespace WordsOf

variable {text : String} {ws : List Word}

/-- No two words of a text stand at the same place. -/
theorem nodup_locs (h : WordsOf text ws) : (ws.map (·.lexeme.loc)).Nodup := by
  obtain ⟨d, hd, -⟩ := h
  exact hd.nodup_locs

/-- Every word of a text follows the lexical rule of its shape and is the slice of the text at its
place. -/
theorem exists_offset (h : WordsOf text ws) {w : Word} (hw : w ∈ ws) :
    w.shape.Admits w.lexeme.text.toList ∧
      ∃ n, w.lexeme.loc = .ofOffset text.toList n ∧
        w.lexeme.text.toList <+: text.toList.drop n := by
  obtain ⟨d, hd, -⟩ := h
  exact Cursor.Words.exists_offset (k := 0) hd w hw

end WordsOf

end RelAlgebra
