import RelAlgebra.Proofs.Rendering.Query

/-!
# Programs are read back

Every list of valid queries can be written down, and from whatever text writes it down it is read
back: `parseProgram_of_renders`. The texts have layout between any two words, but no comment right
after a hyphen. Such a comment is read from the hyphen on, so that the operator gets lost.
-/

namespace RelAlgebra

open Phrase

variable {ts us vs : List Token}

/-! ## Every valid tree can be written down -/

/-- A name that follows its lexical rule is a word. -/
theorem Token.exists_names {name : Lexeme} (h : Shape.identifier.Admits name.text.toList) :
    ∃ t : Token, t.Names name :=
  ⟨⟨.identifier, name.text.toList, h⟩, rfl, rfl⟩

/-- A spelling by a symbol is a word. -/
theorem Token.exists_symbol {shapes : List Shape}
    (h : ∃ text ∈ Shape.symbols, Shape.symbol text ∈ shapes) : ∃ t : Token, t.shape ∈ shapes := by
  obtain ⟨text, htext, hmem⟩ := h
  exact ⟨.ofSymbol text htext, hmem⟩

/-- Every operator of an expression has a word. -/
theorem Tier.exists_token {tier : Tier} (op : tier.Op) :
    ∃ t : Token, t.shape ∈ tier.shapes op :=
  Token.exists_symbol (by cases tier <;> cases op <;> decide)

/-- Every operator between two operands has a word. -/
theorem BinaryOp.exists_token (op : BinaryOp) : ∃ t : Token, t.shape ∈ op.shapes :=
  Token.exists_symbol (by cases op <;> decide)

/-- Every verb has a word. -/
theorem Verb.exists_token (verb : Verb) : ∃ t : Token, t.shape ∈ verb.shapes := by
  cases verb with
  | closure => exact ⟨⟨.word "closure", "closure".toList, by decide, by decide⟩, by decide⟩
  | _ => exact Token.exists_symbol (by decide)

/-- A valid expression can be written down. -/
theorem Scalar.Valid.exists_renders {level : Level} {s : Scalar level} (h : s.Valid) :
    ∃ ts, s.Renders ts := by
  induction s with
  | attr name =>
    obtain ⟨t, ht⟩ := Token.exists_names h
    exact ⟨[t], .attr ht⟩
  | literal kind word => exact ⟨[⟨.literal kind, word.text.toList, h⟩], .literal rfl rfl⟩
  | paren inner ih =>
    obtain ⟨ts, hts⟩ := ih h
    exact ⟨_, .paren hts⟩
  | plain operand ih =>
    obtain ⟨ts, hts⟩ := ih h
    exact ⟨ts, .plain hts⟩
  | instanceOf operand type ih =>
    obtain ⟨hoperand, w, hw, htype⟩ := h
    obtain ⟨ts, hts⟩ := ih hoperand
    exact ⟨_, .instanceOf (t := ⟨.word "instanceof", "instanceof".toList, by decide, by decide⟩)
      (u := ⟨.typeName, w, hw⟩) hts rfl rfl htype⟩
  | last operand ih =>
    obtain ⟨ts, hts⟩ := ih h
    exact ⟨ts, .last hts⟩
  | link operand op mark rest ih ihrest =>
    -- The operator is put between the words of the operand and those of the rest.
    obtain ⟨ts, hts⟩ := ih h.1
    obtain ⟨us, hus⟩ := ihrest h.2
    obtain ⟨t, ht⟩ := Tier.exists_token op
    exact ⟨_, .link hts ht hus⟩

/-- Items that can be written down one by one can be written down as a list. -/
theorem exists_separated {α : Type} (separator : Token) (item : α → List Token → Prop)
    {as : List α} (hne : as ≠ []) (h : ∀ a ∈ as, ∃ ts, item a ts) :
    ∃ ts, Separated separator item as ts := by
  induction as with
  | nil => exact absurd rfl hne
  | cons a as ih =>
    obtain ⟨ts, hts⟩ := h a (List.mem_cons_self ..)
    cases as with
    | nil => exact ⟨ts, .one hts⟩
    | cons b as =>
      obtain ⟨us, hus⟩ := ih (by simp) fun b hb => h b (List.mem_cons_of_mem _ hb)
      exact ⟨_, .more hts hus⟩

/-- A valid operator can be written down with its arguments. -/
theorem UnaryOp.Valid.exists_renders {op : UnaryOp} (h : op.Valid) : ∃ ts, op.Renders ts := by
  cases op with
  | project attributes =>
    -- The names are valid and there is at least one.
    obtain ⟨t, ht⟩ := Verb.exists_token .project
    obtain ⟨ts, hts⟩ := exists_separated .comma
      (fun name ts => ∃ t : Token, t.Names name ∧ ts = [t]) h.1 fun name hname => by
        obtain ⟨t, ht⟩ := Token.exists_names (h.2 name hname)
        exact ⟨[t], t, ht, rfl⟩
    exact ⟨_, .project ht hts⟩
  | rename pairs =>
    -- The pairs are valid too, and there is at least one.
    obtain ⟨t, ht⟩ := Verb.exists_token .rename
    obtain ⟨arrow, harrow⟩ : ∃ t : Token, t.shape ∈ [.symbol "->", .symbol "→"] :=
      Token.exists_symbol (by decide)
    obtain ⟨ts, hts⟩ := exists_separated .comma RendersPair h.1 fun pair hpair => by
        obtain ⟨t, ht⟩ := Token.exists_names (h.2 pair hpair).1
        obtain ⟨u, hu⟩ := Token.exists_names (h.2 pair hpair).2
        exact ⟨_, t, arrow, u, ht, harrow, hu, rfl⟩
    exact ⟨_, .rename ht hts⟩
  | select predicate =>
    obtain ⟨t, ht⟩ := Verb.exists_token .select
    obtain ⟨ts, hts⟩ := Scalar.Valid.exists_renders h
    exact ⟨_, .select ht hts⟩
  | closure =>
    obtain ⟨t, ht⟩ := Verb.exists_token .closure
    exact ⟨_, .closure ht⟩

mutual

/-- A valid query can be written down. -/
theorem Query.exists_renders (q : Query) (h : q.Valid) : ∃ ts, q.Renders ts := by
  cases q with
  | unary op mark operand =>
    rw [Query.Valid] at h
    obtain ⟨ts, hts⟩ := h.1.exists_renders
    obtain ⟨us, hus⟩ := operand.exists_renders h.2
    exact ⟨_, .unary 0 hts hus⟩
  | binary op mark left right =>
    rw [Query.Valid] at h
    obtain ⟨ts, hts⟩ := left.exists_renders h.1
    obtain ⟨us, hus⟩ := right.exists_renders h.2
    obtain ⟨t, ht⟩ := op.exists_token
    exact ⟨_, .binary 0 0 hts ht hus⟩

/-- A valid operand can be written down. -/
theorem Operand.exists_renders (o : Operand) (h : o.Valid) : ∃ ts, o.Renders ts := by
  cases o with
  | relation name =>
    rw [Operand.Valid] at h
    obtain ⟨t, ht⟩ := Token.exists_names h
    exact ⟨[t], .relation ht⟩
  | nested q =>
    rw [Operand.Valid] at h
    obtain ⟨ts, hts⟩ := q.exists_renders h
    exact ⟨ts, .nested hts⟩

end

/-- Words with layout after each of them make a text. -/
theorem spaced_of_gaps {next : Token → List Char → Prop} {l : List (Token × List Char)}
    (h : ∀ x ∈ l, Layout.Gap x.2 ∧ x.2 ≠ [] ∧ next x.1 x.2) :
    Spaced next (l.map (·.1)) (l.flatMap fun x => x.1.text ++ x.2) := by
  induction l with
  | nil => exact .nil
  | cons x l ih =>
    obtain ⟨hgap, hne, hnext⟩ := h x (List.mem_cons_self ..)
    rw [List.map_cons, List.flatMap_cons, List.append_assoc]
    exact .cons hgap (fun _ => hne) hnext (ih fun y hy => h y (List.mem_cons_of_mem _ hy))

/-- Words can be put into a text, with a space after each of them. -/
theorem exists_spaced (ts : List Token) : ∃ s, Spaced Token.Clear ts s := by
  have hts : (ts.map fun t => (t, [' '])).map (·.1) = ts := by
    rw [List.map_map]
    exact List.map_id ts
  -- A space is layout, and it is no hyphen.
  refine ⟨_, hts ▸ spaced_of_gaps ?_⟩
  intro x hx
  obtain ⟨t, -, rfl⟩ := List.mem_map.1 hx
  exact ⟨.space rfl .nil, by simp, fun _ => by simp⟩

/-- Valid queries can be written down as a program. -/
theorem exists_rendersProgram {qs : List Query} (h : ∀ q ∈ qs, q.Valid) :
    ∃ ts, RendersProgram qs ts := by
  cases qs with
  | nil => exact ⟨[], .empty⟩
  | cons q qs =>
    obtain ⟨ts, hts⟩ := exists_separated .semicolon
      (fun q ts => ∃ n us, Query.Renders q us ∧ ts = enclosed n us)
      (List.cons_ne_nil q qs) fun q hq => by
        obtain ⟨us, hus⟩ := q.exists_renders (h q hq)
        exact ⟨us, 0, us, hus, rfl⟩
    exact ⟨_, .queries hts (.inl rfl)⟩

/-! ## Programs -/

/-- A query in any number of parentheses is read back. -/
theorem Query.Renders.yields_statement {q : Query} (h : q.Renders ts) (n : Nat)
    (hvs : Rule.binaryOp.rejects (firstShape vs) = true) :
    (rule .statement).Yields (enclosed n ts) vs (·.unplaced = q.unplaced) := by
  have hoperand : (Operand.nested q).ReadsBack ts := fun vs => h.yields vs
  induction n generalizing vs with
  | zero => exact .rule (.left (h.yields vs))
  | succ n ih =>
    -- In parentheses the query is first tried as the left operand of a longer one.
    exact .rule (.right (hoperand.rejects_query (Nat.le_add_left 1 n) hvs) (ih rfl).parens)

/-- The words of a program, up to the end of the text. -/
theorem RendersProgram.yields {qs : List Query} (h : RendersProgram qs ts) :
    (opt (separated ";" (rule .statement) <* opt (symbol ";"))).Yields ts []
      fun o => (o.getD []).map Query.unplaced = qs.map Query.unplaced := by
  cases h with
  | empty =>
    have hnone : (separated ";" (rule .statement) <* opt (symbol ";")).Rejects [] :=
      rejects_of_first rfl
    exact hnone.opt.mono fun o ho => by rw [ho]; rfl
  | @queries qs ts closing h hclosing =>
    -- The statements, when what follows them is neither an operator nor one more statement.
    have hstatements {vs : List Token} (hvs : Rule.binaryOp.rejects (firstShape vs) = true)
        (hend : (symbol ";" *> rule .statement).Rejects vs) :
        (separated ";" (rule .statement)).Yields ts vs
          (·.map Query.unplaced = qs.map Query.unplaced) := by
      refine h.yields Query.unplaced (fun vs => Rule.binaryOp.rejects (firstShape vs) = true) rfl ?_
        (fun _ => rfl) hvs hend
      rintro q _ vs ⟨n, us, hq, rfl⟩ hvs
      exact hq.yields_statement n hvs
    have hsome {o : Option (List Query)} : (∃ l, l.map Query.unplaced = qs.map Query.unplaced ∧
        o = some l) → (o.getD []).map Query.unplaced = qs.map Query.unplaced := by
      rintro ⟨l, hl, rfl⟩
      exact hl
    have hfail : (rule .statement).Rejects [] := rejects_rule rfl
    rcases hclosing with rfl | rfl
    · -- The text ends with the last query.
      have hmark : (symbol ";").Rejects [] := rejects_word rfl
      exact ((hstatements rfl (rejects_of_first rfl)).seqLeft hmark.opt).opt.mono fun o => hsome
    · -- After the last semicolon no query follows, so it is left to the end of the list.
      have hmark : (symbol ";").Yields [.semicolon] [] _ := yields_word rfl
      have hend : (symbol ";" *> rule .statement).Rejects [.semicolon] :=
        (Rejects.seq_right hmark hfail).map
      exact ((hstatements rfl hend).seqLeft hmark.opt).opt.mono fun o => hsome

/-- What fills a text is read after the layout at its start. -/
theorem read_to_end {α : Type} {p : Phrase α} {R : α → Prop} (h : p.Yields ts [] R)
    {c : Cursor} (hc : c.skipLayout.At ts) :
    ∃ a d, ((empty *> p <* rule .endOfInput).read Rule.read c).outcome = .matched a d ∧ R a := by
  obtain ⟨a, d, hread, ha, hd⟩ := h c.skipLayout (by rwa [List.append_nil])
  -- After the last word there is only layout.
  exact ⟨a, d.skipLayout, outcome_to_end hread hd.rest_eq_nil, ha⟩

/-- The queries of a program are read back from the words that write them down, after layout. -/
theorem RendersProgram.parse_of_apart {qs : List Query} (h : RendersProgram qs ts)
    {gap s : List Char} (hgap : Layout.Gap gap) (hs : Apart ts s) :
    ∃ qs', parseProgram (String.ofList (gap ++ s)) = .ok qs' ∧
      qs'.map Query.unplaced = qs.map Query.unplaced := by
  -- The words of the program are what stands after the layout at the start of the text.
  have hstart : (Cursor.start (gap ++ s)).skipLayout.At ts := Cursor.at_skipLayout rfl hgap hs
  obtain ⟨o, d, hread, ho⟩ := read_to_end h.yields hstart
  have hprogram : (Rule.program.read (.start (gap ++ s))).outcome = .matched (o.getD []) d := by
    rw [Rule.read_eq, Reading.outcome_settle]
    change (Reading.map (fun o : Option (List Query) => o.getD []) _).outcome = _
    rw [Reading.outcome_map, hread]
    rfl
  refine ⟨o.getD [], ?_, ho⟩
  rw [parseProgram, Rule.parse, String.toList_ofList]
  simp only [hprogram]

/-- The queries of a program are read back from a text with layout between its words. -/
theorem RendersProgram.parse {qs : List Query} (h : RendersProgram qs ts) {gap s : List Char}
    (hgap : Layout.Gap gap) (hs : Spaced Token.Clear ts s) :
    ∃ qs', parseProgram (String.ofList (gap ++ s)) = .ok qs' ∧
      qs'.map Query.unplaced = qs.map Query.unplaced :=
  h.parse_of_apart hgap hs.apart

/-! ## A query with a hyphen

The words of one query, with the layout after its hyphen left open. -/

namespace Hyphen

/-- The query `select ( a - b ) ( R )`. -/
def query : Query :=
  .unary (.select (.last (.last (.plain
    (.link (.last (.attr ⟨"a", .start⟩)) .sub .blank (.last (.last (.attr ⟨"b", .start⟩))))))))
    .blank (.relation ⟨"R", .start⟩)

/-- The word `select`. -/
def select : Token := ⟨.word "select", "select".toList, by decide, by decide⟩

/-- The hyphen. -/
def minus : Token := .ofSymbol "-" (by decide)

/-- A name of one letter. -/
def name (c : Char) (hstart : Shape.isNameStart c = true)
    (hword : Shape.lower [c] ∉ Shape.keywords) : Token :=
  ⟨.identifier, [c], ⟨hstart, List.forall_mem_nil _⟩, hword⟩

/-- The name `a`. -/
def a : Token := name 'a' (by decide) (by decide)

/-- The name `b`. -/
def b : Token := name 'b' (by decide) (by decide)

/-- The name `R`. -/
def R : Token := name 'R' (by decide) (by decide)

/-- The words of the query, each with the layout after it: a space, but after the hyphen what is
given. -/
def words (gap : List Char) : List (Token × List Char) :=
  [(select, [' ']), (.lparen, [' ']), (a, [' ']), (minus, gap), (b, [' ']), (.rparen, [' ']),
   (.lparen, [' ']), (R, [' ']), (.rparen, [' '])]

/-- The query is valid. -/
theorem valid : ∀ q ∈ [query], q.Valid := by
  intro q hq
  obtain rfl := List.mem_singleton.1 hq
  exact ⟨⟨a.admitted, b.admitted⟩, R.admitted⟩

/-- The words write the query down, whatever layout follows the hyphen. -/
theorem renders (gap : List Char) : RendersProgram [query] ((words gap).map (·.1)) := by
  -- From the inside out: the difference, the selection and its operand.
  have hsum : (.link (.last (.attr ⟨"a", .start⟩)) .sub .blank
      (.last (.last (.attr ⟨"b", .start⟩))) : Scalar (.chain .additive)).Renders
      ([a] ++ minus :: [b]) :=
    .link (.last (.attr ⟨rfl, rfl⟩)) (by decide) (.last (.last (.attr ⟨rfl, rfl⟩)))
  have hop := UnaryOp.Renders.select (by decide : select.shape ∈ Verb.select.shapes)
    (.last (.last (.plain hsum)))
  have hrelation : (Operand.relation ⟨"R", .start⟩).Renders [R] := .relation ⟨rfl, rfl⟩
  exact .queries (.one ⟨0, _, .unary 0 hop hrelation, rfl⟩) (.inl rfl)

/-- The words and their layout make a text, if the layout after the hyphen may follow it. -/
theorem spaced {next : Token → List Char → Prop} {gap : List Char} (hgap : Layout.Gap gap)
    (hne : gap ≠ []) (hspace : ∀ t, next t [' ']) (hnext : next minus gap) :
    Spaced next ((words gap).map (·.1)) ((words gap).flatMap fun x => x.1.text ++ x.2) := by
  have hwords (t : Token) : Layout.Gap [' '] ∧ [' '] ≠ [] ∧ next t [' '] :=
    ⟨.space rfl .nil, by simp, hspace t⟩
  refine spaced_of_gaps ?_
  simp only [words, List.forall_mem_cons]
  exact ⟨hwords _, hwords _, hwords _, ⟨hgap, hne, hnext⟩, hwords _, hwords _, hwords _, hwords _,
    hwords _, by simp⟩

end Hyphen

/-! ## Parsing undoes rendering -/

/-- Parsing undoes rendering. Valid queries can be written down; and from every text that writes
them down, in whatever spellings, parentheses and layout, they are read back, up to places. The
layout after a hyphen must not start with a comment. -/
theorem parseProgram_of_renders {qs : List Query} (hqs : ∀ q ∈ qs, q.Valid) :
    (∃ ts s, RendersProgram qs ts ∧ Spaced Token.Clear ts s) ∧
    ∀ ts gap s, RendersProgram qs ts → Layout.Gap gap → Spaced Token.Clear ts s →
      ∃ qs', parseProgram (String.ofList (gap ++ s)) = .ok qs' ∧
        qs'.map Query.unplaced = qs.map Query.unplaced := by
  constructor
  · obtain ⟨ts, hts⟩ := exists_rendersProgram hqs
    obtain ⟨s, hs⟩ := exists_spaced ts
    exact ⟨ts, s, hts, hs⟩
  · intro ts gap s hts hgap hs
    exact hts.parse hgap hs

/-- After a hyphen and a space a comment is layout like any other. -/
theorem parseProgram_hyphen_space_comment :
    ∃ qs, parseProgram "select ( a - -- c\nb ) ( R ) " = .ok qs ∧
      qs.map Query.unplaced = [Hyphen.query].map Query.unplaced := by
  have hbody : '\n' ∉ " c".toList := by decide
  have hgap : Layout.Gap " -- c\n".toList := .space rfl (.comment hbody .nil)
  have hclear : Hyphen.minus.Clear " -- c\n".toList := fun _ => by decide
  have hs := Hyphen.spaced hgap (by decide) (fun _ _ => by simp) hclear
  exact (parseProgram_of_renders Hyphen.valid).2 _ [] _ (Hyphen.renders _) .nil hs

/-- Right after a hyphen it is not: the comment starts at the hyphen, and the operator is lost. -/
theorem parseProgram_hyphen_comment :
    ∃ ts s, (∀ q ∈ [Hyphen.query], q.Valid) ∧ RendersProgram [Hyphen.query] ts ∧
      Spaced (fun _ _ => True) ts s ∧ String.ofList s = "select ( a --- c\nb ) ( R ) " ∧
      ∃ e, parseProgram (String.ofList s) = .error e := by
  have hbody : '\n' ∉ " c".toList := by decide
  have hgap : Layout.Gap "-- c\n".toList := .comment hbody .nil
  have hs : Spaced (fun _ _ => True) _ _ :=
    Hyphen.spaced hgap (by decide) (fun _ => trivial) trivial
  have hparse : ∃ e, parseProgram "select ( a --- c\nb ) ( R ) " = .error e := ⟨_, by rfl⟩
  exact ⟨_, _, Hyphen.valid, Hyphen.renders _, hs, rfl, hparse⟩

end RelAlgebra
