import RelAlgebra.Proofs.Analysis.Joining
import RelAlgebra.Proofs.Catalog.Grouping
import RelAlgebra.Proofs.Rendering.Program

/-!
# Columns that a query can reach

Any name may be declared, but a query cannot refer to a name that is a keyword in some case. So
there are two kinds of declared columns. `Declaration.projection` asks for a single column. If
neither the attribute nor its relation is a keyword, this query is analyzed without a complaint, and
its slot has the column with its type. Otherwise it is no query at all.

The words of this query stand apart without any layout (`apart_projection`), so that what the
grammar makes of it follows from its words. A name that is a keyword is a word of another shape than
that of names in queries. It neither starts the list of attributes (`rejects_attributes`) nor is an
operand (`rejects_operand`): the four keywords that start a query lack what has to follow them.
-/

namespace RelAlgebra

open Phrase

/-- The query for a declared column. -/
def Declaration.projection (d : Declaration) : String :=
  "project(" ++ d.attr ++ ")(" ++ d.relation ++ ")"

/-! ## The words of the query -/

namespace Token

/-- The word `project`. -/
def project : Token := ⟨.word "project", "project".toList, by decide, by decide⟩

/-- A name as a word of the query language: a keyword, or else an identifier. -/
def ofName (w : List Char) (hw : Shape.IsName Shape.isNameStart w) : Token :=
  if h : Shape.lower w ∈ Shape.keywords then ⟨.word (Shape.lower w), w, h, rfl⟩
  else ⟨.identifier, w, hw, h⟩

variable {w : List Char} (hw : Shape.IsName Shape.isNameStart w)

/-- The token of a name has the name as its text. -/
@[simp] theorem text_ofName : (ofName w hw).text = w := by
  unfold ofName
  split <;> rfl

/-- The token of a keyword has the shape of the keyword. -/
theorem shape_ofName_of_keyword (h : Shape.isKeyword w = true) :
    (ofName w hw).shape = .word (Shape.lower w) := by
  have hmem : Shape.lower w ∈ Shape.keywords := by simpa [Shape.isKeyword] using h
  rw [ofName, dif_pos hmem]

/-- The token of a name that is no keyword has the shape of names. -/
theorem shape_ofName (h : Shape.isKeyword w = false) : (ofName w hw).shape = .identifier := by
  have hmem : Shape.lower w ∉ Shape.keywords := by simpa [Shape.isKeyword] using h
  rw [ofName, dif_neg hmem]

end Token

/-- The words of the query for a column. -/
def projectionWords (attr relation : Token) : List Token :=
  [.project, .lparen, attr, .rparen, .lparen, relation, .rparen]

/-- A word that ends where the next one starts needs no layout after it. -/
theorem Apart.tight {t : Token} {ts : List Token} {w s : List Char} (ht : t.text = w)
    (hhyphen : w ≠ ['-']) (hends : t.shape.Ends s) (hs : Apart ts s) :
    Apart (t :: ts) (w ++ s) := by
  subst ht
  exact .cons .nil hends (fun h => absurd h hhyphen) hs

/-- The words of the query stand apart although there is no layout between them. -/
theorem apart_projection {d : Declaration}
    (hattr : Shape.IsName Shape.isNameStart d.attr.toList)
    (hrelation : Shape.IsName Shape.isNameStart d.relation.toList) :
    Apart (projectionWords (.ofName _ hattr) (.ofName _ hrelation)) d.projection.toList := by
  -- A parenthesis ends every word, and a name ends the parenthesis before it.
  have hparen {c : Char} {s : List Char} (shape : Shape) (hc : c ∈ Shape.stops) :
      shape.Ends (c :: s) := by
    refine Shape.Halts.ends ?_ shape
    rintro _ ⟨⟩
    exact hc
  have hopen {w s : List Char} (hw : Shape.IsName Shape.isNameStart w) :
      Token.lparen.shape.Ends (w ++ s) := by
    obtain ⟨c, u, rfl, hc⟩ := hw.start fun _ => Shape.isNameChar_of_isNameStart
    rintro _ ⟨⟩
    exact .inr hc
  have hhyphen {w : List Char} (hw : Shape.IsName Shape.isNameStart w) : w ≠ ['-'] := by
    rintro rfl
    exact absurd hw (by decide)
  have hend : Apart [.rparen] [')'] :=
    .tight rfl (by decide) (Shape.Halts.ends (by simp [Shape.Halts]) _) .nil
  have hoperand : Apart [.lparen, .ofName _ hrelation, .rparen]
      ('(' :: (d.relation.toList ++ [')'])) :=
    .tight rfl (by decide) (hopen hrelation) <|
    .tight (Token.text_ofName _) (hhyphen hrelation) (hparen _ (by decide)) hend
  have hall : Apart (projectionWords (.ofName _ hattr) (.ofName _ hrelation))
      ("project".toList ++ '(' :: (d.attr.toList ++ ')' :: '(' :: (d.relation.toList ++ [')']))) :=
    .tight rfl (by decide) (hparen _ (by decide)) <|
    .tight rfl (by decide) (hopen hattr) <|
    .tight (Token.text_ofName _) (hhyphen hattr) (hparen _ (by decide)) <|
    .tight rfl (by decide) (hparen _ (by decide)) hoperand
  have htext : d.projection.toList =
      "project".toList ++ '(' :: (d.attr.toList ++ ')' :: '(' :: (d.relation.toList ++ [')'])) := by
    rw [Declaration.projection, String.toList_append, String.toList_append, String.toList_append,
      String.toList_append, List.append_assoc, List.append_assoc, List.append_assoc]
    rfl
  rw [htext]
  exact hall

/-! ## Keywords where names are wanted -/

/-- Where the word for an operator is wanted, all other keywords are rejected. -/
theorem Verb.rejects_of_not_mem {verb : Verb} {letters : String}
    (h : Shape.word letters ∉ verb.shapes) :
    Rule.rejects (.verb verb) (some (.word letters)) = true := by
  have hword {spelling : String} (hs : Shape.word spelling ∈ verb.shapes) :
      (Shape.word spelling).clashes (.word letters) = true := by
    have hne : spelling ≠ letters := fun heq => h (heq ▸ hs)
    simpa [Shape.clashes] using hne
  cases verb with
  | project | rename | select => exact Bool.and_eq_true_iff.2 ⟨hword (List.mem_cons_self ..), rfl⟩
  | closure => exact hword (List.mem_cons_self ..)

section

variable {letters : String} {t : Token} {ts : List Token} (ht : t.shape = .word letters)
include ht

/-- A phrase that cannot start with the keyword fails on it. -/
theorem rejects_keyword {α : Type} {p : Phrase α}
    (h : p.rejects Rule.rejects (some (.word letters)) = true) : p.Rejects (t :: ts) := by
  rw [← ht] at h
  exact rejects_of_first h

/-- The list of attributes does not start with a keyword. -/
theorem rejects_attributes :
    (parens (separated "," (rule .attr))).Rejects (.lparen :: t :: ts) := by
  have hattr : (separated "," (rule .attr)).Rejects (t :: ts) := rejects_keyword ht rfl
  exact hattr.parens

/-- A keyword that starts a query with one operand wants a parenthesis after it. -/
theorem rejects_verb {α β : Type} (verb : Verb) (f : Lexeme → α → β) {q : Phrase α}
    (hq : q.Rejects (.rparen :: ts)) :
    (f <$> rule (.verb verb) <*> q).Rejects (t :: .rparen :: ts) := by
  by_cases hmem : Shape.word letters ∈ verb.shapes
  · have hverb : (rule (.verb verb)).Yields [t] (.rparen :: ts) _ :=
      yields_single (verb.single_of_mem t.shape (ht ▸ hmem))
    exact (Rejects.seq_right (hverb.map f) hq).map
  · have hverb : (rule (.verb verb)).Rejects (t :: .rparen :: ts) :=
      rejects_keyword ht (Verb.rejects_of_not_mem hmem)
    exact hverb.map.seq.map

/-- No keyword in parentheses is an operand. -/
theorem rejects_operand : (rule .unaryOperand).Rejects (.lparen :: t :: .rparen :: ts) := by
  have hparen {α : Type} {p : Phrase α} : (parens p).Rejects (.rparen :: ts) :=
    rejects_of_first rfl
  have hoperand : (rule .unaryOperand).Rejects (.rparen :: ts) := rejects_rule rfl
  -- Each operator with one operand wants its own keyword, or a parenthesis after it.
  have hunary : (rule .unary).Rejects (t :: .rparen :: ts) :=
    .rule <| .alt (.rule (rejects_verb ht .project _ hparen).seq.map) <|
      .alt (.rule (rejects_verb ht .rename _ hparen).seq.map) <|
      .alt (.rule (rejects_verb ht .select _ hparen).seq.map) <|
      .rule (.alt (rejects_verb ht .closure _ hoperand) (rejects_keyword ht rfl))
  have hbinary : (rule .binary).Rejects (t :: .rparen :: ts) := rejects_keyword ht rfl
  have hquery : (rule .query).Rejects (t :: .rparen :: ts) := .rule (hbinary.alt hunary)
  have hname : (Operand.relation <$> rule .relation <|> rule .unaryOperand).Rejects
      (t :: .rparen :: ts) := rejects_keyword ht rfl
  have hinner : innerOperand.Rejects (t :: .rparen :: ts) := hquery.map.alt hname
  exact .rule hinner.parens

end

section

variable {attr relation : Token}

/-- The query is rejected if what stands after its first word is. -/
theorem rejects_statement {ts : List Token} (h : (rule .project).Rejects (.project :: ts)) :
    (rule .statement).Rejects (.project :: ts) := by
  have hunary : (rule .unary).Rejects (.project :: ts) :=
    .rule <| .alt h <| .alt (rejects_rule rfl) <| .alt (rejects_rule rfl) (rejects_rule rfl)
  have hquery : (rule .query).Rejects (.project :: ts) := .rule ((rejects_rule rfl).alt hunary)
  exact .rule (hquery.alt (rejects_of_first rfl))

/-- The query is rejected if one of its names is a keyword. -/
theorem rejects_projection {letters : String}
    (h : attr.shape = .word letters ∨
      attr.shape = .identifier ∧ relation.shape = .word letters) :
    (rule .statement).Rejects (projectionWords attr relation) := by
  have hverb (vs : List Token) : (rule (.verb .project)).Yields [.project] vs _ :=
    yields_single (Verb.single_of_mem .project _ (List.mem_cons_self ..))
  refine rejects_statement (.rule ?_)
  rcases h with hattr | ⟨hattr, hrelation⟩
  · exact (Rejects.seq_right ((hverb _).map _) (rejects_attributes hattr)).map.seq.map
  · have hname : attr.Names ⟨String.ofList attr.text, .start⟩ := ⟨hattr, by simp⟩
    have hargs : (separated "," (rule .attr)).Yields [attr]
        [.rparen, .lparen, relation, .rparen] _ := yields_attributes (.one ⟨attr, hname, rfl⟩)
    exact (Rejects.seq_right (((hverb _).map _).ap hargs.parens) (rejects_operand hrelation)).map

end

/-- A text is no program if no statement starts with its words. -/
theorem exists_parseProgram_error {ts : List Token} {text : String}
    (h : (rule .statement).Rejects ts) (hts : ts ≠ []) (htext : Apart ts text.toList) :
    ∃ e, parseProgram text = .error e := by
  have hstart : (Cursor.start text.toList).At ts := htext
  cases hparse : parseProgram text with
  | error e => exact ⟨e, rfl⟩
  | ok qs =>
    -- A program is empty or starts with a statement, and this text does neither.
    rcases (parseProgram_eq_ok_iff.1 hparse).start with hnil | ⟨q, c, hq⟩
    · obtain ⟨t, ts, rfl⟩ := List.exists_cons_of_ne_nil hts
      rw [hstart.skipLayout] at hnil
      exact absurd hnil hstart.rest_ne_nil
    · have hfailed : (Rule.statement.read (Cursor.start text.toList)).outcome = .failed :=
        h _ hstart
      rw [Cursor.Item, hstart.skipLayout, hfailed] at hq
      cases hq

/-! ## The query and its analysis -/

/-- Up to places there is one query for a column. -/
theorem Query.eq_of_unplaced {q : Query} {attr relation : Lexeme}
    (h : q.unplaced = (Query.unary (.project [attr]) .blank (.relation relation)).unplaced) :
    ∃ a mark r, q = .unary (.project [a]) mark (.relation r) ∧ a.text = attr.text ∧
      r.text = relation.text := by
  have htext {l m : Lexeme} (h : l.unplaced = m.unplaced) : l.text = m.text := by
    have hboth : l.unplaced.text = m.unplaced.text := by rw [h]
    exact hboth
  -- Without its places the query has one shape, in which only the two names are left open.
  cases q with
  | binary => simp [Query.unplaced] at h
  | unary op mark operand =>
    obtain ⟨hop, hoperand⟩ : op.unplaced = UnaryOp.project [attr.unplaced] ∧
        operand.unplaced = .relation relation.unplaced := by
      simpa [Query.unplaced, UnaryOp.unplaced, Operand.unplaced] using h
    cases operand with
    | nested => simp [Operand.unplaced] at hoperand
    | relation r =>
      cases op with
      | rename | select | closure => simp [UnaryOp.unplaced] at hop
      | project attributes =>
        obtain ⟨a, rfl, ha⟩ : ∃ a, attributes = [a] ∧ a.unplaced = attr.unplaced := by
          simpa [UnaryOp.unplaced, List.map_eq_singleton_iff] using hop
        have hr : r.unplaced = relation.unplaced := by simpa [Operand.unplaced] using hoperand
        exact ⟨a, mark, r, rfl, htext ha, htext hr⟩

/-- The query is read back, if its names are no keywords. -/
theorem exists_parseProgram_projection {d : Declaration}
    (hattr : Shape.IsName Shape.isNameStart d.attr.toList)
    (hrelation : Shape.IsName Shape.isNameStart d.relation.toList)
    (hattr' : Shape.isKeyword d.attr.toList = false)
    (hrelation' : Shape.isKeyword d.relation.toList = false) :
    ∃ a mark r, parseProgram d.projection = .ok [.unary (.project [a]) mark (.relation r)] ∧
      a.text = d.attr ∧ r.text = d.relation := by
  have hnames {name : String} (hname : Shape.IsName Shape.isNameStart name.toList)
      (hkeyword : Shape.isKeyword name.toList = false) :
      (Token.ofName _ hname).Names ⟨name, .start⟩ :=
    ⟨Token.shape_ofName hname hkeyword, Token.text_ofName hname⟩
  have hop := UnaryOp.Renders.project (by decide : Token.project.shape ∈ Verb.project.shapes)
    (.one ⟨_, hnames hattr hattr', rfl⟩)
  -- The words are a rendering of the query, and parsing undoes rendering up to places.
  have hrenders : RendersProgram
      [.unary (.project [⟨d.attr, .start⟩]) .blank (.relation ⟨d.relation, .start⟩)]
      (projectionWords (.ofName _ hattr) (.ofName _ hrelation)) :=
    .queries (.one ⟨0, _, .unary 0 hop (.relation (hnames hrelation hrelation')), rfl⟩) (.inl rfl)
  obtain ⟨qs, hqs, hunplaced⟩ := hrenders.parse_of_apart .nil (apart_projection hattr hrelation)
  obtain ⟨q, rfl, hq⟩ := List.map_eq_singleton_iff.1 hunplaced
  obtain ⟨a, mark, r, rfl, ha, hr⟩ := Query.eq_of_unplaced hq
  rw [List.nil_append, String.ofList_toList] at hqs
  exact ⟨a, mark, r, hqs, ha, hr⟩

/-- The query is not in the language, if one of its names is a keyword. -/
theorem exists_parseProgram_error_projection {d : Declaration}
    (hattr : Shape.IsName Shape.isNameStart d.attr.toList)
    (hrelation : Shape.IsName Shape.isNameStart d.relation.toList)
    (hkeyword : Shape.isKeyword d.relation.toList = true ∨
      Shape.isKeyword d.attr.toList = true) : ∃ e, parseProgram d.projection = .error e := by
  have hrejects : (rule .statement).Rejects
      (projectionWords (.ofName _ hattr) (.ofName _ hrelation)) := by
    by_cases hattr' : Shape.isKeyword d.attr.toList = true
    · exact rejects_projection (.inl (Token.shape_ofName_of_keyword hattr hattr'))
    · have hidentifier := Token.shape_ofName hattr (Bool.not_eq_true _ ▸ hattr')
      have hword := Token.shape_ofName_of_keyword hrelation (hkeyword.resolve_right hattr')
      exact rejects_projection (.inr ⟨hidentifier, hword⟩)
  exact exists_parseProgram_error hrejects (by simp [projectionWords])
    (apart_projection hattr hrelation)

/-- A projection to one attribute that is there has just this attribute. -/
theorem infer_projection {env : Environment} {a mark r : Lexeme} {s : Schema} {column : Attribute}
    (hs : env r.text = some s) (hcolumn : s.find? a.text = some column) :
    (Query.unary (.project [a]) mark (.relation r)).infer env = ⟨⟨[column]⟩, []⟩ := by
  have hsource : (Operand.relation r).infer env = ⟨s, []⟩ := by
    rw [Operand.infer, hs]
  have hrequire : s.require a = .ok column := by
    rw [Schema.require, hcolumn]
  rw [Query.infer, hsource]
  simp only [UnaryOp.infer, Inference.collect, List.foldl_cons, List.foldl_nil, hrequire]
  rfl

/-- If there is one schema of a slot, there is one slot, and its number is one. -/
theorem Analyzer.slot_of_slotSchemas {a : Analyzer} {s : Except Dangling (Option Schema)}
    (h : a.slotSchemas = [s]) : a.slots.allocated = [1] ∧ a.slotSchema? 1 = s := by
  obtain ⟨n, hallocated, hn⟩ := List.map_eq_singleton_iff.1 h
  obtain ⟨rfl, -⟩ := List.range'_eq_singleton_iff.1 hallocated
  exact ⟨hallocated, hn⟩

/-- What a query for a declared column comes to. If neither of its names is a keyword, there is
nothing wrong with it, and it has one slot, which has the column alone. Otherwise it is not in the
language. -/
theorem analyze_projection {declarations : String} {ds : List Declaration} {catalog : Catalog}
    (hds : parseDeclarations declarations = .ok ds)
    (hcatalog : Catalog.ofText declarations = .ok catalog) {d : Declaration} (hd : d ∈ ds)
    (config : Config) :
    (Shape.isKeyword d.relation.toList = false ∧ Shape.isKeyword d.attr.toList = false →
      ∃ a, analyze config declarations d.projection = .ok a ∧ a.diagnostics = [] ∧
        a.slots.allocated = [1] ∧ a.slotSchema? 1 = .ok (some ⟨[⟨d.attr, d.type⟩]⟩)) ∧
    (Shape.isKeyword d.relation.toList = true ∨ Shape.isKeyword d.attr.toList = true →
      ∃ e, analyze config declarations d.projection = .error (.parse e)) := by
  obtain ⟨hrelation, hattr, -⟩ := parseDeclarations_valid hds d hd
  obtain ⟨hgroups, hnodup⟩ := Catalog.Groups.of_ofText hds hcatalog
  constructor
  · rintro ⟨hrelation', hattr'⟩
    obtain ⟨a, mark, r, hparse, ha, hr⟩ :=
      exists_parseProgram_projection hattr hrelation hattr' hrelation'
    obtain ⟨b, hb, hdiagnostics, hslots⟩ := exists_analyze config hcatalog hparse
    have hschema : catalog.schema? r.text = some (Declaration.schemaOf ds d.relation) := by
      rw [hr]
      exact hgroups.schema? ((Declaration.mem_relations ..).2 (List.mem_map_of_mem hd))
    have hcolumn : (Declaration.schemaOf ds d.relation).find? a.text = some d.column := by
      rw [ha]
      exact Declaration.find?_schemaOf hnodup hd
    have hinfer : (Query.unary (.project [a]) mark (.relation r)).infer catalog.schema? =
        ⟨⟨[d.column]⟩, []⟩ := infer_projection hschema hcolumn
    -- The projection is the only part of the query that has a slot.
    have hparts : (Query.unary (.project [a]) mark (.relation r)).parts =
        [.nested (.unary (.project [a]) mark (.relation r))] := by
      rw [Query.parts, Operand.sourceParts]
    have hslot : b.slotSchemas = [.ok (some ⟨[d.column]⟩)] := by
      rw [hslots, List.flatMap_singleton, hparts, List.map_singleton, List.map_singleton,
        Operand.infer, hinfer]
    refine ⟨b, hb, ?_, Analyzer.slot_of_slotSchemas hslot⟩
    rw [hdiagnostics, List.flatMap_singleton, hinfer]
  · intro hkeyword
    obtain ⟨e, he⟩ := exists_parseProgram_error_projection hattr hrelation hkeyword
    refine ⟨e, ?_⟩
    rw [analyze, hcatalog, he]
    rfl

/-- A name that only starts like a keyword, and two keywords, of which one would start a query. -/
theorem analyze_projection_keywords :
    (∃ a, analyze .standard "projects._1:int;R.tRuE:text;Select.a:long" "project(_1)(projects)" =
        .ok a ∧ a.diagnostics = [] ∧ a.slots.allocated = [1] ∧
        a.slotSchema? 1 = .ok (some ⟨[⟨"_1", .int⟩]⟩)) ∧
      (∃ e, analyze .standard "projects._1:int;R.tRuE:text;Select.a:long" "project(tRuE)(R)" =
        .error (.parse e)) ∧
      ∃ e, analyze .standard "projects._1:int;R.tRuE:text;Select.a:long" "project(a)(Select)" =
        .error (.parse e) := by
  have hds : parseDeclarations "projects._1:int;R.tRuE:text;Select.a:long" =
      .ok [⟨"projects", "_1", .int⟩, ⟨"R", "tRuE", .text⟩, ⟨"Select", "a", .long⟩] := by rfl
  obtain ⟨c, hc⟩ : ∃ c, Catalog.ofText "projects._1:int;R.tRuE:text;Select.a:long" = .ok c :=
    ⟨_, by rfl⟩
  have hfirst := analyze_projection hds hc (List.mem_cons_self ..) .standard
  have hsecond := analyze_projection hds hc (.tail _ (.head _)) .standard
  have hthird := analyze_projection hds hc (.tail _ (.tail _ (.head _))) .standard
  exact ⟨hfirst.1 (by decide), hsecond.2 (by decide), hthird.2 (by decide)⟩

end RelAlgebra
