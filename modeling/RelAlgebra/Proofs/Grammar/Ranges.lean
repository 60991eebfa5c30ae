import RelAlgebra.Proofs.Grammar.Marks
import RelAlgebra.Proofs.Grammar.Validity

/-!
# Where the words of a query stand

The words of a text stand in ranges of its characters that follow one another. Since the words that
a query keeps are among them, in their order, each of these has a range of its own: it is what
stands there, and it carries the line and the column of the range's first character.

Lines are told here by `Location.walk`, which reads line ends as a whole: a line feed, or a carriage
return and a line feed. This gives the places that the cursor counts.
-/

namespace RelAlgebra

/-- The place after a stretch of text that begins at `l`. A line feed ends a line, whether it stands
alone or after a carriage return, and any other character, a carriage return that stands alone
included, fills one column. -/
def Location.walk (l : Location) : List Char → Location
  | [] => l
  | '\r' :: '\n' :: s => walk ⟨l.line + 1, 1⟩ s
  | '\n' :: s => walk ⟨l.line + 1, 1⟩ s
  | _ :: s => walk ⟨l.line, l.column + 1⟩ s

/-- A carriage return before a line feed makes no difference to the places after both. -/
theorem Location.walk_eq_after (l : Location) (s : List Char) : l.walk s = l.after s := by
  fun_induction walk l s with
  | case1 l => rfl
  | case2 l s ih => exact ih
  | case3 l s ih => exact ih
  | case4 l c s hpair hfeed ih =>
    have hstep : l.step c = ⟨l.line, l.column + 1⟩ := if_neg hfeed
    rw [ih, after_cons, hstep]

/-- The characters of a text from the one numbered `start` up to the one numbered `stop`, which is
the first that does not belong to them. -/
structure Range where
  start : Nat
  stop : Nat

/-- The word is what stands in the range of the text, and it carries the place of its start. -/
structure Lexeme.Occupies (l : Lexeme) (s : List Char) (r : Range) : Prop where
  start_lt : r.start < r.stop
  stop_le : r.stop ≤ s.length
  text : l.text.toList = (s.take r.stop).drop r.start
  loc : l.loc = Location.start.walk (s.take r.start)

/-- Words stand in ranges one after the other, from where the words start. -/
theorem Cursor.Words.exists_ranges {s : List Char} {k : Nat} {ws : List Word} {d : Cursor}
    (h : ((start s).advance k).Words ws d) :
    ∃ rs : List Range, ws.Forall₂ (fun w r => w.lexeme.Occupies s r) rs ∧
      (∀ r ∈ rs, k ≤ r.start) ∧ rs.Pairwise fun r r' => r.stop ≤ r'.start := by
  generalize hc : (start s).advance k = c at h
  induction h generalizing k with
  | done => exact ⟨[], .nil, by simp, .nil⟩
  | @layout c d ws _ ih =>
    -- The words start after the layout.
    have hskip : (start s).advance (k + Layout.length c.rest) = c.skipLayout := by
      rw [← advance_advance, hc]
      rfl
    obtain ⟨rs, hrs, hstart, hpairwise⟩ := ih hskip
    exact ⟨rs, hrs, fun r hr => Nat.le_of_add_right_le (hstart r hr), hpairwise⟩
  | @word c d shape n ws _ hshape hn _ ih =>
    have hnext : (start s).advance (k + n) = c.advance n := by rw [← advance_advance, hc]
    obtain ⟨rs, hrs, hstart, hpairwise⟩ := ih hnext
    have hrest : c.rest = s.drop k := by rw [← hc]; rfl
    have hloc : c.loc = Location.start.walk (s.take k) := by
      rw [Location.walk_eq_after, ← hc]
      rfl
    obtain ⟨hle, hpos⟩ := Shape.length?_eq_some hn
    have hlen : 0 < n := hpos (Shape.nullable_of_listed hshape)
    rw [hrest, List.length_drop] at hle
    -- The word takes the `n` characters from the position `k` on, and the others start after it.
    have hword : Lexeme.Occupies ⟨String.ofList (c.rest.take n), c.loc⟩ s ⟨k, k + n⟩ := by
      refine ⟨Nat.lt_add_of_pos_right hlen, by simp only; omega, ?_, hloc⟩
      rw [String.toList_ofList, hrest, List.take_drop, Nat.add_comm]
    refine ⟨⟨k, k + n⟩ :: rs, .cons hword hrs, ?_, List.pairwise_cons.2 ⟨hstart, hpairwise⟩⟩
    intro r hr
    rcases List.mem_cons.1 hr with rfl | hr
    · exact Nat.le_refl k
    · exact Nat.le_of_add_right_le (hstart r hr)

/-- Marks that are among words stand in some of their ranges. -/
theorem Among.exists_ranges {ms : List Mark} {ws : List Word} (h : Among ms ws) {s : List Char}
    {rs : List Range} (hrs : ws.Forall₂ (fun w r => w.lexeme.Occupies s r) rs) :
    ∃ rs', rs'.Sublist rs ∧ ms.Forall₂ (fun m r => m.lexeme.Occupies s r) rs' := by
  induction h generalizing rs with
  | nil => exact ⟨[], List.nil_sublist _, .nil⟩
  | cons hword _ ih =>
    cases hrs with
    | cons hr hrs =>
      obtain ⟨rs', hsub, hms⟩ := ih hrs
      exact ⟨_ :: rs', hsub.cons_cons _, .cons (hword.2 ▸ hr) hms⟩
  | cons_right _ ih =>
    cases hrs with
    | cons _ hrs =>
      obtain ⟨rs', hsub, hms⟩ := ih hrs
      exact ⟨rs', hsub.cons _, hms⟩

/-- Whatever text is accepted, the queries that are read from it are valid: names are spelled like
names and are no keywords, no list of arguments is empty, and literals follow the lexical rules of
their kinds. The words that they keep stand in the text, in the order in which the queries have them
and without overlaps. Each of them is exactly what stands in its range, and it has the line and the
column where this range starts. -/
theorem parseProgram_located (text : String) (qs : List Query) (h : parseProgram text = .ok qs) :
    (∀ q ∈ qs, q.Valid) ∧ ∃ ranges : List Range,
      (qs.flatMap Query.marks).Forall₂ (fun m r => m.lexeme.Occupies text.toList r) ranges ∧
      ranges.Pairwise fun r r' => r.stop ≤ r'.start := by
  refine ⟨parseProgram_valid h, ?_⟩
  obtain ⟨ws, ⟨d, hwords, -⟩, hamong⟩ := parseProgram_words h
  obtain ⟨rs, hrs, -, hpairwise⟩ := Cursor.Words.exists_ranges (k := 0) hwords
  obtain ⟨ranges, hsub, hmarks⟩ := hamong.exists_ranges hrs
  exact ⟨ranges, hmarks, hpairwise.sublist hsub⟩

set_option maxRecDepth 2000 in
/-- A comment, a line break of two characters, and a carriage return that stands alone. -/
theorem parseProgram_located_rename_select :
    ∃ qs, parseProgram "ρ(a→b) -- é\r\n(R);\rσ(x='é')(S)" = .ok qs ∧
      (qs.flatMap Query.marks).map (·.lexeme) =
        [⟨"ρ", ⟨1, 1⟩⟩, ⟨"a", ⟨1, 3⟩⟩, ⟨"b", ⟨1, 5⟩⟩, ⟨"R", ⟨2, 2⟩⟩, ⟨"σ", ⟨2, 6⟩⟩, ⟨"x", ⟨2, 8⟩⟩,
          ⟨"=", ⟨2, 9⟩⟩, ⟨"'é'", ⟨2, 10⟩⟩, ⟨"S", ⟨2, 15⟩⟩] ∧
      (∀ q ∈ qs, q.Valid) ∧ ∃ ranges : List Range,
        (qs.flatMap Query.marks).Forall₂
          (fun m r => m.lexeme.Occupies "ρ(a→b) -- é\r\n(R);\rσ(x='é')(S)".toList r) ranges ∧
        ranges.Pairwise fun r r' => r.stop ≤ r'.start := by
  have hqs : parseProgram "ρ(a→b) -- é\r\n(R);\rσ(x='é')(S)" = .ok
      [.unary (.rename [(⟨"a", ⟨1, 3⟩⟩, ⟨"b", ⟨1, 5⟩⟩)]) ⟨"ρ", ⟨1, 1⟩⟩ (.relation ⟨"R", ⟨2, 2⟩⟩),
        .unary (.select (.last (.link (.plain (.last (.last (.attr ⟨"x", ⟨2, 8⟩⟩))))
            .eq ⟨"=", ⟨2, 9⟩⟩
            (.last (.plain (.last (.last (.literal .string ⟨"'é'", ⟨2, 10⟩⟩))))))))
          ⟨"σ", ⟨2, 6⟩⟩ (.relation ⟨"S", ⟨2, 15⟩⟩)] := by rfl
  exact ⟨_, hqs, rfl, parseProgram_located _ _ hqs⟩

end RelAlgebra
