import RelAlgebra.Proofs.Grammar.Cut
import RelAlgebra.Proofs.Grammar.Listing
import RelAlgebra.Proofs.Grammar.Marks

/-!
# Joining program texts

Two program texts are joined with a semicolon on a line of its own between them. The statements of
the joined text are those of the first text and then those of the second one, further down by the
lines of the first one: `parseProgram_joined`.

The first text is read in the joined one as it is read alone, up to the semicolon
(`Cursor.simulation_continues`), and the second one as it is read alone, at later lines
(`Cursor.simulation_shifted`).
-/

namespace RelAlgebra

/-! ## Places further down -/

namespace Location

/-- A text passed from further down ends further down by as many lines. -/
theorem after_shift (k : Nat) (l : Location) (s : List Char) :
    (l.shift k).after s = (l.after s).shift k := by
  induction s generalizing l with
  | nil => rfl
  | cons c s ih =>
    -- Whether a line ends at a character does not depend on the line.
    have hstep : (l.shift k).step c = (l.step c).shift k := by
      unfold step shift
      split
      · simp only [Nat.add_right_comm]
      · rfl
    rw [after_cons, after_cons, hstep, ih]

/-- The line after a stretch of text is further down by its line feeds. -/
theorem line_after (l : Location) (s : List Char) :
    (l.after s).line = l.line + s.count '\n' := by
  induction s generalizing l with
  | nil => rfl
  | cons c s ih =>
    rw [after_cons, ih, List.count_cons]
    unfold step
    split
    · next hc =>
      -- A line feed starts the next line.
      rw [if_pos (by simpa using hc)]
      simp only
      omega
    · next hc =>
      rw [if_neg (by simpa using hc)]
      rfl

end Location

namespace Cursor

variable {c c' d : Cursor} {k : Nat} {s t : List Char} {stop : Location}
  {R : Cursor → Cursor → Prop} {f g : Location → Location} {q : Query}
  {qs : List Rule.statement.Value}

/-- A line feed is layout. -/
theorem skipLayout_newline (h : c.rest = '\n' :: s) : (c.advance 1).skipLayout = c.skipLayout := by
  have hlength : Layout.length c.rest = 1 + Layout.length s := by
    rw [h, Layout.length, Layout.lengthFrom_false_cons (by simp), Nat.add_comm]
    rfl
  have hrest : (c.advance 1).rest = s := by simp [advance, h]
  rw [skipLayout, skipLayout, hrest, hlength, advance_advance]

/-- The same text follows both positions; the second one is `k` lines further down. -/
def Shifted (k : Nat) (c c' : Cursor) : Prop := c'.rest = c.rest ∧ c'.loc = c.loc.shift k

/-- Two positions of one text advance alike. -/
theorem Shifted.advance (h : Shifted k c c') (n : Nat) :
    Shifted k (c.advance n) (c'.advance n) := by
  obtain ⟨hrest, hloc⟩ := h
  unfold Shifted Cursor.advance
  rw [hrest, hloc, Location.after_shift]
  exact ⟨rfl, rfl⟩

/-- A text is read at later lines as it is read at earlier ones. -/
theorem simulation_shifted (k : Nat) : Simulation (Shifted k) (Location.shift k) where
  skip c c' h := by
    unfold skipLayout
    rw [h.1]
    exact h.advance _
  length? shape c c' _ h _ _ := by rw [h.1]
  word shape c c' n _ h _ _ _ := ⟨by rw [h.1], h.2, h.advance n⟩

/-- The second position stands where the first one does, in a text that goes on with a line feed, a
semicolon and `t` where that of the first position ends, at the place `stop`. At the end of its text
the first position corresponds to that of the semicolon. -/
inductive Continues (stop : Location) (t : List Char) : Cursor → Cursor → Prop where
  | inside {c c' : Cursor} (hrest : c'.rest = c.rest ++ '\n' :: ';' :: t) (hloc : c'.loc = c.loc)
      (hstop : c.loc.after c.rest = stop) (hclosed : Mode.code.closes c.rest = true) :
    Continues stop t c c'
  | atEnd {c c' : Cursor} (hrest : c.rest = []) (hrest' : c'.rest = ';' :: t)
      (hloc : c'.loc = stop.step '\n') : Continues stop t c c'

/-- Inside the first text both positions advance alike. -/
theorem continues_advance {n : Nat} (hrest : c'.rest = c.rest ++ '\n' :: ';' :: t)
    (hloc : c'.loc = c.loc) (hstop : c.loc.after c.rest = stop) (hn : n ≤ c.rest.length)
    (hclosed : Mode.code.closes (c.rest.drop n) = true) :
    Continues stop t (c.advance n) (c'.advance n) := by
  refine .inside ?_ ?_ ?_ hclosed
  · simp only [advance, hrest, List.drop_append_of_le_length hn]
  · simp only [advance, hrest, hloc, List.take_append_of_le_length hn]
  · simp only [advance]
    rw [← Location.after_append, List.take_append_drop, hstop]

/-- Layout is passed in both texts, where the longer one goes on to the semicolon. -/
theorem Continues.skip (h : Continues stop t c c') :
    Continues stop t c.skipLayout c'.skipLayout := by
  cases h with
  | atEnd hrest hrest' hloc =>
    have hskip : c'.skipLayout = c' := by
      rw [skipLayout, hrest']
      rfl
    rw [hskip]
    exact .atEnd (by simp [skipLayout, advance, hrest]) hrest' hloc
  | inside hrest hloc hstop hclosed =>
    have hlength := Layout.lengthFrom_append_semicolon false c.rest t
    have hle := Layout.lengthFrom_le false c.rest
    unfold skipLayout Layout.length
    rw [hrest, hlength]
    split
    · -- The layout ends inside the first text.
      refine continues_advance hrest hloc hstop hle ?_
      rw [Mode.closes_drop_layout]
      exact hclosed
    · -- The layout goes on over the line feed.
      have hall : Layout.lengthFrom false c.rest = c.rest.length := by omega
      rw [hall]
      have htake : c.rest ++ '\n' :: ';' :: t = c.rest ++ ['\n'] ++ ';' :: t := by simp
      have hlen : (c.rest ++ ['\n']).length = c.rest.length + 1 := by simp
      refine .atEnd ?_ ?_ ?_
      · simp [advance]
      · rw [advance, hrest, htake, ← hlen, List.drop_left]
      · rw [advance, hrest, htake, ← hlen, List.take_left, hloc, Location.after_append, hstop]
        rfl

/-- A text without an open quote is read in a longer text, up to the semicolon, as it is read
alone. -/
theorem simulation_continues (stop : Location) (t : List Char) :
    Simulation (Continues stop t) id where
  skip _ _ h := h.skip
  length? shape c c' hshape h _ _ := by
    have hlisted : shape.listed = true := by simp_all [Shape.inStatement]
    cases h with
    | inside hrest _ _ hclosed => rw [hrest, Shape.length?_append_newline hlisted hclosed]
    | atEnd hrest hrest' _ =>
      rw [hrest, hrest', Shape.length?_nil hlisted, Shape.length?_semicolon hshape]
  word shape c c' n hshape h hc _ hn := by
    have hlisted : shape.listed = true := by simp_all [Shape.inStatement]
    cases h with
    | inside hrest hloc hstop hclosed =>
      have hle := (Shape.length?_eq_some hn).1
      refine ⟨by rw [hrest, List.take_append_of_le_length hle], hloc,
        continues_advance hrest hloc hstop hle ?_⟩
      -- The word leaves no quote open.
      have hword := Shape.admits_of_length? hlisted hn
      have hlayout := layout_length hc
      rw [← List.take_append_drop n c.rest] at hclosed hlayout
      rwa [hword.closes_append hlayout] at hclosed
    | atEnd hrest _ _ =>
      rw [hrest, Shape.length?_nil hlisted] at hn
      cases hn

/-! ## Statements at related positions -/

/-- A statement is read at a related position, with its words moved. -/
theorem Item.exists_relocate (S : Simulation R f) (hR : R c c') (h : c.Item .statement q d) :
    ∃ d', c'.Item .statement (q.relocate f) d' ∧ R d d' :=
  S.exists_read (r := .statement) rfl (S.skip c c' hR) (by simp) (by simp) h

/-- A statement at a related position is one of the first text with its words moved. -/
theorem Item.exists_of_relocate (S : Simulation R f) (hg : ∀ l, g (f l) = l) (hR : R c c')
    {d' : Cursor} (h : c'.Item .statement q d') :
    ∃ p d, c.Item .statement p d ∧ R d d' ∧ q = p.relocate f := by
  obtain ⟨d, hd, hRd⟩ := h.exists_relocate (S.flip hg) hR
  obtain ⟨e, he, -⟩ := hd.exists_relocate S hR
  exact ⟨q.relocate g, d, hd, hRd, (he.unique h).1⟩

/-- A statement at later lines comes from the text. -/
theorem Item.exists_of_shift {d' : Cursor} (h : c'.Item .statement q d') (hc : Shifted k c c') :
    ∃ p d, c.Item .statement p d ∧ Shifted k d d' ∧ q = p.relocate (.shift k) :=
  h.exists_of_relocate (g := fun l => ⟨l.line - k, l.column⟩) (simulation_shifted k)
    (fun l => by simp [Location.shift]) hc

/-- A statement of the first text is read in the longer one. -/
theorem Item.exists_continues (h : c.Item .statement q d) (hc : Continues stop t c c') :
    ∃ d', c'.Item .statement q d' ∧ Continues stop t d d' := by
  obtain ⟨d', hq, hd⟩ := h.exists_relocate (simulation_continues stop t) hc
  rw [Query.relocate_id] at hq
  exact ⟨d', hq, hd⟩

/-- A statement that is read in the longer text inside the first one is a statement of that. -/
theorem Item.exists_of_continues {d' : Cursor} (h : c'.Item .statement q d')
    (hc : Continues stop t c c') : ∃ d, c.Item .statement q d ∧ Continues stop t d d' := by
  obtain ⟨p, d, hp, hd, rfl⟩ :=
    h.exists_of_relocate (g := id) (simulation_continues stop t) (fun _ => rfl) hc
  rw [Query.relocate_id]
  exact ⟨d, hp, hd⟩

/-- The statements of a text at later lines are those of the text, moved. -/
theorem Listing.shift (h : c.Listing .statement qs) (hc : Shifted k c c') :
    c'.Listing .statement (qs.map (Query.relocate (.shift k))) := by
  have S := simulation_shifted k
  induction h generalizing c' with
  | nothing hnil => exact .nothing ((S.skip _ _ hc).1.trans hnil)
  | last hq hnil =>
    obtain ⟨d', hq', hd⟩ := hq.exists_relocate S hc
    exact .last hq' ((S.skip _ _ hd).1.trans hnil)
  | more hq hsemicolon _ ih =>
    obtain ⟨d', hq', hd⟩ := hq.exists_relocate S hc
    have hskip := S.skip _ _ hd
    exact .more hq' (hskip.1.trans hsemicolon) (ih (hskip.advance 1))

/-- The statements of a text at later lines come from the text. -/
theorem Listing.exists_of_shift (h : c'.Listing .statement qs) (hc : Shifted k c c') :
    ∃ ps, c.Listing .statement ps ∧ qs = ps.map (Query.relocate (.shift k)) := by
  have S := simulation_shifted k
  induction h generalizing c with
  | nothing hnil => exact ⟨[], .nothing ((S.skip _ _ hc).1.symm.trans hnil), rfl⟩
  | last hq hnil =>
    obtain ⟨p, d, hp, hd, rfl⟩ := hq.exists_of_shift hc
    exact ⟨[p], .last hp ((S.skip _ _ hd).1.symm.trans hnil), rfl⟩
  | more hq hsemicolon _ ih =>
    obtain ⟨p, d, hp, hd, rfl⟩ := hq.exists_of_shift hc
    have hskip := S.skip _ _ hd
    obtain ⟨ps, hps, rfl⟩ := ih (hskip.advance 1)
    exact ⟨p :: ps, .more hp (hskip.1.symm.trans hsemicolon) hps, rfl⟩

/-! ## The first text and the semicolon after it -/

/-- One or more statements up to the end of the text, without a semicolon after the last one. -/
inductive Block : Cursor → List Query → Prop where
  | last {c d : Cursor} {q : Query} (hq : c.Item .statement q d) (h : d.skipLayout.rest = []) :
    Block c [q]
  | more {c d : Cursor} {q : Query} {s : List Char} {qs : List Query} (hq : c.Item .statement q d)
      (h : d.skipLayout.rest = ';' :: s) (hqs : Block (d.skipLayout.advance 1) qs) :
    Block c (q :: qs)

/-- Statements without a semicolon after the last one are a program. -/
theorem Block.program (h : c.Block qs) : c.Listing .statement qs := by
  induction h with
  | last hq h => exact .last hq h
  | more hq h _ ih => exact .more hq h ih

/-- The longer text never ends where the first one goes on or ends. -/
theorem Continues.rest_ne_nil (h : Continues stop t c c') : c'.rest ≠ [] := by
  cases h with
  | inside hrest => simp [hrest]
  | atEnd _ hrest' => simp [hrest']

/-- At the end of the first text the semicolon follows in the second one. -/
theorem Continues.rest_of_nil (h : Continues stop t c c') (hc' : c'.skipLayout = c')
    (hnil : c.rest = []) : c'.rest = ';' :: t ∧ c'.loc = stop.step '\n' := by
  cases h with
  | inside hrest =>
    -- The line feed would be layout.
    have hlayout := layout_length hc'
    rw [hrest, hnil] at hlayout
    simp [Layout.length, Layout.lengthFrom, Layout.isSpace] at hlayout
  | atEnd _ hrest' hloc => exact ⟨hrest', hloc⟩

/-- A semicolon inside the first text is one in the second text too. -/
theorem Continues.advance_semicolon (h : Continues stop t c c') (hs : c.rest = ';' :: s) :
    (∃ s', c'.rest = ';' :: s') ∧ Continues stop t (c.advance 1) (c'.advance 1) := by
  cases h with
  | inside hrest hloc hstop hclosed =>
    refine ⟨⟨s ++ '\n' :: ';' :: t, by rw [hrest, hs]; rfl⟩,
      continues_advance hrest hloc hstop (by simp [hs]) ?_⟩
    rw [hs] at hclosed ⊢
    rwa [Mode.closes_code_cons (by simp)] at hclosed
  | atEnd hrest => simp [hrest] at hs

/-- A semicolon in the second text is one in the first text, or the one that follows that. -/
theorem Continues.semicolon (h : Continues stop t c c') (hs : c'.rest = ';' :: s) :
    (∃ s', c.rest = ';' :: s') ∨ c.rest = [] ∧ s = t := by
  cases h with
  | inside hrest =>
    rw [hrest] at hs
    cases hc : c.rest with
    | nil => simp [hc] at hs
    | cons x s' =>
      rw [hc, List.cons_append] at hs
      exact .inl ⟨s', by rw [(List.cons.inj hs).1]⟩
  | atEnd hrest hrest' => exact .inr ⟨hrest, (List.cons.inj (hs.symm.trans hrest')).2⟩

/-- If a text is a program when a semicolon follows it on the next line, it is one by itself, with
the same statements at the same places. -/
theorem Listing.block (h : c'.Listing .statement qs) (hc : Continues stop [] c c') :
    c.Block qs := by
  induction h generalizing c with
  | nothing hnil => exact absurd hnil hc.skip.rest_ne_nil
  | last hq hnil =>
    obtain ⟨d, -, hd⟩ := hq.exists_of_continues hc
    exact absurd hnil hd.skip.rest_ne_nil
  | more hq hsemicolon hqs ih =>
    obtain ⟨d, hp, hd⟩ := hq.exists_of_continues hc
    rcases hd.skip.semicolon hsemicolon with ⟨s', hs'⟩ | ⟨hnil, rfl⟩
    · exact .more hp hs' (ih (hd.skip.advance_semicolon hs').2)
    · -- After the last semicolon there are no more statements.
      obtain rfl := hqs.eq_nil rfl (by simp [advance, hsemicolon])
      exact .last hp hnil

/-- In a text that goes on with a semicolon on the next line, what is read after that semicolon
follows the statements of the text. -/
theorem Block.program_iff {ps : List Query} (h : c.Block ps) (hc : Continues stop t c c') :
    ∃ e : Cursor, e.rest = t ∧ e.loc = (stop.step '\n').step ';' ∧
      ∀ qs, c'.Listing .statement qs ↔ ∃ qs', e.Listing .statement qs' ∧ qs = ps ++ qs' := by
  induction h generalizing c' with
  | last hq hnil =>
    obtain ⟨d', hq', hd⟩ := hq.exists_continues hc
    obtain ⟨hsemicolon, hloc⟩ := hd.skip.rest_of_nil (by simp) hnil
    refine ⟨d'.skipLayout.advance 1, ?_, ?_, fun qs => listing_iff_of_semicolon rfl hq' hsemicolon⟩
    · simp [advance, hsemicolon]
    · simp [advance, hsemicolon, hloc]
  | more hq hsemicolon _ ih =>
    obtain ⟨d', hq', hd⟩ := hq.exists_continues hc
    obtain ⟨⟨s', hs'⟩, hnext⟩ := hd.skip.advance_semicolon hsemicolon
    obtain ⟨e, hrest, hloc, hiff⟩ := ih hnext
    refine ⟨e, hrest, hloc, fun qs => (listing_iff_of_semicolon rfl hq' hs').trans ?_⟩
    constructor
    · rintro ⟨qs', hqs', rfl⟩
      obtain ⟨qs'', hqs'', rfl⟩ := (hiff qs').1 hqs'
      exact ⟨qs'', hqs'', rfl⟩
    · rintro ⟨qs'', hqs'', rfl⟩
      exact ⟨_, (hiff _).2 ⟨qs'', hqs'', rfl⟩, rfl⟩

end Cursor

/-! ## Texts -/

/-- If a program text is accepted with a semicolon after it on the next line, then in every text
that is joined to it there its statements are followed by those of the joined text. -/
theorem parseProgram_joined {first : String} {ps : List Query}
    (h : parseProgram (first ++ "\n;") = .ok ps) (second : String) :
    parseProgram first = .ok ps ∧
      ∀ qs, parseProgram (first ++ "\n;\n" ++ second) = .ok qs ↔
        ∃ qs', parseProgram second = .ok qs' ∧
          qs = ps ++ qs'.map (Query.relocate (.shift (first.toList.count '\n' + 2))) := by
  let stop : Location := Location.start.after first.toList
  -- No quote is open at the end of the first text.
  have hclosed : Mode.code.closes first.toList = true := by
    obtain ⟨ws, ⟨d, hwords, hd⟩, -⟩ := parseProgram_words h
    have hall : Mode.code.closes (first ++ "\n;").toList = true := hwords.closes hd
    rw [String.toList_append] at hall
    exact Mode.closes_of_append_semicolon (by simp) hall
  have hcontinues : ∀ (text : String) (t : List Char),
      text.toList = first.toList ++ '\n' :: ';' :: t →
      Cursor.Continues stop t (.start first.toList) (.start text.toList) :=
    fun text t htext => .inside htext rfl rfl hclosed
  have hblock : (Cursor.start first.toList).Block ps :=
    (parseProgram_eq_ok_iff.1 h).block (hcontinues _ [] (by rw [String.toList_append]; rfl))
  refine ⟨parseProgram_eq_ok_iff.2 hblock.program, fun qs => ?_⟩
  have hjoined : (first ++ "\n;\n" ++ second).toList =
      first.toList ++ '\n' :: ';' :: '\n' :: second.toList := by
    rw [String.toList_append, String.toList_append, List.append_assoc]
    rfl
  obtain ⟨e, hrest, hloc, hiff⟩ := hblock.program_iff (hcontinues _ _ hjoined)
  rw [parseProgram_eq_ok_iff, hiff]
  -- After the semicolon there is a line feed, and then the second text at its new place.
  have hskip : (e.advance 1).skipLayout = e.skipLayout := Cursor.skipLayout_newline hrest
  have hshifted : Cursor.Shifted (first.toList.count '\n' + 2) (.start second.toList)
      (e.advance 1) := by
    have hline : stop.line = 1 + first.toList.count '\n' := Location.line_after .start _
    refine ⟨by simp [Cursor.advance, hrest, Cursor.start], ?_⟩
    simp [Cursor.advance, hrest, hloc, Cursor.start, Location.start, Location.step, Location.shift,
      hline, Nat.add_assoc]
  constructor
  · rintro ⟨qs', hqs', rfl⟩
    obtain ⟨rs, hrs, rfl⟩ := (hqs'.congr hskip).exists_of_shift hshifted
    exact ⟨rs, parseProgram_eq_ok_iff.2 hrs, rfl⟩
  · rintro ⟨rs, hrs, rfl⟩
    exact ⟨_, ((parseProgram_eq_ok_iff.1 hrs).shift hshifted).congr hskip.symm, rfl⟩

end RelAlgebra
