import RelAlgebra.Proofs.Grammar.Calls
import RelAlgebra.Proofs.Grammar.Ranges

/-!
# Where a rejected text goes wrong

A text is rejected with a place and a list of rules. They can be found by going through the failures
in the order in which they happened, with one list that is never taken back. When a rule fails, it is
added to the list, or takes the place of the rules that were added while it was tried, and the list
starts anew when the position is further than all before (`Miss.trackAll`). This gives the same as
what is computed from the tree of failures (`Miss.trackAll_eq`).

The place is the furthest one at which a rule was tried and failed (`Rule.furthest_of_failed`). All
rules but the first are called after layout, and a text is rejected only if the rule for the end of
the text fails, which is one of them. Hence no layout stands at the place (`Rule.clear_of_furthest`).
-/

namespace RelAlgebra

/-! ## A list that is never taken back -/

namespace Furthest

/-- How many rules are listed for a position. -/
def count (f : Furthest) (offset : Nat) : Nat := if f.offset = offset then f.rules.length else 0

/-- The list after the failure of a rule. For the position of the rule `before` rules were listed
when it was called, and `f` is the list when it has failed. If just one rule has come to be listed
for the position, that one stands for the failure. -/
def close (rule : Rule) (offset before : Nat) (f : Furthest) : Furthest :=
  if f.count offset = before + 1 then f
  else if offset < f.offset then f
  else if offset = f.offset then ⟨offset, f.rules.take before ++ [rule]⟩
  else ⟨offset, [rule]⟩

/-- Knowing nothing adds nothing before what is known. -/
@[simp] theorem none_merge (f : Furthest) : none.merge f = f := by
  obtain ⟨offset, rules⟩ := f
  unfold merge none
  grind

/-- Knowing nothing adds nothing after what is known. -/
@[simp] theorem merge_none (f : Furthest) : f.merge none = f := by
  obtain ⟨offset, rules⟩ := f
  unfold merge none
  grind

/-- What is known from failures can be put together in any grouping. -/
theorem merge_assoc (f g h : Furthest) : (f.merge g).merge h = f.merge (g.merge h) := by
  unfold merge
  grind

/-- What a failure does to the list is known from the failures inside of it. -/
theorem close_merge (rule : Rule) (offset : Nat) (f inner : Furthest) :
    close rule offset (f.count offset) (f.merge inner) = f.merge (blame rule offset inner) := by
  unfold close count merge blame
  rcases Nat.lt_trichotomy f.offset offset with hlt | heq | hgt
  · -- Nothing was listed for the position, so all that is listed for it comes from inside.
    grind
  · -- What was listed for the position stays, and is told apart from the rest by its length.
    grind
  · -- The list is about a position further on, and stays as it is.
    grind

end Furthest

mutual

/-- The list after a failure, when `f` is the list before it. -/
def Miss.track : Miss → Furthest → Furthest
  | .mk rule offset inner, f => .close rule offset (f.count offset) (Miss.trackAll inner f)

/-- The list after failures one after the other. -/
def Miss.trackAll : List Miss → Furthest → Furthest
  | [], f => f
  | m :: ms, f => Miss.trackAll ms (m.track f)

end

mutual

/-- One failure adds to the list what is known from the failure alone. -/
theorem Miss.track_eq (m : Miss) (f : Furthest) : m.track f = f.merge m.furthest := by
  cases m with
  | mk rule offset inner =>
    rw [Miss.track, Miss.trackAll_eq inner f, Furthest.close_merge, Miss.furthest]

/-- Keeping one list through all failures comes to the same as putting together what is known from
each of them. -/
theorem Miss.trackAll_eq (ms : List Miss) (f : Furthest) :
    Miss.trackAll ms f = f.merge (Miss.furthestAll ms) := by
  cases ms with
  | nil => rw [Miss.trackAll, Miss.furthestAll, Furthest.merge_none]
  | cons m ms =>
    rw [Miss.trackAll, Miss.furthestAll, Miss.track_eq m f, Miss.trackAll_eq ms,
      Furthest.merge_assoc]

end

/-! ## The furthest failures -/

/-- The furthest position among failures and some rules that failed there, if anything failed. -/
def Furthest.Tells (f : Furthest) (failures : List (Rule × Nat)) : Prop :=
  failures = [] ∧ f = .none ∨
    f.rules ≠ [] ∧ (∀ x ∈ failures, x.2 ≤ f.offset) ∧ ∀ r ∈ f.rules, (r, f.offset) ∈ failures

/-- What is known from two lists of failures is put together for both of them. -/
theorem Furthest.Tells.merge {f g : Furthest} {xs ys : List (Rule × Nat)} (hf : f.Tells xs)
    (hg : g.Tells ys) : (f.merge g).Tells (xs ++ ys) := by
  rcases hf with ⟨rfl, rfl⟩ | ⟨hfne, hfle, hfmem⟩
  · rwa [none_merge, List.nil_append]
  rcases hg with ⟨rfl, rfl⟩ | ⟨hgne, hgle, hgmem⟩
  · rw [merge_none, List.append_nil]
    exact .inr ⟨hfne, hfle, hfmem⟩
  have hle : ∀ x ∈ xs ++ ys, x.2 ≤ f.offset ∨ x.2 ≤ g.offset := by
    intro x hx
    exact (List.mem_append.1 hx).imp (hfle x) (hgle x)
  rcases Nat.lt_trichotomy f.offset g.offset with hlt | heq | hgt
  · -- The second list is about a position further on, and its rules are kept.
    rw [Furthest.merge, if_pos hlt]
    refine .inr ⟨hgne, fun x hx => ?_, fun r hr => List.mem_append_right _ (hgmem r hr)⟩
    have hx := hle x hx
    omega
  · -- Both lists are about one position, and the rules of both are kept.
    rw [Furthest.merge, if_neg (by omega), if_neg (by omega)]
    refine .inr ⟨by simp [hfne], fun x hx => ?_, fun r hr => ?_⟩
    · have hx := hle x hx
      simp only
      omega
    · rcases List.mem_append.1 hr with hr | hr
      · exact List.mem_append_left _ (hfmem r hr)
      · exact List.mem_append_right _ (heq ▸ hgmem r hr)
  · -- The first list is about a position further on, and its rules are kept.
    rw [Furthest.merge, if_neg (by omega), if_pos hgt]
    refine .inr ⟨hfne, fun x hx => ?_, fun r hr => List.mem_append_left _ (hfmem r hr)⟩
    have hx := hle x hx
    omega

/-- A rule that fails takes the blame, or leaves it to the failures inside of it. -/
theorem Furthest.Tells.blame {inner : Furthest} {xs : List (Rule × Nat)} (h : inner.Tells xs)
    (rule : Rule) (offset : Nat) :
    (Furthest.blame rule offset inner).Tells ((rule, offset) :: xs) := by
  by_cases hkeep : offset < inner.offset ∨ offset = inner.offset ∧ inner.rules.length = 1
  · -- The blame stays with the failures inside.
    rw [Furthest.blame, if_pos hkeep]
    rcases h with ⟨-, rfl⟩ | ⟨hne, hle, hmem⟩
    · -- Something failed inside, for nothing is known otherwise.
      simp [Furthest.none] at hkeep
    · refine .inr ⟨hne, fun x hx => ?_, fun r hr => List.mem_cons_of_mem _ (hmem r hr)⟩
      rcases List.mem_cons.1 hx with rfl | hx
      · simp only
        omega
      · exact hle x hx
  · -- The rule itself is listed, at a position where nothing inside went further.
    rw [Furthest.blame, if_neg hkeep]
    refine .inr ⟨List.cons_ne_nil _ _, fun x hx => ?_, fun r hr => ?_⟩
    · rcases List.mem_cons.1 hx with rfl | hx
      · exact Nat.le_refl _
      · rcases h with ⟨rfl, -⟩ | ⟨-, hle, -⟩
        · cases hx
        · have hx := hle x hx
          simp only
          omega
    · rw [List.mem_singleton.1 hr]
      exact List.mem_cons_self

mutual

/-- The furthest failures inside a failure are among all that happened in it. -/
theorem Miss.tells_furthest (m : Miss) : m.furthest.Tells m.failures := by
  cases m with
  | mk rule offset inner =>
    rw [Miss.furthest, Miss.failures]
    exact (Miss.tells_furthestAll inner).blame rule offset

/-- The furthest of several failures are among all that happened in them. -/
theorem Miss.tells_furthestAll (ms : List Miss) :
    (Miss.furthestAll ms).Tells (Miss.failuresAll ms) := by
  cases ms with
  | nil => exact .inl ⟨rfl, rfl⟩
  | cons m ms =>
    rw [Miss.furthestAll, Miss.failuresAll]
    exact m.tells_furthest.merge (Miss.tells_furthestAll ms)

end

/-! ## Lists up to the end of the text -/

namespace Phrase

variable {α : Type} {p : Phrase α} {c d : Cursor} {r : Rule}

/-- All rules of a list are called after layout. -/
theorem Calls.clear_of_list (h : (list p).Calls c r d) : d.skipLayout = d := by
  rcases h with (h | ⟨_, m, -, h⟩) | ⟨_, m, -, -, rfl⟩
  · exact h.elim
  · exact h.enters.clear
  · exact m.skipLayout_skipLayout

/-- A list that is not read fails at the end that is expected after it. -/
theorem exists_calls_of_list_failed (h : ((list p).read Rule.read c).outcome = .failed) :
    ∃ d, (list p).Calls c .endOfInput d ∧ (Rule.endOfInput.read d).outcome = .failed := by
  -- The items are optional, so that they never fail.
  have hitems : ∀ {β : Type} (q : Phrase β),
      ((empty *> opt q).read Rule.read c).outcome ≠ .failed := by
    intro β q
    change (Reading.map Prod.snd (Reading.map (Prod.mk ())
      (((q.read Rule.read c.skipLayout).map some).orElse
        fun _ => .matched none c.skipLayout))).outcome ≠ _
    simp only [Reading.outcome_map, Reading.outcome_orElse]
    cases (q.read Rule.read c.skipLayout).outcome <;> simp [Outcome.bind, Outcome.orElse]
  change (Reading.map _ (Reading.map _ (Reading.bind _ _))).outcome = _ at h
  simp only [Reading.outcome_map, Reading.outcome_bind] at h
  cases hfirst : ((empty *> opt (separated ";" p <* opt (symbol ";"))).read Rule.read c).outcome with
  | matched a m =>
    refine ⟨m.skipLayout, .inr ⟨a, m, hfirst, rfl, rfl⟩, ?_⟩
    rw [hfirst] at h
    change (Outcome.bind (Outcome.bind (Outcome.bind (Rule.endOfInput.read m.skipLayout).outcome _)
      _) _) = _ at h
    cases hend : (Rule.endOfInput.read m.skipLayout).outcome with
    | failed => rfl
    | matched | exhausted => simp [hend, Outcome.bind] at h
  | failed => exact absurd hfirst (hitems _)
  | exhausted => simp [hfirst, Outcome.bind] at h

end Phrase

/-! ## Places without layout -/

/-- Where no layout stands, the next character is no space and starts no comment. -/
theorem Layout.head_of_length_eq_zero {ch : Char} {s : List Char}
    (h : Layout.length (ch :: s) = 0) : isSpace ch = false ∧ (ch = '-' → s.head? ≠ some '-') := by
  -- Two hyphens would start a comment.
  have hhyphens : ch = '-' → s.head? ≠ some '-' := by
    rintro rfl hhead
    obtain ⟨t, rfl⟩ : ∃ t, s = '-' :: t := List.head?_eq_some_iff.1 hhead
    simp [Layout.length, lengthFrom] at h
  refine ⟨?_, hhyphens⟩
  rw [Layout.length, lengthFrom_false_cons hhyphens] at h
  by_contra hspace
  simp [hspace] at h

/-- Where nothing is skipped, the text ends or something else than layout starts. -/
theorem Cursor.head_of_clear {c : Cursor} (h : c.skipLayout = c) {ch : Char} {s : List Char}
    (hrest : c.rest = ch :: s) : Layout.isSpace ch = false ∧ (ch = '-' → s.head? ≠ some '-') := by
  have hoffset : c.offset + Layout.length c.rest = c.offset := congrArg Cursor.offset h
  rw [hrest] at hoffset
  exact Layout.head_of_length_eq_zero (by omega)

/-- A position of a text is known from its offset. -/
theorem Cursor.Reaches.eq_advance {s : List Char} {d : Cursor} (h : (start s).Reaches d) :
    d.offset ≤ s.length ∧ d = (start s).advance d.offset := by
  obtain ⟨n, hn, rfl⟩ := h
  have hoffset : ((start s).advance n).offset = n := Nat.zero_add n
  rw [hoffset]
  exact ⟨hn, rfl⟩

/-! ## Rules that fail -/

namespace Rule

variable {r : Rule}

/-- If a rule fails, some rules are listed. They were tried at the position that goes with them and
failed there, and none failed further on. -/
theorem furthest_of_failed {c : Cursor} (h : (r.read c).outcome = .failed) {f : Furthest}
    (hf : Miss.furthestAll (r.read c).misses = f) :
    f.rules ≠ [] ∧ (∀ s d, r.Tries c s d → (s.read d).outcome = .failed → d.offset ≤ f.offset) ∧
      ∀ s ∈ f.rules, ∃ d, r.Tries c s d ∧ (s.read d).outcome = .failed ∧ d.offset = f.offset := by
  have hself := (r.mem_failuresAll c).2 ⟨c, .refl, h, rfl⟩
  have htells := hf ▸ Miss.tells_furthestAll (r.read c).misses
  rcases htells with ⟨hnil, -⟩ | ⟨hne, hle, hmem⟩
  · rw [hnil] at hself
    cases hself
  · refine ⟨hne, fun s d htries hs => ?_, fun s hs => ?_⟩
    · exact hle _ ((r.mem_failuresAll c).2 ⟨d, htries, hs, rfl⟩)
    · exact (r.mem_failuresAll c).1 (hmem s hs)

end Rule

/-! ## The errors of rejected texts -/

/-- Every rule is in the list of rules. -/
theorem Rule.mem_all (r : Rule) : r ∈ all := by
  cases r with
  | binaryWord op => cases op <;> decide
  | verb v => cases v <;> decide
  | logicalWord op => cases op <;> decide
  | literalWord kind =>
    cases kind with
    | boolean value => cases value <;> decide
    | _ => decide
  | _ => decide

/-- No two rules have the same label. -/
theorem Rule.nodup_labels : (all.map label).Nodup := by decide +kernel

/-- The error is what a reader of the text by the rule `r` has to report about the characters from
the one numbered `n` on. -/
structure SyntaxError.PointsTo (e : SyntaxError) (r : Rule) (text : String) (n : Nat) : Prop where
  /-- The line and the column are those of the character. -/
  loc : e.loc = Location.start.walk (text.toList.take n)
  /-- No rule that was tried failed further on. -/
  furthest : ∀ s d, r.Tries (.start text.toList) s d → (s.read d).outcome = .failed → d.offset ≤ n
  /-- The rules that are expected were tried there and failed. -/
  failed : ∀ s ∈ e.expected, ∃ d, r.Tries (.start text.toList) s d ∧
    (s.read d).outcome = .failed ∧ d.offset = n
  /-- They are those that are listed in the end if one list is kept through all failures. -/
  tracked : ∃ rules, Miss.trackAll (r.read (.start text.toList)).misses .none = ⟨n, rules⟩ ∧
    ∀ s, s ∈ e.expected ↔ s ∈ rules
  /-- The character is one of the text, or the text ends there. -/
  le_length : n ≤ text.toList.length
  /-- It is no layout. -/
  visible : ∀ ch s, text.toList.drop n = ch :: s →
    Layout.isSpace ch = false ∧ (ch = '-' → s.head? ≠ some '-')
  /-- At least one rule is expected. -/
  expected_ne_nil : e.expected ≠ []
  /-- The message lists the names of these rules. -/
  message : e.message = "expected " ++ alternatives (e.expected.map (·.label))
  /-- They are listed in the order of the grammar. -/
  ordered : (e.expected.map (·.label)).Sublist (Rule.all.map (·.label))
  /-- Each of them is listed once. -/
  nodup : (e.expected.map (·.label)).Nodup
  /-- The end of the text comes before all rules. -/
  end_first : "EOI" ∈ e.expected.map (·.label) → (e.expected.map (·.label)).head? = some "EOI"

/-- A text is rejected because the rule fails, and never because the bound was reached. -/
theorem Rule.parse_eq_error {r : Rule} {text : String} {e : SyntaxError}
    (h : r.parse text = .error e) : (r.read (.start text.toList)).outcome = .failed ∧
    e = .ofMisses text.toList (r.read (.start text.toList)).misses := by
  unfold parse at h
  cases hread : (r.read (.start text.toList)).outcome with
  | matched value next => simp [hread] at h
  | failed =>
    simp only [hread, Except.error.injEq] at h
    exact ⟨rfl, h.symm⟩
  | exhausted => exact absurd hread (r.read_ne_exhausted _)

/-- The expected rules are those listed for the furthest place. -/
theorem SyntaxError.mem_expected {s : Rule} {text : List Char} {misses : List Miss} :
    s ∈ (ofMisses text misses).expected ↔ s ∈ (Miss.furthestAll misses).rules := by
  simp [ofMisses, s.mem_all]

/-- The rules that are expected have names in the order of the grammar, all different. -/
theorem SyntaxError.labels_expected (text : List Char) (misses : List Miss) :
    ((ofMisses text misses).expected.map (·.label)).Sublist (Rule.all.map (·.label)) ∧
      ((ofMisses text misses).expected.map (·.label)).Nodup ∧
      ("EOI" ∈ (ofMisses text misses).expected.map (·.label) →
        ((ofMisses text misses).expected.map (·.label)).head? = some "EOI") := by
  have hlabels : ((ofMisses text misses).expected.map (·.label)).Sublist
      (Rule.all.map (·.label)) := List.filter_sublist.map _
  refine ⟨hlabels, hlabels.nodup Rule.nodup_labels, fun hmem => ?_⟩
  have hfirst : Rule.all.map (·.label) = "EOI" :: (Rule.all.map (·.label)).tail := rfl
  have hothers : "EOI" ∉ (Rule.all.map (·.label)).tail :=
    (List.nodup_cons.1 (hfirst ▸ Rule.nodup_labels)).1
  rw [hfirst] at hlabels
  rcases List.sublist_cons_iff.1 hlabels with hrest | ⟨rest, hrest, -⟩
  · exact absurd (hrest.subset hmem) hothers
  · rw [hrest, List.head?_cons]

/-! ## Rules for whole texts -/

section

-- The rule calls all others after layout, and it fails only if one of them does.
variable {r : Rule} (hclear : ∀ {c s d}, r.body.Calls c s d → d.skipLayout = d)
  (hcause : ∀ {c}, (r.body.read Rule.read c).outcome = .failed →
    ∃ s d, r.body.Calls c s d ∧ (s.read d).outcome = .failed)

include hclear hcause

/-- No layout stands at the furthest position at which a rule failed. -/
theorem Rule.clear_of_furthest {text : List Char} (h : (r.read (.start text)).outcome = .failed)
    {s : Rule} {d : Cursor} (hd : r.Tries (.start text) s d)
    (hle : ∀ s' d', r.Tries (.start text) s' d' → (s'.read d').outcome = .failed →
      d'.offset ≤ d.offset) : d.skipLayout = d := by
  rcases hd.enters with rfl | ⟨-, hplace⟩
  · -- At the start of the text, another rule was called after layout and failed as well.
    rw [Rule.read_eq, Reading.outcome_settle] at h
    obtain ⟨s', d', hcall, hs'⟩ := hcause h
    have hzero : d'.offset = 0 := Nat.le_zero.1 (hle s' d' (.single hcall) hs')
    have hstart : d' = .start text := by
      rw [hcall.enters.reaches.eq_advance.2, hzero, Cursor.advance_zero]
    rw [← hstart]
    exact hclear hcall
  · exact hplace

/-- Every error of a rejected text points to some place of the text. -/
theorem Rule.exists_pointsTo {text : String} {e : SyntaxError} (h : r.parse text = .error e) :
    ∃ n, e.PointsTo r text n := by
  obtain ⟨hfail, rfl⟩ := Rule.parse_eq_error h
  obtain ⟨f, hf⟩ : ∃ f, Miss.furthestAll (r.read (.start text.toList)).misses = f := ⟨_, rfl⟩
  obtain ⟨hne, hfurthest, hfailed⟩ := Rule.furthest_of_failed hfail hf
  have hexpected : ∀ s, s ∈ (SyntaxError.ofMisses text.toList
      (r.read (.start text.toList)).misses).expected ↔ s ∈ f.rules := by
    intro s
    rw [SyntaxError.mem_expected, hf]
  -- One of the rules that are listed shows the place.
  obtain ⟨s, hs⟩ := List.exists_mem_of_ne_nil _ hne
  obtain ⟨d, htries, -, hd⟩ := hfailed s hs
  obtain ⟨hlen, hat⟩ := htries.enters.reaches.eq_advance
  have hplace : d.skipLayout = d :=
    Rule.clear_of_furthest hclear hcause hfail htries (hd ▸ hfurthest)
  obtain ⟨hordered, hnodup, hfirst⟩ :=
    SyntaxError.labels_expected text.toList (r.read (.start text.toList)).misses
  refine ⟨f.offset, ?_, hfurthest, ?_, ?_, hd ▸ hlen, ?_, ?_, rfl, hordered, hnodup, hfirst⟩
  · -- The place in lines and columns.
    rw [Location.walk_eq_after, ← hf]
    rfl
  · intro s hs
    exact hfailed s ((hexpected s).1 hs)
  · -- The rules that are listed when one list is kept.
    refine ⟨f.rules, ?_, hexpected⟩
    rw [Miss.trackAll_eq, Furthest.none_merge, hf]
  · -- What stands at the place is no layout.
    intro ch rest hrest
    rw [← hd] at hrest
    exact Cursor.head_of_clear hplace (by rw [hat]; exact hrest)
  · exact List.ne_nil_of_mem ((hexpected s).2 hs)

end

/-- Every error of a text that is rejected points to the furthest character at which a rule failed.
This is a character of the text that is no layout, or the end of the text, and at least one rule is
expected there. -/
theorem parse_errors_located (text : String) :
    (∀ e, parseProgram text = .error e → ∃ n, e.PointsTo .program text n) ∧
    ∀ e, parseDeclarations text = .error e → ∃ n, e.PointsTo .declarations text n := by
  constructor
  · intro e he
    refine Rule.exists_pointsTo (r := .program) Phrase.Calls.clear_of_list (fun hfail => ?_) he
    exact ⟨.endOfInput, Phrase.exists_calls_of_list_failed hfail⟩
  · intro e he
    refine Rule.exists_pointsTo (r := .declarations) Phrase.Calls.clear_of_list (fun hfail => ?_) he
    exact ⟨.endOfInput, Phrase.exists_calls_of_list_failed hfail⟩

/-- A program that goes wrong after a comment, and a declaration without a type. -/
theorem parse_errors_located_after_comment :
    (∃ e n, parseProgram " --\n)" = .error e ∧ e.PointsTo .program " --\n)" n ∧
      e.loc = ⟨2, 1⟩ ∧ e.message = "expected EOI or read_only") ∧
    ∃ e n, parseDeclarations "R.a;" = .error e ∧ e.PointsTo .declarations "R.a;" n ∧
      e.loc = ⟨1, 1⟩ ∧ e.message = "expected declarations" := by
  have hprogram : parseProgram " --\n)" = .error ⟨⟨2, 1⟩, [.endOfInput, .query]⟩ := by rfl
  have hdeclarations : parseDeclarations "R.a;" = .error ⟨⟨1, 1⟩, [.declarations]⟩ := by rfl
  obtain ⟨n, hn⟩ := (parse_errors_located _).1 _ hprogram
  obtain ⟨m, hm⟩ := (parse_errors_located _).2 _ hdeclarations
  exact ⟨⟨_, n, hprogram, hn, rfl, by decide⟩, _, m, hdeclarations, hm, rfl, by decide⟩

end RelAlgebra
