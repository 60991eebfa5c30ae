import RelAlgebra.Proofs.Analysis.Places

/-!
# No text spells the name of a slot

A name with a character that may not stand in names is not read as a name anywhere, so that neither
queries nor declarations can hold it (`unspelled_of_not_spellable`). The name of a slot is such a
name if its stem was accepted.

The test of stems is no stricter than it has to be, except for stems that start like no name. The
rule for names reads the name of a slot as a whole exactly if it reads the stem as a whole
(`Slots.isName_name_iff`).
-/

namespace RelAlgebra

namespace Shape

/-- No name starts with a digit. -/
theorem not_isNameStart_of_isDigit {c : Char} (h : c.isDigit = true) : isNameStart c ≠ true := by
  intro hstart
  rcases Bool.or_eq_true_iff.1 hstart with halpha | hunderscore
  · rw [isDigit_of_isAlpha halpha] at h
    cases h
  · rw [of_decide_eq_true hunderscore] at h
    exact absurd h (by decide)

/-- Words for names, for relations and attributes, and for types hold only characters of names. -/
theorem Admits.spellable {shape : Shape} (hshape : shape ∈ [name, identifier, typeName])
    {text : String} (h : shape.Admits text.toList) : Spellable text := by
  simp only [List.mem_cons, List.not_mem_nil, or_false] at hshape
  rcases hshape with rfl | rfl | rfl
  · exact IsName.isNameChar h fun _ => isNameChar_of_isNameStart
  · exact IsName.isNameChar h.1 fun _ => isNameChar_of_isNameStart
  · exact IsName.isNameChar h fun _ => isNameChar_of_isAlpha

end Shape

/-- The rule for names matches where the shape of names does. -/
theorem Rule.read_name_eq_matched {c d : Cursor} {l : Lexeme} :
    (Rule.name.read c).outcome = .matched l d ↔
      ∃ n, Shape.name.length? c.rest = some n ∧ l = ⟨String.ofList (c.rest.take n), c.loc⟩ ∧
        d = c.advance n := by
  have hbody : (Rule.name.read c).outcome = ((Phrase.word .name).read Rule.read c).outcome := by
    rw [Rule.read_eq, Reading.outcome_settle]
    rfl
  rw [hbody, Phrase.read]
  cases Shape.name.length? c.rest with
  | none => simp
  | some n => simp [eq_comm]

/-- The rule for names reads a text as a whole exactly if the text is a name. -/
theorem Rule.exists_read_name_iff (s : List Char) :
    (∃ l d, (Rule.name.read (.start s)).outcome = .matched l d ∧ d.rest = []) ↔
      Shape.IsName Shape.isNameStart s := by
  constructor
  · rintro ⟨l, d, h, hd⟩
    obtain ⟨n, hn, -, rfl⟩ := Rule.read_name_eq_matched.1 h
    have hall : s.take n = s := List.take_of_length_le (List.drop_eq_nil_iff.1 hd)
    have hname := Shape.isName_of_nameLength? hn
    rwa [Cursor.start, hall] at hname
  · intro h
    have hn : Shape.name.length? s = some s.length := by
      have hend := Shape.length?_of_admits (Shape.Halts.ends (r := []) nofun .name) h
      rwa [List.append_nil] at hend
    exact ⟨_, _, Rule.read_name_eq_matched.2 ⟨_, hn, rfl, rfl⟩, List.drop_length⟩

/-- No text spells the name. -/
structure Unspelled (name : String) : Prop where
  /-- The rule for names does not read it as a whole. -/
  whole : ¬ ∃ l d, (Rule.name.read (.start name.toList)).outcome = .matched l d ∧ d.rest = []
  /-- Wherever in a text a name is read, it is another one. -/
  names : ∀ c l d, (Rule.name.read c).outcome = .matched l d → l.text ≠ name
  /-- Words for names, for relations and attributes, and for types are other ones as well. -/
  words : ∀ shape ∈ [Shape.name, .identifier, .typeName], ∀ s n, shape.length? s = some n →
    String.ofList (s.take n) ≠ name
  queries : ∀ text qs, parseProgram text = .ok qs → ∀ q ∈ qs, ∀ m ∈ q.marks, m.role = .name →
    m.lexeme.text ≠ name
  declarations : ∀ text ds, parseDeclarations text = .ok ds →
    ∀ d ∈ ds, d.relation ≠ name ∧ d.attr ≠ name

/-- The names in the queries of a program text can be spelled. -/
theorem parseProgram_spelled_marks {text : String} {qs : List Query}
    (h : parseProgram text = .ok qs) {q : Query} (hq : q ∈ qs) {m : Mark} (hm : m ∈ q.marks)
    (hrole : m.role = .name) : Spellable m.lexeme.text := by
  obtain ⟨ws, hws, hamong⟩ := parseProgram_words h
  obtain ⟨us, hus, hsub⟩ := List.sublistForall₂_iff.1 hamong
  obtain ⟨w, hw, hshape, hlexeme⟩ :=
    exists_mem_of_forall₂ hus (List.mem_flatMap.2 ⟨q, hq, hm⟩)
  have hidentifier : w.shape = .identifier := by
    rw [hrole] at hshape
    exact List.mem_singleton.1 hshape
  have hadmits := (hws.exists_offset (hsub.subset hw)).1
  rw [hlexeme, hidentifier] at hadmits
  exact Shape.Admits.spellable (by simp) hadmits

/-- A name with a character that may not stand in names is spelled by no text. -/
theorem unspelled_of_not_spellable {name : String} (h : ¬ Spellable name) : Unspelled name := by
  -- What a shape for names measures follows its lexical rule, and so can be spelled.
  have hwords : ∀ shape ∈ [Shape.name, .identifier, .typeName], ∀ s n, shape.length? s = some n →
      String.ofList (s.take n) ≠ name := by
    rintro shape hshape s n hn rfl
    have hlisted : shape.listed = true := by
      simp only [List.mem_cons, List.not_mem_nil, or_false] at hshape
      rcases hshape with rfl | rfl | rfl <;> rfl
    have hadmits := Shape.admits_of_length? hlisted hn
    rw [← String.toList_ofList (l := s.take n)] at hadmits
    exact h (hadmits.spellable hshape)
  refine ⟨fun hwhole => ?_, ?_, hwords, ?_, ?_⟩
  · -- A text that is read as a whole is a name.
    have hname : Shape.name.Admits name.toList := (Rule.exists_read_name_iff _).1 hwhole
    exact h (hname.spellable (by simp))
  · intro c l d hread
    obtain ⟨n, hn, rfl, -⟩ := Rule.read_name_eq_matched.1 hread
    exact hwords .name (by simp) _ n hn
  · rintro text qs hqs q hq m hm hrole rfl
    exact h (parseProgram_spelled_marks hqs hq hm hrole)
  · intro text ds hds d hd
    obtain ⟨hrelation, hattr⟩ := parseDeclarations_spelled hds d hd
    exact ⟨fun heq => h (heq ▸ hrelation), fun heq => h (heq ▸ hattr)⟩

namespace Slots

/-- The name of a slot can be read as a name exactly if its stem can. -/
theorem isName_name_iff (s : Slots) (n : Nat) :
    Shape.IsName Shape.isNameStart (s.name n).toList ↔
      Shape.IsName Shape.isNameStart s.stem.toList := by
  have hdigits : ∀ c ∈ (toString n).toList, c.isDigit = true := fun _ => isDigit_of_mem_toString
  rw [name, String.toList_append]
  cases s.stem.toList with
  | nil =>
    -- Without a stem, the name is empty or starts with a digit.
    refine iff_of_false ?_ id
    cases hnumber : (toString n).toList with
    | nil => exact id
    | cons c digits =>
      rw [hnumber] at hdigits
      exact fun h => Shape.not_isNameStart_of_isDigit (hdigits c (List.mem_cons_self ..)) h.1
  | cons c stem =>
    rw [List.cons_append]
    refine and_congr_right fun _ => ?_
    rw [List.forall_mem_append]
    exact and_iff_left fun d hd => Shape.isNameChar_of_isDigit (hdigits d hd)

end Slots

/-- An accepted stem is used as it is. -/
theorem Config.stem_of_ofStem {stem : String} {config : Config} (h : ofStem stem = .ok config) :
    config.stem = stem := by
  unfold ofStem at h
  split at h
  · rw [← Except.ok.inj h]
  · cases h

/-- The names of slots are not confused with each other or with names in texts.

Slots have one name only if they have one stem and one number, or if one of the stems is the other
one followed by digits. So slots of one stem have different names.

The rule for names reads the name of a slot as a whole exactly if the stem is a name. If the stem
was accepted, no text spells the name of a slot. -/
theorem Slots.names_apart :
    (∀ (s t : Slots) (m n : Nat), s.name m = t.name n →
      (s.stem = t.stem ∧ m = n) ∨ Continues s.stem t.stem ∨ Continues t.stem s.stem) ∧
    (∀ s : Slots, Function.Injective s.name) ∧
    (∀ (s : Slots) (n : Nat),
      (∃ l d, (Rule.name.read (.start (s.name n).toList)).outcome = .matched l d ∧ d.rest = []) ↔
        Shape.IsName Shape.isNameStart s.stem.toList) ∧
    ∀ (stem : String) (config : Config), Config.ofStem stem = .ok config →
      ∀ (s : Slots) (n : Nat), s.stem = stem → Unspelled (s.name n) := by
  refine ⟨fun s t m n => append_toString_cases, fun s m n => s.name_inj.1, fun s n => ?_, ?_⟩
  · rw [Rule.exists_read_name_iff, isName_name_iff]
  · intro stem config hconfig s n hs
    have hname : s.name n = config.stem ++ toString n := by
      rw [name, hs, Config.stem_of_ofStem hconfig]
    rw [hname]
    exact unspelled_of_not_spellable (config.not_spellable n)

/-- The second slot of the stem `$a1` has the name of the twelfth one of the stem `$a`, which no
text spells. A slot of the stem `tmp`, which is refused, would have a name that texts can spell. -/
theorem Slots.names_apart_digits :
    ((⟨"$a1", 0⟩ : Slots).name 2 = (⟨"$a", 0⟩ : Slots).name 12 ∧
      (Continues "$a1" "$a" ∨ Continues "$a" "$a1")) ∧
    ((Config.ofStem "$a").isOk = true ∧ Unspelled ((⟨"$a", 0⟩ : Slots).name 12)) ∧
    (Config.ofStem "tmp").isOk = false ∧
      ∃ l d, (Rule.name.read (.start ((⟨"tmp", 0⟩ : Slots).name 1).toList)).outcome =
        .matched l d ∧ d.rest = [] := by
  have hsame : (⟨"$a1", 0⟩ : Slots).name 2 = (⟨"$a", 0⟩ : Slots).name 12 := by decide
  obtain ⟨hstems, -, hwhole, hunspelled⟩ := names_apart
  refine ⟨⟨hsame, ?_⟩, ⟨rfl, hunspelled "$a" ⟨"$a", by decide⟩ rfl _ 12 rfl⟩, rfl, ?_⟩
  · exact (hstems _ _ _ _ hsame).resolve_left fun h => absurd h.2 (by decide)
  · exact (hwhole ⟨"tmp", 0⟩ 1).2 (by decide)

end RelAlgebra
