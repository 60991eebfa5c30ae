import RelAlgebra.Proofs.Analysis.Refinement

/-!
# Sessions

A session works on one catalog: programs are analyzed, the diagnostics are forgotten, and analyses
are started anew with other settings. What a slot has received stays. `Analyzer.slot_immutable`
says this of every session: the relation of a slot never changes, and its name is bound anew only by
a later analyzer that takes a slot of the same name.

An action either extends the state or starts it anew, and in both cases leaves the relations alone
that are there. That the relation of a slot is there at all is the invariant `Analyzer.Tidy`.
-/

namespace RelAlgebra

/-- What is done in a session. -/
inductive Action where
  /-- Analyzes a program text. -/
  | analyze (text : String)
  /-- Forgets the diagnostics. -/
  | clear
  /-- Starts anew on the catalog as it is. -/
  | restart (config : Config)

namespace Analyzer

/-- The state after an analysis of what was read. If it is not a program, nothing is done. -/
def attempt (a : Analyzer) : Except SyntaxError (List Query) → Analyzer
  | .ok program => a.after program
  | .error _ => a

/-- The state after an action. -/
def perform (a : Analyzer) : Action → Analyzer
  | .analyze text => a.attempt (parseProgram text)
  | .clear => a.clear
  | .restart config => a.restart config

/-- The state after actions, one after the other. -/
def performAll (a : Analyzer) (actions : List Action) : Analyzer := actions.foldl perform a

/-- The last of several actions is performed after the others. -/
theorem performAll_concat (a : Analyzer) (actions : List Action) (action : Action) :
    a.performAll (actions ++ [action]) = (a.performAll actions).perform action := by
  unfold performAll
  rw [List.foldl_append, List.foldl_cons, List.foldl_nil]

variable {a b : Analyzer}

/-! ## What an action changes -/

/-- An action extends the state, unless it starts it anew. -/
theorem extends_perform (a : Analyzer) {action : Action}
    (h : ∀ config, action ≠ .restart config) : a.Extends (a.perform action) := by
  cases action with
  | analyze text =>
    rw [perform]
    cases parseProgram text with
    | ok program => exact a.extends_after program
    | error e => exact .refl a
  | clear => exact extends_of_eq rfl rfl
  | restart config => exact absurd rfl (h config)

/-- Every relation that is there stays there, unchanged. -/
theorem entry_perform (a : Analyzer) (action : Action) {handle : Handle} {s : Schema}
    (h : a.catalog.arena[handle]? = some s) :
    (a.perform action).catalog.arena[handle]? = some s := by
  cases action with
  | restart config => exact h
  | analyze | clear =>
    obtain ⟨hlt, -⟩ := Array.getElem?_eq_some_iff.1 h
    rw [(a.extends_perform (by simp)).entry handle hlt, h]

/-- No action changes a relation that is there. -/
theorem entry_performAll (a : Analyzer) (actions : List Action) {handle : Handle} {s : Schema}
    (h : a.catalog.arena[handle]? = some s) :
    (a.performAll actions).catalog.arena[handle]? = some s := by
  unfold performAll
  induction actions generalizing a with
  | nil => exact h
  | cons action actions ih => exact ih _ (a.entry_perform action h)

/-- A name that is bound anew is that of a slot that an analysis has taken. -/
theorem exists_slot_of_handle_ne (a : Analyzer) {action : Action} {name : String}
    (h : (a.perform action).catalog.handle? name ≠ a.catalog.handle? name) :
    (∃ text, action = .analyze text) ∧
      ∃ n, a.slots.last < n ∧ n ≤ (a.perform action).slots.last ∧ name = a.slots.name n := by
  cases action with
  | analyze text => exact ⟨⟨text, rfl⟩, (a.extends_perform (by simp)).exists_of_handle_ne h⟩
  | clear | restart => exact absurd rfl h

/-- After some actions the analyzer is the one of the last restart, or there was none and the state
was extended. -/
theorem performAll_cases (a : Analyzer) (actions : List Action) :
    (∃ config, .restart config ∈ actions ∧ (a.performAll actions).slots.stem = config.stem) ∨
      ((∀ config, .restart config ∉ actions) ∧ a.Extends (a.performAll actions)) := by
  induction actions generalizing a with
  | nil => exact .inr ⟨by simp, .refl a⟩
  | cons action actions ih =>
    rcases ih (a.perform action) with ⟨config, hmem, hstem⟩ | ⟨hnone, hext⟩
    · exact .inl ⟨config, List.mem_cons_of_mem _ hmem, hstem⟩
    · cases action with
      -- No restart comes later, so that the analyzer is the one of this restart.
      | restart config => exact .inl ⟨config, List.mem_cons_self .., hext.stem⟩
      | analyze | clear =>
        exact .inr ⟨by simpa using hnone, (a.extends_perform (by simp)).trans hext⟩

/-! ## The slots of a session -/

/-- No handle dangles, the names of slots cannot be spelled, and every slot that was taken is
bound. -/
structure Tidy (a : Analyzer) : Prop where
  inRange : a.catalog.InRange
  stem : ∃ config : Config, a.slots.stem = config.stem
  bound : ∀ n, 0 < n → n ≤ a.slots.last → (a.slotHandle? n).isSome = true

/-- A state in which no slot was taken yet. -/
theorem tidy_of_slots_eq {config : Config} (h : a.catalog.InRange)
    (hslots : a.slots = ⟨config.stem, 0⟩) : a.Tidy where
  inRange := h
  stem := ⟨config, by rw [hslots]⟩
  bound n hpos hle := by
    rw [hslots] at hle
    exact absurd hpos (Nat.not_lt.2 hle)

/-- No handle dangles after an analysis. -/
theorem Infers.inRange {known : String → Prop} {env : Environment} {parts : List Operand}
    {ds : List Diagnostic} (h : Infers known env a b parts ds) (ha : a.catalog.InRange) :
    b.catalog.InRange := by
  rw [Catalog.inRange_iff] at *
  intro name handle hname
  by_cases hsame : b.catalog.handle? name = a.catalog.handle? name
  · have hlt := ha name handle (hsame.symm.trans hname)
    have hsize := h.ext.size
    have hlast := h.ext.last_le
    exact Nat.lt_of_lt_of_le hlt (by omega)
  · -- The name is that of a new slot, which holds a relation.
    obtain ⟨n, hlt, hle, rfl⟩ := h.ext.exists_of_handle_ne hsame
    have hi : n - a.slots.last - 1 < parts.length := by
      rw [h.last] at hle
      omega
    obtain ⟨handle', hhandle', hentry, -⟩ := h.slot _ _ (List.getElem?_eq_getElem hi)
    rw [show a.slots.last + 1 + (n - a.slots.last - 1) = n by omega, hname,
      Option.some.injEq] at hhandle'
    obtain ⟨hlt', -⟩ := Array.getElem?_eq_some_iff.1 hentry
    exact hhandle' ▸ hlt'

/-- An extension of a tidy state without dangling handles is tidy. -/
theorem Tidy.extends (ha : a.Tidy) (h : a.Extends b) (hb : b.catalog.InRange) : b.Tidy where
  inRange := hb
  stem := by
    obtain ⟨config, hstem⟩ := ha.stem
    exact ⟨config, h.stem.trans hstem⟩
  bound n hpos hle := by
    unfold slotHandle?
    rw [h.name_eq]
    -- The slot was taken before, or in between.
    by_cases hn : n ≤ a.slots.last
    · rw [h.handle_name hn]
      exact ha.bound n hpos hn
    · exact h.bound n (by omega) hle

/-- An action keeps the state tidy. -/
theorem Tidy.perform (ha : a.Tidy) (action : Action) : (a.perform action).Tidy := by
  cases action with
  | analyze text =>
    rw [Analyzer.perform]
    cases hprogram : parseProgram text with
    | ok program =>
      -- The analysis goes through, since no handle dangles.
      obtain ⟨config, hstem⟩ := ha.stem
      obtain ⟨b, hb, hab⟩ := Analysis.infers_program program (reads_spellable hstem ha.inRange)
        (parseProgram_spelled hprogram)
      have hafter : a.after program = b := by rw [after, hb]
      rw [attempt, hafter]
      exact ha.extends hab.ext (hab.inRange ha.inRange)
    | error e => exact ha
  | clear => exact ha.extends (extends_of_eq rfl rfl) ha.inRange
  | restart config => exact tidy_of_slots_eq ha.inRange rfl

/-- Actions one after the other keep the state tidy. -/
theorem Tidy.performAll (ha : a.Tidy) (actions : List Action) : (a.performAll actions).Tidy := by
  unfold Analyzer.performAll
  induction actions generalizing a with
  | nil => exact ha
  | cons action actions ih => exact ih (ha.perform action)

/-- A slot that was taken has a relation. -/
theorem Tidy.exists_relation (ha : a.Tidy) {n : Nat} (hpos : 0 < n) (hle : n ≤ a.slots.last) :
    ∃ handle s, a.slotHandle? n = some handle ∧ a.catalog.arena[handle]? = some s := by
  obtain ⟨handle, hhandle⟩ := Option.isSome_iff_exists.1 (ha.bound n hpos hle)
  have hlt := (Catalog.inRange_iff _).1 ha.inRange _ _ hhandle
  exact ⟨handle, _, hhandle, Array.getElem?_eq_getElem hlt⟩

/-- A slot that was taken keeps its name to itself as long as the analyzer is the same. -/
theorem Extends.name_ne (h : a.Extends b) {m n : Nat} (hn : n ≤ a.slots.last)
    (hm : b.slots.last < m) : a.slots.name n ≠ b.slots.name m := by
  rw [h.name_eq, Ne, a.slots.name_inj]
  have hlast := h.last_le
  omega

/-- What a slot has received stays. In a session on a catalog without dangling handles, take any
state and any slot that its analyzer has taken up to then. The slot has a relation, which no later
action changes. Without a restart the name of the slot stays bound to it. An action that binds that
name anew is an analysis, by the analyzer of a later restart, which takes a slot of the same name.
Then the two stems are the same, or one of them continues the other with digits. -/
theorem slot_immutable {catalog : Catalog} (hrange : catalog.InRange) (config : Config)
    (before : List Action) (ha : (start catalog config).performAll before = a) {k : Nat}
    (hpos : 0 < k) (hk : k ≤ a.slots.last) :
    ∃ handle s, a.slotHandle? k = some handle ∧ a.catalog.arena[handle]? = some s ∧
      ∀ later, (a.performAll later).catalog.arena[handle]? = some s ∧
        ((∀ config, .restart config ∉ later) →
          (a.performAll later).catalog.handle? (a.slots.name k) = some handle) ∧
        ∀ action, (a.performAll (later ++ [action])).catalog.handle? (a.slots.name k) ≠
            (a.performAll later).catalog.handle? (a.slots.name k) →
          ∃ text config m, action = .analyze text ∧ .restart config ∈ later ∧
            (a.performAll later).slots.stem = config.stem ∧
            (a.performAll later).slots.last < m ∧
            m ≤ (a.performAll (later ++ [action])).slots.last ∧
            config.stem ++ toString m = a.slots.stem ++ toString k ∧
            ((config.stem = a.slots.stem ∧ m = k) ∨ Slots.Continues config.stem a.slots.stem ∨
              Slots.Continues a.slots.stem config.stem) := by
  have htidy : a.Tidy := by
    rw [← ha]
    have hstart : (start catalog config).Tidy := tidy_of_slots_eq hrange rfl
    exact hstart.performAll before
  obtain ⟨handle, s, hhandle, hentry⟩ := htidy.exists_relation hpos hk
  refine ⟨handle, s, hhandle, hentry, fun later => ⟨a.entry_performAll later hentry, ?_, ?_⟩⟩
  · -- Without a restart the state is only extended, which leaves the names of slots alone.
    intro hnone
    rcases a.performAll_cases later with ⟨config, hmem, -⟩ | ⟨-, hext⟩
    · exact absurd hmem (hnone config)
    · exact (hext.handle_name hk).trans hhandle
  · -- The action takes a slot of that name, and so it is not one of the same analyzer.
    intro action hne
    rw [performAll_concat] at hne ⊢
    obtain ⟨⟨text, haction⟩, m, hlt, hle, hname⟩ := exists_slot_of_handle_ne _ hne
    rcases a.performAll_cases later with ⟨config, hmem, hstem⟩ | ⟨-, hext⟩
    · have hsame : config.stem ++ toString m = a.slots.stem ++ toString k := by
        rw [← hstem]
        exact hname.symm
      exact ⟨text, config, m, haction, hmem, hstem, hlt, hle, hsame,
        Slots.append_toString_cases hsame⟩
    · exact absurd hname (hext.name_ne hk hlt)

set_option maxRecDepth 1000 in
/-- A new analyzer with the same stem takes the name of the slot, and its relation stays. -/
theorem slot_immutable_restart :
    ∃ a : Analyzer,
      (start ⟨#[⟨[⟨"a", .int⟩, ⟨"b", .int⟩]⟩], .ofList [("R", 0)]⟩ .standard).performAll
        [.analyze "project(a)(R)"] = a ∧
      a.slots.last = 1 ∧ a.slotHandle? 1 = some 1 ∧
      (a.performAll ([.restart .standard] ++ [.analyze "closure(R)"])).catalog.handle? "$slot1" =
        some 0 ∧
      (a.performAll ([.restart .standard] ++ [.analyze "closure(R)"])).catalog.arena[1]? =
        a.catalog.arena[1]? ∧
      ∃ m, (a.performAll [.restart .standard]).slots.last < m ∧
        m ≤ (a.performAll ([.restart .standard] ++ [.analyze "closure(R)"])).slots.last ∧
        (a.performAll [.restart .standard]).slots.name m = a.slots.name 1 := by
  have hproject : parseProgram "project(a)(R)" = .ok
      [.unary (.project [⟨"a", ⟨1, 9⟩⟩]) ⟨"project", ⟨1, 1⟩⟩ (.relation ⟨"R", ⟨1, 12⟩⟩)] := by rfl
  have hclosure : parseProgram "closure(R)" = .ok
      [.unary .closure ⟨"closure", ⟨1, 1⟩⟩ (.relation ⟨"R", ⟨1, 9⟩⟩)] := by rfl
  have hanalyze (a : Analyzer) (actions : List Action) {text : String} {program : List Query}
      (h : parseProgram text = .ok program) :
      a.performAll (actions ++ [.analyze text]) = (a.performAll actions).after program := by
    rw [performAll_concat, perform, h, attempt]
  -- The states after the first analysis and after the second one.
  have hfirst := hanalyze
    (start ⟨#[⟨[⟨"a", .int⟩, ⟨"b", .int⟩]⟩], .ofList [("R", 0)]⟩ .standard) [] hproject
  have hsecond (a : Analyzer) := hanalyze a [.restart .standard] hclosure
  obtain ⟨handle, s, hhandle, hentry, hlater⟩ :=
    slot_immutable (by decide) .standard _ hfirst (k := 1) (by decide) (by decide)
  obtain rfl : 1 = handle := Option.some.inj hhandle
  obtain ⟨-, -, hchange⟩ := hlater [.restart .standard]
  obtain ⟨text, config, m, -, -, hstem, hlt, hle, hsame, -⟩ := hchange (.analyze "closure(R)") (by
    rw [hsecond]
    decide)
  refine ⟨_, hfirst, rfl, rfl, ?_, ?_, m, hlt, hle, ?_⟩
  · rw [hsecond]
    rfl
  · rw [hentry]
    exact (hlater _).1
  · rw [Slots.name, hstem]
    exact hsame

end Analyzer

end RelAlgebra
