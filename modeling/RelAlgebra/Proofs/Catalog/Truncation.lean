import RelAlgebra.Proofs.Catalog.Exactness

/-!
# Truncated snapshots

A reader sees the end of the bytes in one way only, by running short of them. Every other answer
that it gives, it also gives when more bytes follow: `Settles`. A snapshot is read to its last byte,
so a reader that gets less of it cannot have given its answer yet, and it runs short.

With `Reads`, which says what is left after a snapshot, it follows that no snapshot is the start of
a longer one, and that a snapshot belongs to one catalog only.
-/

namespace RelAlgebra.Snapshot

variable {α β : Type} {bs rest : List UInt8}

/-- The bytes ended too early. -/
def Fault.Short : Fault → Prop
  | .shortNumber | .shortText => True
  | .badText _ | .badType _ => False

/-- Every answer, but that the bytes ended too early, stays the same when more bytes follow. -/
structure Settles (item : Reader α) : Prop where
  ok : ∀ {bs rest : List UInt8} {a : α}, item bs = .ok (a, rest) →
    ∀ t, item (bs ++ t) = .ok (a, rest ++ t)
  error : ∀ {bs : List UInt8} {fault : Fault}, item bs = .error fault → ¬ fault.Short →
    ∀ t, item (bs ++ t) = .error fault

/-- After a value the second reader goes on with the bytes that are left. -/
theorem bind_of_ok {x : Reader α} {a : α} (h : x bs = .ok (a, rest)) (f : α → Reader β) :
    (x >>= f) bs = f a rest := by
  change (x bs >>= fun p => f p.1 p.2) = _
  rw [h]
  rfl

/-- After a fault nothing more is read. -/
theorem bind_of_error {x : Reader α} {fault : Fault} (h : x bs = .error fault)
    (f : α → Reader β) : (x >>= f) bs = .error fault := by
  change (x bs >>= fun p => f p.1 p.2) = _
  rw [h]
  rfl

/-- A value that is given does not depend on the bytes. -/
theorem settles_pure (a : α) : Settles (pure a : Reader α) where
  ok h t := by
    obtain ⟨rfl, rfl⟩ := Prod.mk.inj (Except.ok.inj h)
    rfl
  error h := nomatch h

/-- A fault that is given does not depend on the bytes. -/
theorem settles_throw (fault : Fault) : Settles (throw fault : Reader α) where
  ok h := nomatch h
  error h _ t := by
    obtain rfl := Except.error.inj h
    rfl

/-- Readers one after the other settle if each of them does. -/
theorem Settles.bind {x : Reader α} {f : α → Reader β} (hx : Settles x)
    (hf : ∀ a, Settles (f a)) : Settles (x >>= f) where
  ok {bs rest b} h t := by
    obtain ⟨a, mid, hxa, hfa⟩ := exists_of_bind_eq_ok h
    rw [bind_of_ok (hx.ok hxa t)]
    exact (hf a).ok hfa t
  error {bs fault} h hlong t := by
    cases hxa : x bs with
    | error fault' =>
      -- The first reader has given its fault already.
      rw [bind_of_error hxa] at h
      obtain rfl := Except.error.inj h
      exact bind_of_error (hx.error hxa hlong t) f
    | ok p =>
      -- The first reader has settled, and the fault is that of the second one.
      rw [bind_of_ok hxa] at h
      rw [bind_of_ok (hx.ok hxa t)]
      exact (hf p.1).error h hlong t

/-- A function of the value settles with the reader. -/
theorem Settles.map {x : Reader α} (hx : Settles x) (g : α → β) : Settles (g <$> x) :=
  hx.bind (f := fun a => pure (g a)) fun a => settles_pure (g a)

/-- Once there are enough bytes, those after them do not matter. -/
theorem settles_take (fault : Fault) (h : fault.Short) (count : Nat) :
    Settles (take fault count) where
  ok {bs rest a} htake t := by
    obtain ⟨rfl, rfl⟩ := exact_take fault count htake
    have hlen : ¬ (id a ++ rest ++ t).length < a.length := by simp
    rw [take, if_neg hlen, List.append_assoc]
    simp
  error {bs fault'} htake hlong t := by
    unfold take at htake
    split at htake
    · obtain rfl := Except.error.inj htake
      exact absurd h hlong
    · cases htake

/-- A number settles with the last of its bytes. -/
theorem settles_number (width : Nat) : Settles (readNumber width) :=
  (settles_take .shortNumber trivial width).map ofBytes

/-- Items settle one after the other. -/
theorem settles_items {item : Reader α} (h : Settles item) (count : Nat) :
    Settles (readItems item count) := by
  induction count with
  | zero => exact settles_pure []
  | succ count ih => exact h.bind fun a => ih.bind fun as => settles_pure (a :: as)

/-- A list settles, for its length stands before its items. -/
theorem settles_list {item : Reader α} (h : Settles item) : Settles (readList item) :=
  (settles_number 8).bind (settles_items h)

/-! ## The parts of a catalog -/

/-- The length of a text is known before its bytes are looked at. -/
theorem settles_text : Settles readText := by
  refine (settles_number 8).bind fun count => ?_
  refine (settles_take .shortText trivial count).bind fun bs => ?_
  cases Utf8.decode bs with
  | error fault => exact settles_throw (.badText fault)
  | ok s => exact settles_pure (String.ofList s)

/-- The number of a type is known before its name, if it has one. -/
theorem settles_type : Settles readType := by
  refine (settles_number 4).bind fun code => ?_
  -- A known type, the number that announces a name, or a number of no type.
  cases DataType.known[code]? with
  | some t => exact settles_pure t
  | none =>
    by_cases hcode : code = DataType.known.length
    · simp only [if_pos hcode]
      exact settles_text.map DataType.other
    · simp only [if_neg hcode]
      exact settles_throw (.badType code)

/-- An attribute settles with its type. -/
theorem settles_attr : Settles readAttr :=
  settles_text.bind fun name => settles_type.bind fun type => settles_pure (Attribute.mk name type)

/-- A schema settles with its last attribute. -/
theorem settles_schema : Settles readSchema := (settles_list settles_attr).map Schema.mk

/-- A binding settles with its handle. -/
theorem settles_binding : Settles readBinding :=
  settles_text.bind fun name => (settles_number 8).bind fun handle => settles_pure (name, handle)

/-- A catalog settles with its last binding. -/
theorem settles_catalog : Settles readCatalog :=
  (settles_list settles_schema).bind fun arena => (settles_list settles_binding).bind fun entries =>
    settles_pure (Catalog.mk arena.toArray (.ofList entries))

/-! ## Cutting a snapshot -/

/-- Less than what a reader takes leaves it short. -/
theorem Settles.exists_short {item : Reader α} (h : Settles item) {a : α} (hread : Reads item bs a)
    {n : Nat} (hn : n < bs.length) :
    ∃ fault : Fault, fault.Short ∧ item (bs.take n) = .error fault := by
  have hfull : item (bs.take n ++ bs.drop n) = .ok (a, []) := by
    have hnil := hread []
    rw [List.append_nil] at hnil
    rw [List.take_append_drop, hnil]
  cases hcut : item (bs.take n) with
  | ok p =>
    -- An answer would leave the bytes that were cut off, but nothing is left of all bytes.
    have hmore : item (bs.take n ++ bs.drop n) = .ok (p.1, p.2 ++ bs.drop n) := h.ok hcut _
    rw [hfull] at hmore
    have hnil : [] = p.2 ++ bs.drop n := (Prod.mk.inj (Except.ok.inj hmore)).2
    have hlen := congrArg List.length hnil
    simp only [List.length_nil, List.length_append, List.length_drop] at hlen
    omega
  | error fault =>
    -- Any other fault would be that of the whole snapshot, which has none.
    refine ⟨fault, Classical.byContradiction fun hlong => ?_, rfl⟩
    have hmore := h.error hcut hlong (bs.drop n)
    rw [hfull] at hmore
    exact nomatch hmore

/-- What a reader takes is not the start of more that it takes. -/
theorem Reads.eq_of_isPrefix {item : Reader α} {cs : List UInt8} {a b : α} (ha : Reads item bs a)
    (hb : Reads item cs b) (h : bs <+: cs) : bs = cs ∧ a = b := by
  obtain ⟨t, rfl⟩ := h
  have hsame := hb []
  rw [List.append_nil, ha t] at hsame
  obtain ⟨rfl, rfl⟩ := Prod.mk.inj (Except.ok.inj hsame)
  exact ⟨(List.append_nil bs).symm, rfl⟩

/-- A truncated snapshot is never loaded. Whatever the catalog, and in whatever order its bindings
are written, less than all of its bytes are refused because they end too early. No snapshot is the
start of another one, and a snapshot belongs to one catalog only. -/
theorem decode_take_bytes (c : Catalog) (h : Fits c) (entries : List (String × Handle))
    (hperm : entries.Perm c.names.entries) :
    (∀ n < (bytes c.arena.toList entries).length, ∃ fault : Fault, fault.Short ∧
      decode ((bytes c.arena.toList entries).take n) = .error fault) ∧
    ∀ d : Catalog, Fits d → ∀ others : List (String × Handle), others.Perm d.names.entries →
      bytes c.arena.toList entries <+: bytes d.arena.toList others →
      bytes c.arena.toList entries = bytes d.arena.toList others ∧ c = d := by
  constructor
  · intro n hn
    obtain ⟨fault, hshort, hcut⟩ := settles_catalog.exists_short (reads_catalog h hperm) hn
    refine ⟨fault, hshort, ?_⟩
    unfold decode
    change (·.1) <$> readCatalog ((bytes c.arena.toList entries).take n) = _
    rw [hcut]
    rfl
  · -- What is read from the longer bytes is read from their start alone.
    intro d hd others hothers hprefix
    exact (reads_catalog h hperm).eq_of_isPrefix (reads_catalog hd hothers) hprefix

/-- Two names share a relation, a third one dangles, the bindings are out of order, and the bytes
end inside a character. -/
theorem decode_take_bytes_shared :
    93 < (bytes [⟨[⟨"é", .int⟩, ⟨"é", .other "日本"⟩]⟩] [("R", 0), ("𝄞", 9), ("$slot1", 0)]).length ∧
      ∃ fault : Fault, fault.Short ∧
        decode ((bytes [⟨[⟨"é", .int⟩, ⟨"é", .other "日本"⟩]⟩]
          [("R", 0), ("𝄞", 9), ("$slot1", 0)]).take 93) = .error fault := by
  have hlen : 93 < (bytes [⟨[⟨"é", .int⟩, ⟨"é", .other "日本"⟩]⟩]
      [("R", 0), ("𝄞", 9), ("$slot1", 0)]).length := by decide +kernel
  exact ⟨hlen, (decode_take_bytes
    ⟨#[⟨[⟨"é", .int⟩, ⟨"é", .other "日本"⟩]⟩], .ofList [("$slot1", 0), ("R", 0), ("𝄞", 9)]⟩
    ⟨by decide, by decide, by decide, by decide⟩ [("R", 0), ("𝄞", 9), ("$slot1", 0)]
    (by decide)).1 93 hlen⟩

end RelAlgebra.Snapshot
