import Mathlib.Algebra.Group.Nat.Defs
import RelAlgebra.Catalog.Snapshot
import RelAlgebra.Proofs.Catalog.Lookup
import RelAlgebra.Proofs.Text.Utf8

/-!
# Catalogs come back from their snapshots

`Reads item bs a` says that a reader takes the bytes `bs` from the start of any bytes and gives `a`.
Each part of a snapshot is read back from what is written for it, from numbers up to the catalog.
The only condition is that lengths and handles fit into the eight bytes that are written for them.
-/

namespace RelAlgebra

namespace Bindings

/-- Binding the entries of a list one after the other, when no name is listed twice. -/
theorem find?_foldl_insert {l : List (String × Handle)} (hl : (l.map (·.1)).Nodup) (b : Bindings)
    (name : String) (handle : Handle) :
    (l.foldl (fun b (name, handle) => b.insert name handle) b).find? name = some handle ↔
      (name, handle) ∈ l ∨ (name ∉ l.map (·.1) ∧ b.find? name = some handle) := by
  induction l generalizing b with
  | nil => simp
  | cons e l ih =>
    obtain ⟨n, h⟩ := e
    obtain ⟨hn, hl⟩ : n ∉ l.map (·.1) ∧ (l.map (·.1)).Nodup := by simpa using hl
    rw [List.foldl_cons, ih hl, find?_insert]
    by_cases hname : name = n
    · subst hname
      -- What is bound first under this name is not bound again.
      have hnot : (name, handle) ∉ l := fun hm => hn (List.mem_map_of_mem hm)
      simp [hn, hnot, eq_comm]
    · simp [hname]

/-- A list of different names, in any order, is bound as it is listed. -/
theorem ofList_of_perm {entries : List (String × Handle)} {b : Bindings}
    (h : entries.Perm b.entries) : ofList entries = b := by
  -- No name is listed twice, in whatever order the entries are.
  have hnodup : (b.entries.map (·.1)).Nodup := by
    rw [List.Nodup, List.pairwise_map]
    refine b.sorted.imp ?_
    intro d e hlt heq
    exact String.lt_irrefl _ (heq ▸ hlt)
  apply ext
  intro name
  apply Option.ext
  intro handle
  have hl : (entries.map (·.1)).Nodup := (h.map _).nodup_iff.2 hnodup
  rw [find?_eq_some_iff b, ← h.mem_iff, ofList, find?_foldl_insert hl]
  simp

end Bindings

namespace Snapshot

/-- The reader takes exactly these bytes from the start of any bytes, and gives this value. -/
def Reads {α : Type} (item : Reader α) (bs : List UInt8) (a : α) : Prop :=
  ∀ t, item (bs ++ t) = .ok (a, t)

variable {α β : Type}

/-- A value that is given takes no bytes. -/
theorem reads_pure (a : α) : Reads (pure a) [] a := fun _ => rfl

/-- Readers one after the other take bytes one after the other. -/
theorem Reads.bind {x : Reader α} {f : α → Reader β} {bs cs : List UInt8} {a : α} {b : β}
    (hx : Reads x bs a) (hf : Reads (f a) cs b) : Reads (x >>= f) (bs ++ cs) b := by
  intro t
  rw [List.append_assoc]
  change (x (bs ++ (cs ++ t)) >>= fun p => f p.1 p.2) = _
  rw [hx]
  exact hf t

/-- A value that is made from what was read takes no more bytes. -/
theorem Reads.bind_pure {x : Reader α} {f : α → Reader β} {bs : List UInt8} {a : α} {b : β}
    (hx : Reads x bs a) (hf : f a = pure b) : Reads (x >>= f) bs b := by
  have h : Reads (x >>= f) (bs ++ []) b := hx.bind (hf ▸ reads_pure b)
  rw [List.append_nil] at h
  exact h

/-- A function of the value takes no bytes. -/
theorem Reads.map {x : Reader α} {bs : List UInt8} {a : α} (hx : Reads x bs a) (f : α → β) :
    Reads (f <$> x) bs (f a) :=
  hx.bind_pure (f := fun a => pure (f a)) rfl

/-- The given count of bytes is taken as it is. -/
theorem reads_take (fault : Fault) (bs : List UInt8) : Reads (take fault bs.length) bs bs := by
  intro t
  have hlen : ¬ (bs ++ t).length < bs.length := by simp
  rw [take, if_neg hlen, List.take_left, List.drop_left]

/-! ## Numbers and lists -/

/-- A number takes as many bytes as are meant for it. -/
theorem length_number (width n : Nat) : (number width n).length = width := by
  induction width generalizing n with
  | zero => rfl
  | succ width ih => rw [number, List.length_cons, ih]

/-- A number that fits into its bytes is what they write. -/
theorem ofBytes_number {width n : Nat} (h : n < 256 ^ width) : ofBytes (number width n) = n := by
  induction width generalizing n with
  | zero =>
    obtain rfl : n = 0 := by simpa using h
    rfl
  | succ width ih =>
    -- The first byte is the remainder, the others write the quotient.
    have hdiv : n / 256 < 256 ^ width := by
      rw [Nat.pow_succ, Nat.mul_comm] at h
      exact Nat.div_lt_of_lt_mul h
    have hbyte : (n % 256).toUInt8.toNat = n % 256 :=
      UInt8.toNat_ofNat_of_lt' (Nat.mod_lt _ (by decide))
    rw [number, ofBytes, ih hdiv, hbyte]
    exact Nat.mod_add_div n 256

/-- A number that fits into its bytes is read back. -/
theorem reads_number {width n : Nat} (h : n < 256 ^ width) :
    Reads (readNumber width) (number width n) n := by
  have htake := reads_take .shortNumber (number width n)
  rw [length_number] at htake
  have hmap := htake.map ofBytes
  rw [ofBytes_number h] at hmap
  exact hmap

/-- Items are read back one after the other. -/
theorem reads_items {item : Reader α} {write : α → List UInt8} {items : List α}
    (h : ∀ a ∈ items, Reads item (write a) a) :
    Reads (readItems item items.length) (items.flatMap write) items := by
  induction items with
  | nil => exact reads_pure []
  | cons a items ih =>
    have ha := h a (List.mem_cons_self ..)
    have has := ih fun b hb => h b (List.mem_cons_of_mem _ hb)
    exact ha.bind (has.bind_pure rfl)

/-- A list is read back if its items are and its length fits. -/
theorem reads_list {item : Reader α} {write : α → List UInt8} {items : List α}
    (hlen : items.length < 2 ^ 64) (h : ∀ a ∈ items, Reads item (write a) a) :
    Reads (readList item) (list write items) items :=
  (reads_number hlen).bind (reads_items h)

/-! ## The parts of a catalog -/

/-- The length of a text in bytes fits. -/
def TextFits (s : String) : Prop := (Utf8.encode s.toList).length < 2 ^ 64

instance (s : String) : Decidable (TextFits s) :=
  inferInstanceAs (Decidable ((Utf8.encode s.toList).length < 2 ^ 64))

/-- A text that fits is read back. -/
theorem reads_text {s : String} (h : TextFits s) : Reads readText (text s) s := by
  have hbytes : (Utf8.encode s.toList).flatMap (fun b => [b]) = Utf8.encode s.toList := by simp
  unfold text list readText
  rw [hbytes]
  refine (reads_number h).bind ((reads_take .shortText _).bind_pure ?_)
  rw [Utf8.decode_encode]
  simp only [String.ofList_toList]

/-- The name of a type that is known by its name alone fits. -/
def TypeFits : DataType → Prop
  | .other name => TextFits name
  | _ => True

instance : (t : DataType) → Decidable (TypeFits t)
  | .other name => inferInstanceAs (Decidable (TextFits name))
  | .varchar | .char | .text | .string | .int | .integer | .double | .decimal | .float | .long
  | .blob => isTrue trivial

/-- A known type is found under its number. -/
theorem reads_known {t : DataType} (h : DataType.known[typeCode t]? = some t) :
    Reads readType (number 4 (typeCode t)) t := by
  have hlt : typeCode t < 256 ^ 4 := by
    obtain ⟨hlt, -⟩ := List.getElem?_eq_some_iff.1 h
    exact Nat.lt_trans hlt (by decide)
  unfold readType
  refine (reads_number hlt).bind_pure ?_
  rw [h]

/-- A type is read back, by its number or by its name. -/
theorem reads_type {t : DataType} (h : TypeFits t) : Reads readType (dataType t) t := by
  cases t with
  | other name =>
    -- The number after those of the known types announces a name.
    have hcode : typeCode (.other name) = DataType.known.length := rfl
    have hnone : DataType.known[DataType.known.length]? = none := rfl
    unfold readType dataType
    rw [hcode]
    refine (reads_number (by decide)).bind ?_
    simp only [hnone, if_true]
    simp only [TypeFits] at h
    have hname := reads_text h
    exact hname.map DataType.other
  | _ =>
    unfold dataType
    rw [List.append_nil]
    exact reads_known rfl

/-- The name and the type of an attribute fit. -/
def AttrFits (a : Attribute) : Prop := TextFits a.name ∧ TypeFits a.type

instance (a : Attribute) : Decidable (AttrFits a) :=
  inferInstanceAs (Decidable (TextFits a.name ∧ TypeFits a.type))

/-- An attribute that fits is read back. -/
theorem reads_attr {a : Attribute} (h : AttrFits a) : Reads readAttr (attr a) a := by
  unfold readAttr attr
  exact (reads_text h.1).bind ((reads_type h.2).bind_pure rfl)

/-- The number of attributes fits, and all attributes do. -/
def SchemaFits (s : Schema) : Prop :=
  s.attributes.length < 2 ^ 64 ∧ ∀ a ∈ s.attributes, AttrFits a

instance (s : Schema) : Decidable (SchemaFits s) :=
  inferInstanceAs (Decidable (s.attributes.length < 2 ^ 64 ∧ ∀ a ∈ s.attributes, AttrFits a))

/-- A schema that fits is read back. -/
theorem reads_schema {s : Schema} (h : SchemaFits s) : Reads readSchema (schema s) s :=
  (reads_list h.1 fun a ha => reads_attr (h.2 a ha)).map Schema.mk

/-- The name and the handle of a binding fit. -/
def BindingFits (e : String × Handle) : Prop := TextFits e.1 ∧ e.2 < 2 ^ 64

instance (e : String × Handle) : Decidable (BindingFits e) :=
  inferInstanceAs (Decidable (TextFits e.1 ∧ e.2 < 2 ^ 64))

/-- A binding that fits is read back. -/
theorem reads_binding {e : String × Handle} (h : BindingFits e) :
    Reads readBinding (binding e) e := by
  unfold readBinding binding
  exact (reads_text h.1).bind ((reads_number h.2).bind_pure rfl)

/-- All lengths and handles of a catalog fit into the bytes that are written for them. -/
structure Fits (c : Catalog) : Prop where
  arena : c.arena.size < 2 ^ 64
  schemas : ∀ s ∈ c.arena.toList, SchemaFits s
  names : c.names.entries.length < 2 ^ 64
  bindings : ∀ e ∈ c.names.entries, BindingFits e

/-- Reads the relations and the bindings of a catalog as they are listed. -/
def readListing : Reader (List Schema × List (String × Handle)) := do
  let arena ← readList readSchema
  let entries ← readList readBinding
  return (arena, entries)

/-- A catalog is made of what is listed for it. -/
theorem readCatalog_eq_map :
    readCatalog = (fun l => ⟨l.1.toArray, .ofList l.2⟩) <$> readListing := by
  unfold readCatalog readListing
  simp only [map_bind, map_pure]

/-- The two lists of a catalog are read back, in whatever order the bindings were written. -/
theorem reads_listing {c : Catalog} (h : Fits c) {entries : List (String × Handle)}
    (hperm : entries.Perm c.names.entries) :
    Reads readListing (bytes c.arena.toList entries) (c.arena.toList, entries) := by
  have harena : Reads (readList readSchema) (list schema c.arena.toList) c.arena.toList :=
    reads_list (by simpa using h.arena) fun s hs => reads_schema (h.schemas s hs)
  have hnames : Reads (readList readBinding) (list binding entries) entries :=
    reads_list (hperm.length_eq ▸ h.names) fun e he =>
      reads_binding (h.bindings e (hperm.mem_iff.1 he))
  unfold readListing bytes
  exact harena.bind (hnames.bind_pure rfl)

/-- A catalog is read back, in whatever order its bindings were written. -/
theorem reads_catalog {c : Catalog} (h : Fits c) {entries : List (String × Handle)}
    (hperm : entries.Perm c.names.entries) :
    Reads readCatalog (bytes c.arena.toList entries) c := by
  -- What is built from the parts does not depend on the order of the bindings.
  have hc : (⟨c.arena.toList.toArray, .ofList entries⟩ : Catalog) = c := by
    rw [Bindings.ofList_of_perm hperm, Array.toArray_toList]
  have hread := (reads_listing h hperm).map fun l => (⟨l.1.toArray, .ofList l.2⟩ : Catalog)
  rw [← readCatalog_eq_map, hc] at hread
  exact hread

/-- Decoding undoes encoding: whatever the catalog, in whatever order its bindings are written, and
whatever bytes follow, the same relations come back in their places, and every name is bound to the
handle that it had. -/
theorem decode_bytes_append (c : Catalog) (h : Fits c) (entries : List (String × Handle))
    (hperm : entries.Perm c.names.entries) (t : List UInt8) :
    decode (bytes c.arena.toList entries ++ t) = .ok c := by
  have hread := reads_catalog h hperm t
  unfold decode
  change (·.1) <$> readCatalog (bytes c.arena.toList entries ++ t) = _
  rw [hread]
  rfl

/-- Two names share a relation that has one attribute name twice, a third name dangles, and the
bindings are written in another order. -/
theorem decode_bytes_append_shared :
    decode (bytes [⟨[⟨"é", .int⟩, ⟨"é", .other "日本"⟩]⟩] [("R", 0), ("𝄞", 9), ("$slot1", 0)] ++
      [0xFF]) =
      .ok ⟨#[⟨[⟨"é", .int⟩, ⟨"é", .other "日本"⟩]⟩],
        .ofList [("$slot1", 0), ("R", 0), ("𝄞", 9)]⟩ :=
  decode_bytes_append
    ⟨#[⟨[⟨"é", .int⟩, ⟨"é", .other "日本"⟩]⟩], .ofList [("$slot1", 0), ("R", 0), ("𝄞", 9)]⟩
    ⟨by decide, by decide, by decide, by decide⟩ [("R", 0), ("𝄞", 9), ("$slot1", 0)] (by decide)
    [0xFF]

end Snapshot

end RelAlgebra
