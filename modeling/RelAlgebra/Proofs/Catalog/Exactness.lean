import Mathlib.Algebra.GroupWithZero.Nat
import RelAlgebra.Proofs.Catalog.WellFormed
import RelAlgebra.Proofs.Text.Bytes

/-!
# Snapshots are read exactly

`Exact item write fits` says that a reader accepts nothing but what is written for a value: the
bytes that it takes are those of the value that it gives, and this value fits. It is the converse of
`Reads`, and it holds of each part of a snapshot, from numbers up to the two lists of a catalog.

The list of bindings is the one place where something is lost, since a later binding of a name takes
over from an earlier one and the bindings are then put in order. So the catalog that bytes are
decoded to is never longer than they are, and it is encoded to the same bytes if there was nothing
to lose: no name is out of order, and nothing follows the last binding.
-/

namespace RelAlgebra

/-! ## What is left of a list of bindings -/

namespace Bindings

variable {entries : List (String × Handle)}

/-- A binding that is put in its place adds no more than its own weight. -/
theorem sum_insertEntry_le (weight : String × Handle → Nat) (name : String) (handle : Handle)
    (l : List (String × Handle)) :
    ((insertEntry name handle l).map weight).sum ≤ weight (name, handle) + (l.map weight).sum := by
  induction l with
  | nil => simp [insertEntry]
  | cons e rest ih =>
    obtain ⟨n, h⟩ := e
    -- The binding is put before the first one, takes its place, or goes further on.
    simp only [insertEntry]
    split
    · simp
    · split
      · simp
      · simp only [List.map_cons, List.sum_cons]
        omega

/-- Bindings that are inserted one after the other add no more than their own weights. -/
theorem sum_foldl_insert_le (weight : String × Handle → Nat) (b : Bindings)
    (entries : List (String × Handle)) :
    ((entries.foldl (fun b (name, handle) => b.insert name handle) b).entries.map weight).sum ≤
      (b.entries.map weight).sum + (entries.map weight).sum := by
  induction entries generalizing b with
  | nil => simp
  | cons e entries ih =>
    obtain ⟨name, handle⟩ := e
    have hstep : ((b.insert name handle).entries.map weight).sum ≤
        weight (name, handle) + (b.entries.map weight).sum :=
      sum_insertEntry_le weight name handle b.entries
    have hrest := ih (b.insert name handle)
    simp only [List.foldl_cons, List.map_cons, List.sum_cons] at hrest ⊢
    omega

/-- The bindings of a list weigh no more than the list. -/
theorem sum_ofList_le (weight : String × Handle → Nat) (entries : List (String × Handle)) :
    ((ofList entries).entries.map weight).sum ≤ (entries.map weight).sum := by
  have h := sum_foldl_insert_le weight ∅ entries
  have hempty : ((∅ : Bindings).entries.map weight).sum = 0 := rfl
  rw [hempty, Nat.zero_add] at h
  exact h

/-- A list gives no more bindings than it has entries. -/
theorem length_ofList_le : (ofList entries).entries.length ≤ entries.length := by
  have h := sum_ofList_le (fun _ => 1) entries
  simpa [List.map_const'] using h

/-- A binding after insertions was there before or is one of the inserted ones. -/
theorem mem_foldl_insert {e : String × Handle} {b : Bindings}
    (h : e ∈ (entries.foldl (fun b (name, handle) => b.insert name handle) b).entries) :
    e ∈ b.entries ∨ e ∈ entries := by
  induction entries generalizing b with
  | nil => exact .inl h
  | cons d entries ih =>
    rcases ih h with hb | he
    · rcases mem_insertEntry hb with rfl | hb
      · exact .inr (List.mem_cons_self ..)
      · exact .inl hb
    · exact .inr (List.mem_cons_of_mem _ he)

/-- The bindings of a list are listed there. -/
theorem mem_of_mem_ofList {e : String × Handle} (h : e ∈ (ofList entries).entries) : e ∈ entries :=
  (mem_foldl_insert h).resolve_left (List.not_mem_nil)

/-- A list is kept as it is exactly if its names increase. -/
theorem entries_ofList_iff : (ofList entries).entries = entries ↔ entries.Pairwise (·.1 < ·.1) := by
  constructor
  · intro h
    have hsorted := (ofList entries).sorted
    rw [h] at hsorted
    exact hsorted
  · intro h
    exact congrArg Bindings.entries (ofList_of_perm (b := ⟨entries, h⟩) (.refl _))

/-- Names increase exactly if their bytes do. -/
theorem pairwise_lt_iff : entries.Pairwise (·.1 < ·.1) ↔
    entries.Pairwise fun d e => Utf8.encode d.1.toList < Utf8.encode e.1.toList := by
  simp only [Utf8.encode_lt_encode_iff, String.lt_iff]

end Bindings

namespace Snapshot

variable {α β γ : Type}

/-! ## Exact readers -/

/-- Whatever the reader accepts starts with the bytes that are written for the value it gives, and
this value fits. -/
def Exact (item : Reader α) (write : α → List UInt8) (fits : α → Prop) : Prop :=
  ∀ ⦃bs rest : List UInt8⦄ ⦃a : α⦄, item bs = .ok (a, rest) → bs = write a ++ rest ∧ fits a

/-- What readers one after the other accept, the first one accepts, and the second one accepts what
the first one left. -/
theorem exists_of_bind_eq_ok {x : Reader α} {f : α → Reader β} {bs rest : List UInt8} {b : β}
    (h : (x >>= f) bs = .ok (b, rest)) :
    ∃ a mid, x bs = .ok (a, mid) ∧ f a mid = .ok (b, rest) := by
  change (x bs >>= fun p => f p.1 p.2) = _ at h
  cases hx : x bs with
  | error fault =>
    rw [hx] at h
    exact nomatch h
  | ok p =>
    rw [hx] at h
    exact ⟨p.1, p.2, rfl, h⟩

/-- A function of the value is given only after the reader has given the value. -/
theorem exists_of_map_eq_ok {x : Reader α} {g : α → β} {bs rest : List UInt8} {b : β}
    (h : (g <$> x) bs = .ok (b, rest)) : ∃ a, x bs = .ok (a, rest) ∧ b = g a := by
  obtain ⟨a, mid, hx, hpure⟩ := exists_of_bind_eq_ok (f := fun a => pure (g a)) h
  obtain ⟨rfl, rfl⟩ := Prod.mk.inj (Except.ok.inj hpure)
  exact ⟨a, hx, rfl⟩

/-- A reader that starts with an exact one is exact if the bytes of the first value and those that
are taken after it are the bytes of the result. -/
theorem Exact.bind {x : Reader α} {f : α → Reader β} {write : α → List UInt8} {fits : α → Prop}
    {write' : β → List UInt8} {fits' : β → Prop} (hx : Exact x write fits)
    (hf : ∀ a, fits a → ∀ ⦃bs rest b⦄, f a bs = .ok (b, rest) →
      write a ++ bs = write' b ++ rest ∧ fits' b) : Exact (x >>= f) write' fits' := by
  intro bs rest b h
  obtain ⟨a, mid, hx', hf'⟩ := exists_of_bind_eq_ok h
  obtain ⟨rfl, hfits⟩ := hx hx'
  exact hf a hfits hf'

/-- A value that is made from what was read exactly. -/
theorem Exact.map {x : Reader α} {write : α → List UInt8} {fits : α → Prop}
    (hx : Exact x write fits) {g : α → β} {write' : β → List UInt8} {fits' : β → Prop}
    (hg : ∀ a, fits a → write a = write' (g a) ∧ fits' (g a)) : Exact (g <$> x) write' fits' := by
  intro bs rest b h
  obtain ⟨a, ha, rfl⟩ := exists_of_map_eq_ok h
  obtain ⟨rfl, hfits⟩ := hx ha
  obtain ⟨hwrite, hfits'⟩ := hg a hfits
  exact ⟨by rw [hwrite], hfits'⟩

/-- A value that is made from two parts, which are read one after the other. -/
theorem Exact.pair {x : Reader α} {y : Reader β} {write₁ : α → List UInt8} {fits₁ : α → Prop}
    {write₂ : β → List UInt8} {fits₂ : β → Prop} (hx : Exact x write₁ fits₁)
    (hy : Exact y write₂ fits₂) {g : α → β → γ} {write : γ → List UInt8} {fits : γ → Prop}
    (hg : ∀ a b, fits₁ a → fits₂ b → write₁ a ++ write₂ b = write (g a b) ∧ fits (g a b)) :
    Exact (x >>= fun a => y >>= fun b => pure (g a b)) write fits := by
  refine hx.bind fun a ha bs rest value hread => ?_
  obtain ⟨b, mid, hb, hpure⟩ := exists_of_bind_eq_ok hread
  obtain ⟨rfl, rfl⟩ := Prod.mk.inj (Except.ok.inj hpure)
  obtain ⟨rfl, hfits⟩ := hy hb
  obtain ⟨hwrite, hfits'⟩ := hg a b ha hfits
  exact ⟨by rw [← List.append_assoc, hwrite], hfits'⟩

/-- The bytes that are taken are those that are given, and they are as many as was asked for. -/
theorem exact_take (fault : Fault) (count : Nat) :
    Exact (take fault count) id (·.length = count) := by
  intro bs rest a h
  unfold take at h
  split at h
  · exact nomatch h
  · next hlen =>
    obtain ⟨rfl, rfl⟩ := Prod.mk.inj (Except.ok.inj h)
    exact ⟨(List.take_append_drop ..).symm, List.length_take_of_le (Nat.le_of_not_lt hlen)⟩

/-- Bytes write the number that is read from them. -/
theorem number_ofBytes (bs : List UInt8) : number bs.length (ofBytes bs) = bs := by
  induction bs with
  | nil => rfl
  | cons b bs ih =>
    have hb := b.toNat_lt
    have hmod : (b.toNat + 256 * ofBytes bs) % 256 = b.toNat := by omega
    have hdiv : (b.toNat + 256 * ofBytes bs) / 256 = ofBytes bs := by omega
    rw [List.length_cons, number, ofBytes, hmod, hdiv, ih]
    simp

/-- A number is as small as its bytes allow. -/
theorem ofBytes_lt (bs : List UInt8) : ofBytes bs < 256 ^ bs.length := by
  induction bs with
  | nil => simp [ofBytes]
  | cons b bs ih =>
    have hb := b.toNat_lt
    rw [List.length_cons, ofBytes, Nat.pow_succ]
    omega

/-- A number is read from the bytes that are written for it. -/
theorem exact_number (width : Nat) : Exact (readNumber width) (number width) (· < 256 ^ width) := by
  refine (exact_take .shortNumber width).map fun bs hbs => ?_
  subst hbs
  exact ⟨(number_ofBytes bs).symm, ofBytes_lt bs⟩

/-- Items are exact if each of them is. -/
theorem exact_items {item : Reader α} {write : α → List UInt8} {fits : α → Prop}
    (h : Exact item write fits) (count : Nat) : Exact (readItems item count) (·.flatMap write)
      (fun items => items.length = count ∧ ∀ a ∈ items, fits a) := by
  induction count with
  | zero =>
    intro bs rest items hread
    obtain ⟨rfl, rfl⟩ := Prod.mk.inj (Except.ok.inj hread)
    simp
  | succ count ih =>
    refine h.pair ih fun a as ha has => ⟨(List.flatMap_cons ..).symm, by simp [has.1], ?_⟩
    simpa using ⟨ha, has.2⟩

/-- A list is exact if its items are. -/
theorem exact_list {item : Reader α} {write : α → List UInt8} {fits : α → Prop}
    (h : Exact item write fits) : Exact (readList item) (list write)
      (fun items => items.length < 2 ^ 64 ∧ ∀ a ∈ items, fits a) := by
  refine (exact_number 8).bind fun count hcount bs rest items hread => ?_
  obtain ⟨rfl, rfl, hfits⟩ := exact_items h count hread
  exact ⟨(List.append_assoc ..).symm, hcount, hfits⟩

/-! ## The parts of a catalog -/

/-- A text is read from the bytes that are written for it, of which there is one form only. -/
theorem exact_text : Exact readText text TextFits := by
  unfold readText
  refine (exact_number 8).bind fun count hcount bs rest s hread => ?_
  obtain ⟨name, mid, hname, hdecode⟩ := exists_of_bind_eq_ok hread
  obtain ⟨rfl, rfl⟩ := exact_take .shortText count hname
  cases ht : Utf8.decode name with
  | error fault =>
    rw [ht] at hdecode
    exact nomatch hdecode
  | ok t =>
    -- There is one way to write a text in bytes, so these are the ones.
    rw [ht] at hdecode
    obtain ⟨rfl, rfl⟩ := Prod.mk.inj (Except.ok.inj hdecode)
    obtain rfl : name = Utf8.encode t := Utf8.eq_encode_of_decode ht
    unfold text list TextFits
    rw [String.toList_ofList]
    refine ⟨?_, hcount⟩
    simp

/-- A known type has its place in the list as its number. -/
theorem dataType_of_known {code : Nat} {t : DataType} (h : DataType.known[code]? = some t) :
    dataType t = number 4 code ∧ TypeFits t := by
  have hnodup : DataType.known.Nodup := by decide
  have hcode : typeCode t = code := by
    obtain ⟨hlt, rfl⟩ := List.getElem?_eq_some_iff.1 h
    exact hnodup.idxOf_getElem code hlt
  have hmem : t ∈ DataType.known := List.mem_of_getElem? h
  cases t with
  | other name => simp [DataType.known] at hmem
  | _ =>
    unfold dataType
    rw [hcode, List.append_nil]
    exact ⟨rfl, trivial⟩

/-- A type is read from its number, or from the number of the unknown ones and a name. -/
theorem exact_type : Exact readType dataType TypeFits := by
  unfold readType
  refine (exact_number 4).bind fun code _ bs rest t hread => ?_
  cases hknown : DataType.known[code]? with
  | some t' =>
    -- A number of a known type.
    rw [hknown] at hread
    obtain ⟨rfl, rfl⟩ := Prod.mk.inj (Except.ok.inj hread)
    obtain ⟨hwrite, hfits⟩ := dataType_of_known hknown
    exact ⟨by rw [hwrite], hfits⟩
  | none =>
    rw [hknown] at hread
    by_cases hcode : code = DataType.known.length
    · -- The number after those of the known types announces a name.
      simp only [if_pos hcode] at hread
      obtain ⟨name, hname, rfl⟩ := exists_of_map_eq_ok hread
      obtain ⟨rfl, hfits⟩ := exact_text hname
      subst hcode
      exact ⟨(List.append_assoc ..).symm, hfits⟩
    · simp only [if_neg hcode] at hread
      exact nomatch hread

/-- An attribute is read exactly. -/
theorem exact_attr : Exact readAttr attr AttrFits :=
  exact_text.pair exact_type fun _ _ hname htype => ⟨rfl, hname, htype⟩

/-- A schema is read exactly. -/
theorem exact_schema : Exact readSchema schema SchemaFits :=
  (exact_list exact_attr).map fun _ hattrs => ⟨rfl, hattrs⟩

/-- A binding is read exactly. -/
theorem exact_binding : Exact readBinding binding BindingFits :=
  exact_text.pair (exact_number 8) fun _ _ hname hhandle => ⟨rfl, hname, hhandle⟩

/-- The two lists of a catalog are read exactly. -/
theorem exact_listing : Exact readListing (fun l => bytes l.1 l.2) fun l =>
    (l.1.length < 2 ^ 64 ∧ ∀ s ∈ l.1, SchemaFits s) ∧
      l.2.length < 2 ^ 64 ∧ ∀ e ∈ l.2, BindingFits e :=
  (exact_list exact_schema).pair (exact_list exact_binding)
    fun _ _ harena hentries => ⟨rfl, harena, hentries⟩

/-- What is decoded to a catalog lists its relations and its bindings, and the catalog fits. -/
theorem exists_listing_of_decode {bs : List UInt8} {c : Catalog} (h : decode bs = .ok c) :
    Fits c ∧ ∃ entries rest, readListing.run bs = .ok ((c.arena.toList, entries), rest) ∧
      bs = bytes c.arena.toList entries ++ rest ∧ c.names = .ofList entries := by
  unfold decode at h
  rw [readCatalog_eq_map] at h
  cases hlisting : readListing.run bs with
  | error fault =>
    have hmap : ((fun l => (⟨l.1.toArray, .ofList l.2⟩ : Catalog)) <$> readListing).run bs =
        .error fault := by
      rw [StateT.run_map, hlisting]
      rfl
    rw [hmap] at h
    exact nomatch h
  | ok p =>
    obtain ⟨⟨arena, entries⟩, rest⟩ := p
    rw [StateT.run_map, hlisting] at h
    obtain rfl := Except.ok.inj h
    obtain ⟨hbs, ⟨harena, hschemas⟩, hnames, hbindings⟩ := exact_listing hlisting
    -- Entries for one name leave one binding, so that there are not more of them.
    have hlen : (Bindings.ofList entries).entries.length < 2 ^ 64 :=
      Nat.lt_of_le_of_lt Bindings.length_ofList_le hnames
    refine ⟨⟨by simpa using harena, by simpa using hschemas, hlen, fun e he => ?_⟩,
      entries, rest, by simp, by simpa using hbs, rfl⟩
    exact hbindings e (Bindings.mem_of_mem_ofList he)

/-! ## Sizes -/

/-- A list takes eight bytes besides those of its items. -/
theorem length_list (item : α → List UInt8) (items : List α) :
    (list item items).length = 8 + (items.map fun a => (item a).length).sum := by
  rw [list, List.length_append, length_number, List.length_flatMap]

/-- A snapshot takes eight bytes for each of its two lists besides those of their items. -/
theorem length_bytes (arena : List Schema) (entries : List (String × Handle)) :
    (bytes arena entries).length = 16 + (arena.map fun s => (schema s).length).sum +
      (entries.map fun e => (binding e).length).sum := by
  rw [bytes, List.length_append, length_list, length_list]
  omega

/-- A list takes at least what its items take at least. -/
theorem mul_length_le_sum {size : α → Nat} {items : List α} {least : Nat}
    (h : ∀ a ∈ items, least ≤ size a) : least * items.length ≤ (items.map size).sum := by
  induction items with
  | nil => simp
  | cons a items ih =>
    have ha : least ≤ size a := h a (List.mem_cons_self ..)
    have hrest := ih fun b hb => h b (List.mem_cons_of_mem _ hb)
    rw [List.length_cons, List.map_cons, List.sum_cons, Nat.mul_succ]
    omega

/-- A text takes the eight bytes of its length at least. -/
theorem eight_le_length_text (s : String) : 8 ≤ (text s).length := by
  rw [text, length_list]
  omega

/-- An attribute takes eight bytes for its name and four for its type at least. -/
theorem twelve_le_length_attr (a : Attribute) : 12 ≤ (attr a).length := by
  have hname := eight_le_length_text a.name
  unfold attr dataType
  rw [List.length_append, List.length_append, length_number]
  omega

/-- A binding takes eight bytes for its name and eight for its handle at least. -/
theorem sixteen_le_length_binding (e : String × Handle) : 16 ≤ (binding e).length := by
  have hname := eight_le_length_text e.1
  rw [binding, List.length_append, length_number]
  omega

/-- A relation takes eight bytes, and twelve for each of its attributes, at least. -/
theorem le_length_schema (s : Schema) : 8 + 12 * s.attributes.length ≤ (schema s).length := by
  have hattrs : 12 * s.attributes.length ≤ (s.attributes.map fun a => (attr a).length).sum :=
    mul_length_le_sum fun a _ => twelve_le_length_attr a
  rw [schema, length_list]
  omega

/-- The least size of a snapshot, from the numbers of relations, attributes and names. -/
theorem le_length_bytes (arena : List Schema) (entries : List (String × Handle)) :
    16 + 8 * arena.length + 12 * (arena.map (·.attributes.length)).sum + 16 * entries.length ≤
      (bytes arena entries).length := by
  have hschemas : 8 * arena.length + 12 * (arena.map (·.attributes.length)).sum ≤
      (arena.map fun s => (schema s).length).sum := by
    induction arena with
    | nil => simp
    | cons s arena ih =>
      have hs := le_length_schema s
      simp only [List.length_cons, List.map_cons, List.sum_cons]
      omega
  have hentries : 16 * entries.length ≤ (entries.map fun e => (binding e).length).sum :=
    mul_length_le_sum fun e _ => sixteen_le_length_binding e
  rw [length_bytes]
  omega

/-- Encoding undoes decoding. Whatever bytes are accepted, the catalog that they are decoded to is
decoded from its own snapshot, which is no longer than the bytes. The snapshot is the same bytes
exactly if nothing follows the last binding and the bindings are listed in increasing order of the
bytes of their names, as they are in every snapshot. The numbers of relations, attributes and names
are bounded by the number of bytes, whatever lengths these announce. -/
theorem encode_of_decode_eq (bs : List UInt8) (c : Catalog) (h : decode bs = .ok c) :
    decode (encode c) = .ok c ∧ (encode c).length ≤ bs.length ∧
      (c.names.entries.Pairwise fun d e =>
        Utf8.encode d.1.toList < Utf8.encode e.1.toList) ∧
      (∃ entries rest, readListing.run bs = .ok ((c.arena.toList, entries), rest) ∧
        bs = bytes c.arena.toList entries ++ rest ∧ c.names = .ofList entries ∧
        (encode c = bs ↔ rest = [] ∧ entries.Pairwise fun d e =>
          Utf8.encode d.1.toList < Utf8.encode e.1.toList)) ∧
      16 + 8 * c.arena.size + 12 * (c.arena.toList.map (·.attributes.length)).sum +
        16 * c.names.entries.length ≤ bs.length := by
  obtain ⟨hfits, entries, rest, hrun, hbs, hnames⟩ := exists_listing_of_decode h
  -- Only bindings are lost on the way, each with the bytes that it took.
  have hlen : (encode c).length ≤ bs.length := by
    have hsum := Bindings.sum_ofList_le (fun e => (binding e).length) entries
    rw [encode, hbs, List.length_append, length_bytes, length_bytes, hnames]
    omega
  have hbound := le_length_bytes c.arena.toList c.names.entries
  refine ⟨decode_encode hfits, hlen, Bindings.pairwise_lt_iff.1 c.names.sorted,
    ⟨entries, rest, hrun, hbs, hnames, ?_⟩, Nat.le_trans hbound hlen⟩
  rw [← Bindings.pairwise_lt_iff, ← Bindings.entries_ofList_iff, ← hnames]
  constructor
  · -- Both are listings of a catalog, so the parts that are read from them agree.
    intro heq
    have hread := reads_listing hfits (.refl _) []
    rw [List.append_nil] at hread
    have hsame : (((c.arena.toList, entries), rest) : _ × List UInt8) =
        ((c.arena.toList, c.names.entries), []) := by
      apply Except.ok.inj
      rw [← hrun, ← heq]
      exact hread
    simp only [Prod.mk.injEq, true_and] at hsame
    exact ⟨hsame.2, hsame.1.symm⟩
  · rintro ⟨rfl, hentries⟩
    rw [hbs, List.append_nil, encode, hentries]

/-- A name is listed twice and out of order, its first handle dangles, and a byte follows. -/
theorem encode_of_decode_eq_repeated :
    decode (bytes [⟨[⟨"é", .int⟩]⟩] [("R", 9), ("R", 0), ("A", 0)] ++ [0xFF]) =
        .ok ⟨#[⟨[⟨"é", .int⟩]⟩], .ofList [("A", 0), ("R", 0)]⟩ ∧
      decode (encode ⟨#[⟨[⟨"é", .int⟩]⟩], .ofList [("A", 0), ("R", 0)]⟩) =
        .ok ⟨#[⟨[⟨"é", .int⟩]⟩], .ofList [("A", 0), ("R", 0)]⟩ ∧
      (encode ⟨#[⟨[⟨"é", .int⟩]⟩], .ofList [("A", 0), ("R", 0)]⟩).length ≤
        (bytes [⟨[⟨"é", .int⟩]⟩] [("R", 9), ("R", 0), ("A", 0)] ++ [0xFF]).length := by
  have h : decode (bytes [⟨[⟨"é", .int⟩]⟩] [("R", 9), ("R", 0), ("A", 0)] ++ [0xFF]) =
      .ok ⟨#[⟨[⟨"é", .int⟩]⟩], .ofList [("A", 0), ("R", 0)]⟩ := by
    rfl
  obtain ⟨hdecode, hlen, -⟩ := encode_of_decode_eq _ _ h
  exact ⟨h, hdecode, hlen⟩

end Snapshot

end RelAlgebra
