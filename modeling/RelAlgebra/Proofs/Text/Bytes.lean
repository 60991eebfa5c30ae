import Mathlib.Algebra.Group.Nat.Defs
import RelAlgebra.Proofs.Text.Utf8

/-!
# The bytes of a text

A character is written as a first byte, which holds its highest bits and announces how many bytes
follow, and then as these bytes, which hold six bits each: `encodeChar_eq`. Two facts rest on this
form. Bytes that are decoded are the bytes of the text that they are decoded to, so that a text has
no second form (`eq_encode_of_decode`). And the bytes of texts are ordered as the texts are
(`encode_lt_encode_iff`).
-/

namespace RelAlgebra.Utf8

/-- The bytes for the lowest bits of a number, six in each of the given count of bytes. -/
def tails : Nat → Nat → List UInt8
  | 0, _ => []
  | count + 1, n => tailByte (n / 0x40 ^ count) :: tails count n

/-- The first of the bytes holds the highest of the bits. -/
theorem tails_succ (count n : Nat) :
    tails (count + 1) n = tailByte (n / 0x40 ^ count) :: tails count n := rfl

/-- The number of bytes that follow the first byte of a character. -/
def tailCount (n : Nat) : Nat :=
  if n < 0x80 then 0 else if n < 0x800 then 1 else if n < 0x10000 then 2 else 3

/-- The first byte of a character: what announces the bytes that follow, and the highest bits. -/
def leadByte (n : Nat) : Nat :=
  match tailCount n with
  | 0 => n
  | 1 => 0xC0 + n / 0x40
  | 2 => 0xE0 + n / 0x1000
  | _ => 0xF0 + n / 0x40000

/-- A character is its first byte and the bytes that this one announces. -/
theorem encodeChar_eq (c : Char) :
    encodeChar c = (leadByte c.toNat).toUInt8 :: tails (tailCount c.toNat) c.toNat := by
  unfold encodeChar leadByte tailCount
  simp only
  split
  · rfl
  · split
    · simp [tails, tailByte]
    · split <;> simp [tails, tailByte]

/-- The four lengths of a character. -/
theorem leadByte_cases (n : Nat) :
    (n < 0x80 ∧ tailCount n = 0 ∧ leadByte n = n) ∨
      ((0x80 ≤ n ∧ n < 0x800) ∧ tailCount n = 1 ∧ leadByte n = 0xC0 + n / 0x40) ∨
      ((0x800 ≤ n ∧ n < 0x10000) ∧ tailCount n = 2 ∧ leadByte n = 0xE0 + n / 0x1000) ∨
      (0x10000 ≤ n ∧ tailCount n = 3 ∧ leadByte n = 0xF0 + n / 0x40000) := by
  unfold leadByte tailCount
  split
  · exact .inl ⟨‹_›, rfl, rfl⟩
  · split
    · exact .inr (.inl ⟨by omega, rfl, rfl⟩)
    · split
      · exact .inr (.inr (.inl ⟨by omega, rfl, rfl⟩))
      · exact .inr (.inr (.inr ⟨by omega, rfl, rfl⟩))

/-- The first byte of a character is a byte. -/
theorem leadByte_lt {n : Nat} (h : n < 0x110000) : leadByte n < 0x100 := by
  rcases leadByte_cases n with ⟨_, _, hn⟩ | ⟨_, _, hn⟩ | ⟨_, _, hn⟩ | ⟨_, _, hn⟩ <;> omega

/-! ## Decoding is exact -/

variable {p : Partial} {n offset : Nat} {bs : List UInt8} {s : List Char}

/-- The character with a number that is no surrogate and not too large has this number. -/
theorem toNat_ofNat (h : n < 0xD800 ∨ (0xDFFF < n ∧ n < 0x110000)) : (Char.ofNat n).toNat = n := by
  unfold Char.ofNat
  rw [dif_pos h]
  rfl

/-- A byte that may follow a first one holds the six bits that it adds. -/
theorem tailByte_eq {b : UInt8} (hlow : 0x80 ≤ b.toNat) (hhigh : b.toNat ≤ 0xBF)
    (hn : n % 0x40 = b.toNat - 0x80) : tailByte n = b := by
  rw [← UInt8.toNat_inj, toNat_tailByte]
  omega

/-- A text that was decoded with a character in front starts with this character. -/
theorem eq_ok_of_map_cons {c : Char} {x : Except Fault (List Char)}
    (h : (c :: ·) <$> x = .ok s) : ∃ t, x = .ok t ∧ s = c :: t := by
  cases x with
  | error fault => exact nomatch h
  | ok t => exact ⟨t, rfl, (Except.ok.inj h).symm⟩

/-- A byte after the start of a character lies between its bounds, and it is the last one or leaves
one byte less to come. -/
theorem decodeFrom_some_cases {b : UInt8} (h : decodeFrom (some p) offset (b :: bs) = .ok s) :
    p.low ≤ b.toNat ∧ b.toNat ≤ p.high ∧
      ((p.later = 0 ∧ ∃ t, decodeFrom none (offset + p.taken + 1) bs = .ok t ∧
          s = Char.ofNat (p.bits * 0x40 + (b.toNat - 0x80)) :: t) ∨
        ∃ later, p.later = later + 1 ∧
          decodeFrom (some ⟨p.bits * 0x40 + (b.toNat - 0x80), p.taken + 1, later, 0x80, 0xBF⟩)
            offset bs = .ok s) := by
  rw [decodeFrom] at h
  split at h
  · next hb =>
    refine ⟨hb.1, hb.2, ?_⟩
    simp only at h
    split at h
    · next hlater => exact .inl ⟨hlater, eq_ok_of_map_cons h⟩
    · next later hlater => exact .inr ⟨later, hlater, h⟩
  · cases h

/-- After the start of a character, the bytes that follow complete its number, and the next of them
lies between its bounds. -/
theorem exists_tails_of_decodeFrom {k : Nat} (hk : p.later = k) (hlow : 0x80 ≤ p.low)
    (hhigh : p.high ≤ 0xBF) (h : decodeFrom (some p) offset bs = .ok s) :
    ∃ n rest offset' t, bs = tails (k + 1) n ++ rest ∧ n / 0x40 ^ (k + 1) = p.bits ∧
      p.low ≤ 0x80 + n / 0x40 ^ k % 0x40 ∧ 0x80 + n / 0x40 ^ k % 0x40 ≤ p.high ∧
      decodeFrom none offset' rest = .ok t ∧ s = Char.ofNat n :: t := by
  -- Induction on the number of bytes that come after the next one.
  induction k generalizing p bs with
  | zero =>
    cases bs with
    | nil => exact nomatch h
    | cons b bs =>
      obtain ⟨hb, hb', ⟨-, t, ht, hs⟩ | ⟨later, hlater, -⟩⟩ := decodeFrom_some_cases h
      · have hbyte : tailByte (p.bits * 0x40 + (b.toNat - 0x80)) = b :=
          tailByte_eq (by omega) (by omega) (by omega)
        refine ⟨_, bs, _, t, ?_, by omega, ?_, ?_, ht, hs⟩
        · simp [tails, hbyte]
        · simp only [Nat.pow_zero, Nat.div_one]
          omega
        · simp only [Nat.pow_zero, Nat.div_one]
          omega
      · omega
  | succ k ih =>
    cases bs with
    | nil => exact nomatch h
    | cons b bs =>
      obtain ⟨hb, hb', ⟨hzero, -⟩ | ⟨later, hlater, hrest⟩⟩ := decodeFrom_some_cases h
      · omega
      · obtain ⟨n, rest, offset', t, rfl, hn, -, -, ht, hs⟩ := ih (p := ⟨_, _, later, _, _⟩)
          (Nat.succ.inj (hlater.symm.trans hk)) (by simp) (by simp) hrest
        -- The bits of this byte are the lowest ones of those that are known after it.
        simp only at hn
        have hbyte : tailByte (n / 0x40 ^ (k + 1)) = b :=
          tailByte_eq (by omega) (by omega) (by omega)
        have hbits : n / 0x40 ^ (k + 1 + 1) = p.bits := by
          rw [Nat.pow_succ, ← Nat.div_div_eq_div_mul, hn]
          omega
        refine ⟨n, rest, offset', t, ?_, hbits, by omega, by omega, ht, hs⟩
        rw [tails_succ (k + 1), hbyte, List.cons_append]

/-- A byte that follows a first one has the form of such bytes. -/
theorem lead?_bounds {b : Nat} (h : lead? b = some p) : 0x80 ≤ p.low ∧ p.high ≤ 0xBF := by
  grind [lead?]

/-- What a first byte announces: the bounds of the next byte exclude the numbers of characters that
are written in another way. -/
theorem encodeChar_of_lead? {b : UInt8} (hlead : lead? b.toNat = some p)
    (hbits : n / 0x40 ^ (p.later + 1) = p.bits)
    (hlow : p.low ≤ 0x80 + n / 0x40 ^ p.later % 0x40)
    (hhigh : 0x80 + n / 0x40 ^ p.later % 0x40 ≤ p.high) :
    encodeChar (Char.ofNat n) = b :: tails (p.later + 1) n := by
  -- It is enough to know the number of bytes and the first one of them.
  have hform (hvalid : n < 0xD800 ∨ (0xDFFF < n ∧ n < 0x110000))
      (hcount : tailCount n = p.later + 1) (hbyte : leadByte n = b.toNat) :
      encodeChar (Char.ofNat n) = b :: tails (p.later + 1) n := by
    rw [encodeChar_eq, toNat_ofNat hvalid, hcount, hbyte]
    simp
  have hcases := leadByte_cases n
  unfold lead? at hlead
  split at hlead
  · exact nomatch hlead
  · split at hlead
    · -- Two bytes.
      obtain rfl := Option.some.inj hlead
      simp only [Nat.zero_add, Nat.pow_one] at hbits hform
      exact hform (by omega) (by omega) (by omega)
    · split at hlead
      · -- Three bytes.
        obtain rfl := Option.some.inj hlead
        simp only [Nat.reduceAdd, Nat.reducePow, Nat.pow_one] at hbits hlow hhigh hform
        have hlong : 0x800 ≤ n := by
          split at hlow <;> omega
        have hvalid : n < 0xD800 ∨ 0xDFFF < n := by
          split at hhigh <;> omega
        exact hform (by omega) (by omega) (by omega)
      · split at hlead
        · -- Four bytes.
          obtain rfl := Option.some.inj hlead
          simp only [Nat.reduceAdd, Nat.reducePow] at hbits hlow hhigh hform
          have hlong : 0x10000 ≤ n := by
            split at hlow <;> omega
          have hvalid : n < 0x110000 := by
            split at hhigh <;> omega
          exact hform (by omega) (by omega) (by omega)
        · exact nomatch hlead

/-- Bytes that are decoded to a character and more start with the bytes of this character. -/
theorem decodeFrom_none_cases (h : decodeFrom none offset bs = .ok s) :
    (bs = [] ∧ s = []) ∨ ∃ c t rest offset', s = c :: t ∧ bs = encodeChar c ++ rest ∧
      decodeFrom none offset' rest = .ok t := by
  cases bs with
  | nil => exact .inl ⟨rfl, (Except.ok.inj h).symm⟩
  | cons b bs =>
    rw [decodeFrom] at h
    split at h
    · -- One byte that is a character by itself.
      next hb =>
      obtain ⟨t, ht, rfl⟩ := eq_ok_of_map_cons h
      have hcount : tailCount b.toNat = 0 := if_pos hb
      refine .inr ⟨_, t, bs, _, rfl, ?_, ht⟩
      rw [encodeChar_eq, toNat_ofNat (by omega)]
      simp [leadByte, hcount, tails]
    · split at h
      · -- A byte that announces others.
        next p hp =>
        obtain ⟨hlow, hhigh⟩ := lead?_bounds hp
        obtain ⟨n, rest, offset', t, rfl, hn, hnlow, hnhigh, ht, rfl⟩ :=
          exists_tails_of_decodeFrom rfl hlow hhigh h
        refine .inr ⟨_, t, rest, offset', rfl, ?_, ht⟩
        rw [encodeChar_of_lead? hp hn hnlow hnhigh, List.cons_append]
      · cases h

/-- Bytes that are decoded are the bytes of the text that they are decoded to. -/
theorem eq_encode_of_decode (h : decode bs = .ok s) : bs = encode s := by
  unfold decode at h
  generalize 0 = offset at h
  induction s generalizing bs offset with
  | nil =>
    rcases decodeFrom_none_cases h with ⟨rfl, -⟩ | ⟨c, t, _, _, hs, -⟩
    · rfl
    · exact nomatch hs
  | cons c s ih =>
    rcases decodeFrom_none_cases h with ⟨-, hs⟩ | ⟨c', t, rest, offset', hs, rfl, hrest⟩
    · exact nomatch hs
    · obtain ⟨rfl, rfl⟩ := List.cons.inj hs
      rw [ih offset' hrest]
      exact (List.flatMap_cons ..).symm

/-! ## The order of the bytes -/

/-- Numbers with the same highest bits are ordered as the bytes for their lowest bits. -/
theorem tails_append_lt {k m : Nat} (hlt : n < m) (h : n / 0x40 ^ k = m / 0x40 ^ k)
    (x y : List UInt8) : tails k n ++ x < tails k m ++ y := by
  induction k with
  | zero =>
    simp only [Nat.pow_zero, Nat.div_one] at h
    omega
  | succ k ih =>
    rw [Nat.pow_succ, ← Nat.div_div_eq_div_mul, ← Nat.div_div_eq_div_mul] at h
    have hle : n / 0x40 ^ k ≤ m / 0x40 ^ k := Nat.div_le_div_right (Nat.le_of_lt hlt)
    simp only [tails, List.cons_append, List.cons_lt_cons_iff]
    -- The first byte decides, unless it holds the same bits in both.
    rcases Nat.lt_or_eq_of_le hle with hdiv | hdiv
    · refine .inl ?_
      rw [UInt8.lt_iff_toNat_lt, toNat_tailByte, toNat_tailByte]
      omega
    · exact .inr ⟨by rw [hdiv], ih hdiv⟩

/-- The first bytes of two characters are ordered as the characters, or they are the same and the
bytes that follow decide. -/
theorem leadByte_lt_or {m : Nat} (hlt : n < m) : leadByte n < leadByte m ∨
    leadByte n = leadByte m ∧ tailCount n = tailCount m ∧
      n / 0x40 ^ tailCount n = m / 0x40 ^ tailCount n := by
  -- The lengths of both characters are known in each case, and then it is arithmetic.
  rcases leadByte_cases n with ⟨hn, hcn, hln⟩ | ⟨hn, hcn, hln⟩ | ⟨hn, hcn, hln⟩ | ⟨hn, hcn, hln⟩ <;>
  rcases leadByte_cases m with ⟨hm, hcm, hlm⟩ | ⟨hm, hcm, hlm⟩ | ⟨hm, hcm, hlm⟩ | ⟨hm, hcm, hlm⟩ <;>
  rw [hcn, hcm, hln, hlm] <;> omega

/-- The bytes of texts are ordered as their first characters, if these differ. -/
theorem encodeChar_append_lt {c d : Char} (h : c < d) (x y : List UInt8) :
    encodeChar c ++ x < encodeChar d ++ y := by
  have hlt : c.toNat < d.toNat := h
  have hbyte (c : Char) : (leadByte c.toNat).toUInt8.toNat = leadByte c.toNat := by
    have hvalid := toNat_valid c
    exact UInt8.toNat_ofNat_of_lt' (leadByte_lt (by omega))
  rw [encodeChar_eq, encodeChar_eq, List.cons_append, List.cons_append, List.cons_lt_cons_iff]
  rcases leadByte_lt_or hlt with hlead | ⟨hlead, hcount, hdiv⟩
  · -- The first bytes differ.
    refine .inl ?_
    rw [UInt8.lt_iff_toNat_lt, hbyte c, hbyte d]
    exact hlead
  · -- The first bytes are the same, and the others decide.
    refine .inr ⟨by rw [hlead], ?_⟩
    rw [← hcount]
    exact tails_append_lt hlt hdiv x y

/-- A smaller text has smaller bytes. -/
theorem encode_lt_encode {t : List Char} (h : s < t) : encode s < encode t := by
  induction s generalizing t with
  | nil =>
    cases t with
    | nil => exact absurd h (List.lt_irrefl _)
    | cons d t =>
      rw [encode, encode, List.flatMap_nil, List.flatMap_cons, encodeChar_eq]
      exact List.nil_lt_cons ..
  | cons c s ih =>
    cases t with
    | nil => exact absurd h (List.not_lt_nil _)
    | cons d t =>
      simp only [encode, List.flatMap_cons]
      -- The first characters decide, or they are the same and so are their bytes.
      rcases List.cons_lt_cons_iff.1 h with hcd | ⟨rfl, hst⟩
      · exact encodeChar_append_lt hcd _ _
      · exact List.append_left_lt (ih hst)

/-- The bytes of texts are ordered as the texts are. -/
theorem encode_lt_encode_iff {t : List Char} : encode s < encode t ↔ s < t := by
  refine ⟨fun h => ?_, encode_lt_encode⟩
  apply Decidable.byContradiction
  intro hst
  rcases List.le_iff_lt_or_eq.1 (List.not_lt.1 hst) with hts | rfl
  · exact List.lt_asymm h (encode_lt_encode hts)
  · exact List.lt_irrefl _ h

end RelAlgebra.Utf8
