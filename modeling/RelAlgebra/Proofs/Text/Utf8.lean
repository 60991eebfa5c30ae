import RelAlgebra.Text.Utf8

/-!
# Texts come back from their bytes

A character is decoded from its bytes to itself, with any bytes after them: the first byte tells the
highest bits and how many bytes follow, and each of these adds six bits. That the bounds on the
second byte hold is where it matters that a character is no surrogate and has no shorter form.
-/

namespace RelAlgebra.Utf8

/-- The byte that adds the lowest six bits of a number. -/
def tailByte (n : Nat) : UInt8 := (0x80 + n % 0x40).toUInt8

/-- The value of a byte after the first one. -/
theorem toNat_tailByte (n : Nat) : (tailByte n).toNat = 0x80 + n % 0x40 := by
  have hlt : 0x80 + n % 0x40 < 0x100 := by omega
  exact UInt8.toNat_ofNat_of_lt' hlt

variable {p : Partial} {n offset : Nat} {bs : List UInt8}

/-- The last byte of a character completes its number. -/
theorem decodeFrom_last (hlater : p.later = 0) (hbits : p.bits = n / 0x40)
    (hlow : p.low ≤ 0x80 + n % 0x40) (hhigh : 0x80 + n % 0x40 ≤ p.high) :
    decodeFrom (some p) offset (tailByte n :: bs) =
      (Char.ofNat n :: ·) <$> decodeFrom none (offset + p.taken + 1) bs := by
  have hn : n / 0x40 * 0x40 + (0x80 + n % 0x40 - 0x80) = n := by omega
  rw [decodeFrom, toNat_tailByte, if_pos ⟨hlow, hhigh⟩]
  simp only [hlater, hbits, hn]

/-- A byte in the middle of a character adds its bits and leaves the next byte free. -/
theorem decodeFrom_middle {later : Nat} (hlater : p.later = later + 1) (hbits : p.bits = n / 0x40)
    (hlow : p.low ≤ 0x80 + n % 0x40) (hhigh : 0x80 + n % 0x40 ≤ p.high) :
    decodeFrom (some p) offset (tailByte n :: bs) =
      decodeFrom (some ⟨n, p.taken + 1, later, 0x80, 0xBF⟩) offset bs := by
  have hn : n / 0x40 * 0x40 + (0x80 + n % 0x40 - 0x80) = n := by omega
  rw [decodeFrom, toNat_tailByte, if_pos ⟨hlow, hhigh⟩]
  simp only [hlater, hbits, hn]

/-- The first byte of a longer sequence tells what `lead?` makes of it. -/
theorem decodeFrom_lead {b : Nat} (hb : b < 256) (hlead : lead? b = some p) :
    decodeFrom none offset (b.toUInt8 :: bs) = decodeFrom (some p) offset bs := by
  have hbig : ¬ b < 0x80 := by
    intro hlt
    rw [lead?, if_pos (by omega)] at hlead
    exact nomatch hlead
  have hbyte : b.toUInt8.toNat = b := UInt8.toNat_ofNat_of_lt' hb
  rw [decodeFrom, hbyte, if_neg hbig, hlead]

/-- A character with two bytes: its second byte may have any bits. -/
theorem lead?_two (h : 0x80 ≤ n) (h' : n < 0x800) :
    lead? (0xC0 + n / 0x40) = some ⟨n / 0x40, 1, 0, 0x80, 0xBF⟩ := by
  rw [lead?, if_neg (by omega), if_pos (by omega), Nat.add_sub_cancel_left]

/-- A character with three bytes: its second byte is neither that of a shorter character nor that of
a surrogate. -/
theorem lead?_three (h : 0x800 ≤ n) (h' : n < 0x10000) (hs : n < 0xD800 ∨ 0xDFFF < n) :
    ∃ low high, lead? (0xE0 + n / 0x1000) = some ⟨n / 0x1000, 1, 1, low, high⟩ ∧
      low ≤ 0x80 + n / 0x40 % 0x40 ∧ 0x80 + n / 0x40 % 0x40 ≤ high := by
  have hlead : lead? (0xE0 + n / 0x1000) = some ⟨n / 0x1000, 1, 1,
      if 0xE0 + n / 0x1000 = 0xE0 then 0xA0 else 0x80,
      if 0xE0 + n / 0x1000 = 0xED then 0x9F else 0xBF⟩ := by
    rw [lead?, if_neg (by omega), if_neg (by omega), if_pos (by omega), Nat.add_sub_cancel_left]
  refine ⟨_, _, hlead, ?_, ?_⟩
  · split <;> omega
  · split <;> omega

/-- A character with four bytes: its second byte is neither that of a shorter character nor beyond
the last one. -/
theorem lead?_four (h : 0x10000 ≤ n) (h' : n < 0x110000) :
    ∃ low high, lead? (0xF0 + n / 0x40000) = some ⟨n / 0x40000, 1, 2, low, high⟩ ∧
      low ≤ 0x80 + n / 0x1000 % 0x40 ∧ 0x80 + n / 0x1000 % 0x40 ≤ high := by
  have hlead : lead? (0xF0 + n / 0x40000) = some ⟨n / 0x40000, 1, 2,
      if 0xF0 + n / 0x40000 = 0xF0 then 0x90 else 0x80,
      if 0xF0 + n / 0x40000 = 0xF4 then 0x8F else 0xBF⟩ := by
    rw [lead?, if_neg (by omega), if_neg (by omega), if_neg (by omega), if_pos (by omega),
      Nat.add_sub_cancel_left]
  refine ⟨_, _, hlead, ?_, ?_⟩
  · split <;> omega
  · split <;> omega

/-- The number of a character is below the end of Unicode and is no surrogate. -/
theorem toNat_valid (c : Char) :
    c.toNat < 0xD800 ∨ (0xDFFF < c.toNat ∧ c.toNat < 0x110000) := c.valid

/-- A character is decoded from its bytes, whatever follows them. -/
theorem decodeFrom_encodeChar (c : Char) (offset : Nat) (bs : List UInt8) :
    ∃ offset', decodeFrom none offset (encodeChar c ++ bs) =
      (c :: ·) <$> decodeFrom none offset' bs := by
  have hvalid := toNat_valid c
  have hc : Char.ofNat c.toNat = c := Char.ofNat_toNat c
  -- The bounds that hold for every byte after the second one.
  have htailLow (m : Nat) : 0x80 ≤ 0x80 + m % 0x40 := Nat.le_add_right ..
  have htailHigh (m : Nat) : 0x80 + m % 0x40 ≤ 0xBF := by omega
  simp only [encodeChar]
  -- Only the number of the character matters, and that it is no surrogate.
  generalize c.toNat = n at *
  subst hc
  split
  · -- One byte.
    next h =>
    refine ⟨offset + 1, ?_⟩
    have hbyte : n.toUInt8.toNat = n := UInt8.toNat_ofNat_of_lt' (Nat.lt_trans h (by decide))
    rw [List.cons_append, List.nil_append, decodeFrom, hbyte, if_pos h]
  · split
    · -- Two bytes.
      refine ⟨offset + 2, (decodeFrom_lead (by omega) (lead?_two (by omega) (by omega))).trans ?_⟩
      exact decodeFrom_last rfl rfl (htailLow n) (htailHigh n)
    · split
      · -- Three bytes.
        obtain ⟨low, high, hlead, hlow, hhigh⟩ :=
          lead?_three (n := n) (by omega) (by omega) (by omega)
        refine ⟨offset + 3, (decodeFrom_lead (by omega) hlead).trans ?_⟩
        have hbits : n / 0x1000 = n / 0x40 / 0x40 := by omega
        refine (decodeFrom_middle (n := n / 0x40) rfl hbits hlow hhigh).trans ?_
        exact decodeFrom_last rfl rfl (htailLow n) (htailHigh n)
      · -- Four bytes.
        obtain ⟨low, high, hlead, hlow, hhigh⟩ := lead?_four (n := n) (by omega) (by omega)
        refine ⟨offset + 4, (decodeFrom_lead (by omega) hlead).trans ?_⟩
        have hbits : n / 0x40000 = n / 0x1000 / 0x40 := by omega
        have hbits' : n / 0x1000 = n / 0x40 / 0x40 := by omega
        refine (decodeFrom_middle (n := n / 0x1000) rfl hbits hlow hhigh).trans ?_
        refine (decodeFrom_middle (n := n / 0x40) rfl hbits' (htailLow _) (htailHigh _)).trans ?_
        exact decodeFrom_last rfl rfl (htailLow n) (htailHigh n)

/-- A text is decoded from its bytes, wherever these stand. -/
theorem decodeFrom_encode (s : List Char) (offset : Nat) :
    decodeFrom none offset (encode s) = .ok s := by
  induction s generalizing offset with
  | nil => rfl
  | cons c s ih =>
    obtain ⟨offset', h⟩ := decodeFrom_encodeChar c offset (encode s)
    rw [encode, List.flatMap_cons, ← encode, h, ih]
    rfl

/-- A text is decoded from its bytes. -/
theorem decode_encode (s : List Char) : decode (encode s) = .ok s := decodeFrom_encode s 0

end RelAlgebra.Utf8
