import IniScan.Text.Utf8

/-!
# Reading what was written

A character is written as a first byte that tells how many follow, and following bytes of six bits each. The reader
narrows the range of the second byte behind four of the first ones. What is written stays within these ranges, because it is
as short as it can be and no character is a surrogate.

* `lead_ofNat`: the table of first bytes on numbers.
* `decodeFrom_encodeChar`: a character at the start of the bytes is read back.
* `decode_encode`: so is a text.
-/
namespace IniScan.Text.Utf8

/-! ## First bytes -/

theorem toNat_ofNat {n : Nat} (h : n < 256) : (UInt8.ofNat n).toNat = n := UInt8.toNat_ofNat_of_lt' h

theorem lead_ofNat {n : Nat} (h : n < 256) : lead (UInt8.ofNat n) =
    if n < 0x80 then .whole (Char.ofNat n)
    else if n < 0xC2 then .nothing
    else if n < 0xE0 then .opens ⟨1, 0, 0x80, 0xBF, n % 32⟩
    else if n = 0xE0 then .opens ⟨1, 1, 0xA0, 0xBF, 0⟩
    else if n = 0xED then .opens ⟨1, 1, 0x80, 0x9F, 13⟩
    else if n < 0xF0 then .opens ⟨1, 1, 0x80, 0xBF, n % 16⟩
    else if n = 0xF0 then .opens ⟨1, 2, 0x90, 0xBF, 0⟩
    else if n < 0xF4 then .opens ⟨1, 2, 0x80, 0xBF, n % 8⟩
    else if n = 0xF4 then .opens ⟨1, 2, 0x80, 0x8F, 4⟩
    else .nothing := by
  simp only [lead, UInt8.lt_iff_toNat_lt, ← UInt8.toNat_inj, toNat_ofNat h]
  rfl

/-- The first byte of three has the top four bits, and the range of the second byte depends on it. -/
theorem lead_three {n : Nat} (h : 0xE0 ≤ n) (h' : n < 0xF0) : ∃ low high,
    lead (UInt8.ofNat n) = .opens ⟨1, 1, low, high, n % 16⟩ ∧
    low.toNat = (if n = 0xE0 then 0xA0 else 0x80) ∧ high.toNat = if n = 0xED then 0x9F else 0xBF := by
  rw [lead_ofNat (by omega)]
  simp (disch := omega) only [if_neg]
  by_cases h1 : n = 0xE0
  · subst h1
    exact ⟨_, _, rfl, rfl, rfl⟩
  by_cases h2 : n = 0xED
  · subst h2
    exact ⟨_, _, rfl, rfl, rfl⟩
  · simp only [if_neg h1, if_neg h2, if_pos h']
    exact ⟨_, _, rfl, rfl, rfl⟩

/-- The first byte of four has the top three bits. -/
theorem lead_four {n : Nat} (h : 0xF0 ≤ n) (h' : n ≤ 0xF4) : ∃ low high,
    lead (UInt8.ofNat n) = .opens ⟨1, 2, low, high, n % 8⟩ ∧
    low.toNat = (if n = 0xF0 then 0x90 else 0x80) ∧ high.toNat = if n = 0xF4 then 0x8F else 0xBF := by
  rw [lead_ofNat (by omega)]
  simp (disch := omega) only [if_neg]
  by_cases h1 : n = 0xF0
  · subst h1
    exact ⟨_, _, rfl, rfl, rfl⟩
  by_cases h2 : n = 0xF4
  · subst h2
    exact ⟨_, _, rfl, rfl, rfl⟩
  · simp only [if_neg h1, if_neg h2, if_pos (show n < 0xF4 by omega)]
    exact ⟨_, _, rfl, rfl, rfl⟩

/-! ## Following bytes -/

section

variable {valid n : Nat} {o : Opened} (bs : List UInt8)

theorem bitsWith_ofNat (o : Opened) (h : n < 256) : o.bitsWith (UInt8.ofNat n) = o.bits * 64 + n % 64 := by
  rw [Opened.bitsWith, toNat_ofNat h]

theorem in_range (h : n < 256) (hlow : o.low.toNat ≤ n) (hhigh : n ≤ o.high.toNat) :
    o.low ≤ UInt8.ofNat n ∧ UInt8.ofNat n ≤ o.high := by
  rw [UInt8.le_iff_toNat_le, UInt8.le_iff_toNat_le, toNat_ofNat h]
  exact ⟨hlow, hhigh⟩

theorem decodeFrom_last (hleft : o.left = 0) (h : n < 256) (hlow : o.low.toNat ≤ n) (hhigh : n ≤ o.high.toNat) :
    decodeFrom valid (some o) (UInt8.ofNat n :: bs) =
      (decodeFrom (valid + o.read + 1) none bs).map (Char.ofNat (o.bits * 64 + n % 64) :: ·) := by
  rw [decodeFrom, if_pos (in_range h hlow hhigh), bitsWith_ofNat o h, hleft]

theorem decodeFrom_more {left : Nat} (hleft : o.left = left + 1) (h : n < 256) (hlow : o.low.toNat ≤ n)
    (hhigh : n ≤ o.high.toNat) : decodeFrom valid (some o) (UInt8.ofNat n :: bs) =
      decodeFrom valid (some ⟨o.read + 1, left, 0x80, 0xBF, o.bits * 64 + n % 64⟩) bs := by
  rw [decodeFrom, if_pos (in_range h hlow hhigh), bitsWith_ofNat o h, hleft]

theorem tail_range (n : Nat) : (0x80 : UInt8).toNat ≤ n % 64 + 128 ∧ n % 64 + 128 ≤ (0xBF : UInt8).toNat := by
  show 128 ≤ _ ∧ _ ≤ 191
  omega

theorem decodeFrom_opens {b : UInt8} (h : lead b = .opens o) :
    decodeFrom valid none (b :: bs) = decodeFrom valid (some o) bs := by
  rw [decodeFrom, h]

end

/-! ## Characters and texts -/

theorem decodeFrom_one {c : Char} (h : c.toNat < 0x80) (valid : Nat) (bs : List UInt8) :
    decodeFrom valid none (UInt8.ofNat c.toNat :: bs) = (decodeFrom (valid + 1) none bs).map (c :: ·) := by
  have hlead := lead_ofNat (n := c.toNat) (by omega)
  rw [if_pos h, Char.ofNat_toNat] at hlead
  rw [decodeFrom, hlead]

theorem decodeFrom_two {c : Char} (h : 0x80 ≤ c.toNat) (h' : c.toNat < 0x800) (valid : Nat) (bs : List UInt8) :
    decodeFrom valid none (UInt8.ofNat (c.toNat / 64 % 32 + 192) :: UInt8.ofNat (c.toNat % 64 + 128) :: bs) =
      (decodeFrom (valid + 2) none bs).map (c :: ·) := by
  have hlead := lead_ofNat (n := c.toNat / 64 % 32 + 192) (by omega)
  simp (disch := omega) only [if_pos, if_neg] at hlead
  obtain ⟨hlow, hhigh⟩ := tail_range c.toNat
  have hbits : (c.toNat / 64 % 32 + 192) % 32 * 64 + (c.toNat % 64 + 128) % 64 = c.toNat := by omega
  rw [decodeFrom_opens _ hlead, decodeFrom_last _ rfl (by omega) hlow hhigh, hbits, Char.ofNat_toNat]

/-- The number of a character is in range and none of a surrogate. -/
theorem toNat_valid (c : Char) : c.toNat < 0xD800 ∨ (0xDFFF < c.toNat ∧ c.toNat < 0x110000) := c.valid

theorem decodeFrom_three {c : Char} (h : 0x800 ≤ c.toNat) (h' : c.toNat < 0x10000) (valid : Nat) (bs : List UInt8) :
    decodeFrom valid none (UInt8.ofNat (c.toNat / 4096 % 16 + 224) :: UInt8.ofNat (c.toNat / 64 % 64 + 128) ::
      UInt8.ofNat (c.toNat % 64 + 128) :: bs) = (decodeFrom (valid + 3) none bs).map (c :: ·) := by
  obtain ⟨low, high, hlead, hlow, hhigh⟩ := lead_three (n := c.toNat / 4096 % 16 + 224) (by omega) (by omega)
  have hvalid := toNat_valid c
  have hlow' : low.toNat ≤ c.toNat / 64 % 64 + 128 := by rw [hlow]; split <;> omega
  have hhigh' : c.toNat / 64 % 64 + 128 ≤ high.toNat := by rw [hhigh]; split <;> omega
  obtain ⟨hlast, hlast'⟩ := tail_range c.toNat
  have hbits : ((c.toNat / 4096 % 16 + 224) % 16 * 64 + (c.toNat / 64 % 64 + 128) % 64) * 64 +
      (c.toNat % 64 + 128) % 64 = c.toNat := by omega
  rw [decodeFrom_opens _ hlead, decodeFrom_more _ rfl (by omega) hlow' hhigh',
    decodeFrom_last _ rfl (by omega) hlast hlast', hbits, Char.ofNat_toNat]

theorem decodeFrom_four {c : Char} (h : 0x10000 ≤ c.toNat) (valid : Nat) (bs : List UInt8) :
    decodeFrom valid none (UInt8.ofNat (c.toNat / 262144 % 8 + 240) :: UInt8.ofNat (c.toNat / 4096 % 64 + 128) ::
      UInt8.ofNat (c.toNat / 64 % 64 + 128) :: UInt8.ofNat (c.toNat % 64 + 128) :: bs) =
      (decodeFrom (valid + 4) none bs).map (c :: ·) := by
  have hvalid := toNat_valid c
  obtain ⟨low, high, hlead, hlow, hhigh⟩ := lead_four (n := c.toNat / 262144 % 8 + 240) (by omega) (by omega)
  have hlow' : low.toNat ≤ c.toNat / 4096 % 64 + 128 := by rw [hlow]; split <;> omega
  have hhigh' : c.toNat / 4096 % 64 + 128 ≤ high.toNat := by rw [hhigh]; split <;> omega
  obtain ⟨hthird, hthird'⟩ := tail_range (c.toNat / 64)
  obtain ⟨hlast, hlast'⟩ := tail_range c.toNat
  have hbits : (((c.toNat / 262144 % 8 + 240) % 8 * 64 + (c.toNat / 4096 % 64 + 128) % 64) * 64 +
      (c.toNat / 64 % 64 + 128) % 64) * 64 + (c.toNat % 64 + 128) % 64 = c.toNat := by omega
  rw [decodeFrom_opens _ hlead, decodeFrom_more _ rfl (by omega) hlow' hhigh',
    decodeFrom_more _ rfl (by omega) hthird hthird', decodeFrom_last _ rfl (by omega) hlast hlast', hbits,
    Char.ofNat_toNat]

theorem decodeFrom_encodeChar (c : Char) (valid : Nat) (bs : List UInt8) :
    decodeFrom valid none (String.utf8EncodeChar c ++ bs) =
      (decodeFrom (valid + c.utf8Size) none bs).map (c :: ·) := by
  rw [← String.length_utf8EncodeChar]
  unfold String.utf8EncodeChar
  dsimp only
  split
  · rename_i h
    exact decodeFrom_one (Nat.lt_succ_of_le h) valid bs
  split
  · rename_i h h'
    exact decodeFrom_two (Nat.lt_of_not_le h) (Nat.lt_succ_of_le h') valid bs
  split
  · rename_i h h'
    exact decodeFrom_three (Nat.lt_of_not_le h) (Nat.lt_succ_of_le h') valid bs
  · rename_i h
    exact decodeFrom_four (Nat.lt_of_not_le h) valid bs

theorem decodeFrom_encode (s : List Char) (valid : Nat) : decodeFrom valid none (encode s) = .ok s := by
  induction s generalizing valid with
  | nil => rfl
  | cons c cs ih =>
    rw [encode_cons, decodeFrom_encodeChar, ih]
    rfl

theorem decode_encode (s : List Char) : decode (encode s) = .ok s := decodeFrom_encode s 0

end IniScan.Text.Utf8
