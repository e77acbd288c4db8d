import IniScan.Slicing
import IniScan.Proofs.Text.Case
import IniScan.Proofs.Text.WellFormed

/-!
# Comparing bytes

A host compares a text with its own by the bytes of both. The bytes of two texts agree, as far as one goes or up to the
case of ASCII letters, exactly when their characters do. For case this is so because a capital is one byte, as is its small
letter, and no byte of a longer character is that of a capital.

* `isPrefix_encode_iff`: a text comes next when its bytes do.
* `encode_lower`: lower case is the same thing for characters and for bytes.
* `eqIgnoreCase_encode`: texts and their bytes are equal up to case alike.
-/
namespace IniScan.Text.Utf8

theorem encode_inj {s t : List Char} (h : encode s = encode t) : s = t := by
  have hread := decode_encode s
  rw [h, decode_encode] at hread
  exact (Except.ok.inj hread).symm

theorem isPrefix_encode_iff {s t : List Char} : encode s <+: encode t ↔ s <+: t := by
  refine ⟨fun h => ?_, ?_⟩
  · have hnone : ∀ c, ¬ String.utf8EncodeChar c <+: [] := fun c hc => by
      have hlength := String.length_utf8EncodeChar c
      have hpos := c.utf8Size_pos
      rw [List.prefix_nil.1 hc, List.length_nil] at hlength
      omega
    exact isPrefix_of_encode hnone (by rw [List.append_nil]; exact h)
  · rintro ⟨rest, rfl⟩
    rw [encode_append]
    exact List.prefix_append _ _

/-! ## Case -/

theorem toNat_lowerByte (b : UInt8) :
    (lowerByte b).toNat = if 0x41 ≤ b.toNat ∧ b.toNat ≤ 0x5A then b.toNat + 32 else b.toNat := by
  have hiff : (0x41 ≤ b ∧ b ≤ 0x5A) ↔ 0x41 ≤ b.toNat ∧ b.toNat ≤ 0x5A := by
    rw [UInt8.le_iff_toNat_le, UInt8.le_iff_toNat_le]
    rfl
  unfold lowerByte
  split
  · rename_i h
    rw [if_pos (hiff.1 h), UInt8.toNat_add]
    have hle := (hiff.1 h).2
    show (b.toNat + 32) % 2 ^ 8 = b.toNat + 32
    omega
  · rename_i h
    rw [if_neg (fun h' => h (hiff.2 h'))]

theorem encodeChar_of_lt {c : Char} (h : c.toNat < 0x80) : String.utf8EncodeChar c = [UInt8.ofNat c.toNat] :=
  if_pos (Nat.le_of_lt_succ h)

theorem le_of_mem_encodeChar {c : Char} (h : 0x80 ≤ c.toNat) {b : UInt8} (hb : b ∈ String.utf8EncodeChar c) :
    0x80 ≤ b.toNat := by
  have hvalid := toNat_valid c
  have hone : ¬ c.val.toNat ≤ 127 := Nat.not_le.2 h
  unfold String.utf8EncodeChar at hb
  dsimp only at hb
  rw [if_neg hone] at hb
  split at hb
  · simp only [List.mem_cons, List.not_mem_nil, or_false] at hb
    rcases hb with rfl | rfl <;> rw [toNat_ofNat (by omega)] <;> omega
  split at hb
  · simp only [List.mem_cons, List.not_mem_nil, or_false] at hb
    rcases hb with rfl | rfl | rfl <;> rw [toNat_ofNat (by omega)] <;> omega
  · simp only [List.mem_cons, List.not_mem_nil, or_false] at hb
    rcases hb with rfl | rfl | rfl | rfl <;> rw [toNat_ofNat (by omega)] <;> omega

theorem map_lowerByte_encodeChar (c : Char) :
    (String.utf8EncodeChar c).map lowerByte = String.utf8EncodeChar c.toLower := by
  have hlower := toNat_toLower c
  rcases Nat.lt_or_ge c.toNat 0x80 with h | h
  · have hlt : c.toLower.toNat < 0x80 := by
      rw [hlower]
      split <;> omega
    rw [encodeChar_of_lt h, encodeChar_of_lt hlt, List.map_singleton, List.singleton_inj, ← UInt8.toNat_inj,
      toNat_lowerByte, toNat_ofNat (by omega), toNat_ofNat (by omega), hlower]
  · have hsame : c.toLower = c := by
      rw [if_neg (by omega)] at hlower
      exact Char.toNat_inj.1 hlower
    have hbytes : ∀ b ∈ String.utf8EncodeChar c, lowerByte b = b := fun b hb => by
      have hhigh := le_of_mem_encodeChar h hb
      rw [← UInt8.toNat_inj, toNat_lowerByte, if_neg (by omega)]
    rw [hsame, List.map_congr_left hbytes, List.map_id']

theorem encode_lower (s : List Char) : encode (lower s) = (encode s).map lowerByte := by
  induction s with
  | nil => rfl
  | cons c cs ih => rw [lower_cons, encode_cons, encode_cons, List.map_append, map_lowerByte_encodeChar, ih]

theorem eqIgnoreCase_encode (s t : List Char) : eqIgnoreCase (encode s) (encode t) = Text.eqIgnoreCase s t := by
  have hiff : encode (lower s) = encode (lower t) ↔ lower s = lower t := ⟨encode_inj, congrArg encode⟩
  rw [eqIgnoreCase, ← encode_lower, ← encode_lower, Text.eqIgnoreCase, decide_eq_decide]
  exact hiff

end IniScan.Text.Utf8
