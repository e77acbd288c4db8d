import IniScan.Word.Stored
import IniScan.Proofs.Text.Utf8
import IniScan.Proofs.Word.Compare

/-!
# Words whose size is right

A word notes the size of its characters beside them, and stores this size in one byte. Every word that is built by
pushes has the right size, and it fits the byte. That is all that reading a stored word needs: it comes out with the
same characters and the same size, and without the note that a character was dropped, which is not stored.

* `sound_push`, `sound_ofBytes`: words that are built have the right size.
* `ofBytes_bytes`: a stored word is read back.
-/
namespace IniScan.Word

open Text

/-- The size is that of the characters, and one byte holds it. -/
structure Sound (w : Word) : Prop where
  size_eq : w.size = byteSize w.chars
  size_le : w.size ≤ capacity

theorem sound_empty : Sound empty := ⟨rfl, by decide⟩

theorem sound_push {w : Word} (h : w.Sound) (c : Char) : (w.push c).Sound := by
  refine ⟨?_, size_push_le h.size_le c⟩
  unfold push
  split
  · simp only [byteSize_append, byteSize_cons, byteSize_nil, h.size_eq, Nat.add_zero]
  · exact h.size_eq

theorem sound_pushAll {w : Word} (h : w.Sound) (s : List Char) : (w.pushAll s).Sound := by
  induction s generalizing w with
  | nil => exact h
  | cons c cs ih => exact ih (sound_push h c)

theorem sound_ofBytes {bytes : List UInt8} {w : Word} (h : ofBytes bytes = .ok w) : w.Sound := by
  unfold ofBytes at h
  split at h
  · cases h
    exact sound_empty
  · split at h
    · split at h
      · cases h
        exact sound_pushAll sound_empty _
      · cases h
    · cases h

/-! ## Reading a stored word -/

/-- The word without the note that a character was dropped. -/
def restored (w : Word) : Word := { w with saturated := false }

theorem ofText_chars {w : Word} (h : w.Sound) : ofText w.chars = w.restored := by
  rw [ofText_of_le (h.size_eq ▸ h.size_le), ← h.size_eq]
  rfl

/-- The first byte is the size, which is not cut off. -/
theorem toNat_ofNat_size {w : Word} (h : w.Sound) : (UInt8.ofNat w.size).toNat = w.size :=
  Utf8.toNat_ofNat (Nat.lt_of_le_of_lt h.size_le (by decide))

theorem ofBytes_bytes {w : Word} (h : w.Sound) : ofBytes w.bytes = .ok w.restored := by
  have hlength : (Utf8.encode w.chars).length = (UInt8.ofNat w.size).toNat := by
    rw [Utf8.length_encode, toNat_ofNat_size h, h.size_eq]
  rw [bytes, ofBytes, if_pos hlength, Utf8.decode_encode]
  exact congrArg Except.ok (ofText_chars h)

/-- A buffer with room for the word begins with its bytes when it has been written. -/
theorem exists_write {w : Word} (h : w.Sound) {buffer : List UInt8} (hroom : w.storedSize ≤ buffer.length) :
    ∃ after, w.write? buffer = some after ∧ after.take w.storedSize = w.bytes := by
  refine ⟨_, if_pos hroom, ?_⟩
  rw [List.take_left' (length_bytes h.size_eq)]

end IniScan.Word
