import IniScan.Proofs.Text.WellFormed
import IniScan.Proofs.Word.Sound

/-!
# The format of a stored word

Bytes store a word if the first of them is the number of the others and these are well-formed. The number is compared
first. A payload is at most as long as its size byte can say, so all of its text fits a word, and the word that is read is
stored in the very bytes that it was read from.

* `says_ofBytes`: what bytes are read as, by the rules of the format.
* `write_of_says`: what was read is written as it was.
-/
namespace IniScan.Word

open Text

/-- What the bytes say, by the rules of the format. -/
inductive Says : List UInt8 → Except StateError Word → Prop
  | nothing : Says [] (.ok empty)
  | mismatch {size : UInt8} {payload : List UInt8} : payload.length ≠ size.toNat →
      Says (size :: payload) (.error (.lengthMismatch size.toNat payload.length))
  | text {size : UInt8} {payload : List UInt8} {s : List Char} : payload.length = size.toNat →
      payload = Utf8.encode s → Says (size :: payload) (.ok ⟨s, payload.length, false⟩)
  | malformed {size : UInt8} {payload : List UInt8} {cause : Utf8.Malformed} : payload.length = size.toNat →
      (∀ s, payload ≠ Utf8.encode s) → cause.Describes payload →
      Says (size :: payload) (.error (.invalidUtf8 cause))

/-- A text that one byte can count fits a word. -/
theorem ofText_of_byteSize {s : List Char} {size : UInt8} (h : byteSize s = size.toNat) :
    ofText s = ⟨s, byteSize s, false⟩ := by
  have hsize : byteSize s < 256 := h ▸ size.toNat_lt
  exact ofText_of_le (Nat.le_of_lt_succ hsize)

theorem says_ofBytes (bytes : List UInt8) : Says bytes (ofBytes bytes) := by
  cases bytes with
  | nil => exact .nothing
  | cons size payload =>
    by_cases hlength : payload.length = size.toNat
    · rw [ofBytes, if_pos hlength]
      cases hdecode : Utf8.decode payload with
      | ok s =>
        have hpayload := Utf8.decode_eq_ok_iff.1 hdecode
        have hsize : byteSize s = payload.length := by rw [hpayload, Utf8.length_encode]
        simp only [ofText_of_byteSize (hsize.trans hlength), hsize]
        exact .text hlength hpayload
      | error cause =>
        refine .malformed hlength ?_ (Utf8.describes_of_decode hdecode)
        rintro s rfl
        rw [Utf8.decode_encode] at hdecode
        cases hdecode
    · rw [ofBytes, if_neg hlength]
      exact .mismatch hlength

/-- What was read from a size and a payload is written to the same bytes, in front of what the buffer has behind them. -/
theorem write_of_says {size : UInt8} {payload : List UInt8} {w : Word} (h : Says (size :: payload) (.ok w))
    {buffer : List UInt8} (hroom : payload.length + 1 ≤ buffer.length) :
    w.write? buffer = some (size :: payload ++ buffer.drop (payload.length + 1)) := by
  cases h with
  | @text _ _ s hlength hpayload =>
    have hstored : storedSize ⟨s, payload.length, false⟩ = payload.length + 1 := Nat.add_comm _ _
    have hbytes : bytes ⟨s, payload.length, false⟩ = size :: payload := by
      rw [bytes, hlength, UInt8.ofNat_toNat, ← hpayload]
    rw [write?, hstored, hbytes, if_pos hroom]

end IniScan.Word
