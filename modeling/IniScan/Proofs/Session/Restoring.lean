import IniScan.Session
import IniScan.Proofs.Scanner.Storing
import IniScan.Proofs.Word.Format

/-!
# Restoring from any bytes

A host may hand a scanner any bytes. The scanner takes exactly those that store a word, and of any others it says how they
go wrong: their size does not count them, or else they stop to be a text at a certain place. A scanner that refuses
bytes is left as it was, whether the host asked whether they are right or vouched for them.

* `format_ofBytes`: the bytes that are taken, and what they are taken as.
* `atomic_restore`: what becomes of the scanner.
* `restoring_exact`: both.
-/
namespace IniScan

open Text

namespace Word

/-- What the bytes are read as. -/
structure Format (b : List UInt8) : Prop where
  read_iff : (∃ w, ofBytes b = .ok w) ↔ b = [] ∨
    ∃ size payload, b = size :: payload ∧ payload.length = size.toNat ∧ payload.toByteArray.IsValidUTF8
  /-- The size is what counts first, whether the payload is well-formed or not. -/
  mismatch : ∀ {size payload}, b = size :: payload → payload.length ≠ size.toNat →
    ofBytes b = .error (.lengthMismatch size.toNat payload.length)
  malformed : ∀ {size payload}, b = size :: payload → payload.length = size.toNat →
    ¬ payload.toByteArray.IsValidUTF8 →
    ∃ cause, ofBytes b = .error (.invalidUtf8 cause) ∧ cause.Describes payload
  /-- The word has all the characters of the payload and has dropped none, and it is written as it was read. -/
  read : ∀ {size payload w}, b = size :: payload → ofBytes b = .ok w →
    (Utf8.encode w.chars = payload ∧ w.size = payload.length ∧ w.saturated = false) ∧
    ∀ buffer, b.length ≤ buffer.length → w.write? buffer = some (b ++ buffer.drop b.length)
  nothing : b = [] → ofBytes b = .ok empty ∧
    ∀ buffer, 1 ≤ buffer.length → empty.write? buffer = some ([0] ++ buffer.drop 1)

theorem format_ofBytes (b : List UInt8) : Format b := by
  have hsays := says_ofBytes b
  refine ⟨⟨?_, ?_⟩, ?_, ?_, ?_, ?_⟩
  · rintro ⟨w, hw⟩
    rw [hw] at hsays
    cases hsays with
    | nothing => exact Or.inl rfl
    | text hlength hpayload => exact Or.inr ⟨_, _, rfl, hlength, Utf8.isValidUTF8_iff.2 ⟨_, hpayload⟩⟩
  · rintro (rfl | ⟨size, payload, rfl, hlength, hvalid⟩)
    · exact ⟨empty, rfl⟩
    obtain ⟨s, hpayload⟩ := Utf8.isValidUTF8_iff.1 hvalid
    generalize ofBytes (size :: payload) = r at hsays ⊢
    cases hsays with
    | mismatch hne => exact absurd hlength hne
    | text => exact ⟨_, rfl⟩
    | malformed _ hnone => exact absurd hpayload (hnone s)
  · rintro size payload rfl hlength
    exact if_neg hlength
  · rintro size payload rfl hlength hvalid
    generalize ofBytes (size :: payload) = r at hsays ⊢
    cases hsays with
    | mismatch hne => exact absurd hlength hne
    | text _ hpayload => exact absurd (Utf8.isValidUTF8_iff.2 ⟨_, hpayload⟩) hvalid
    | malformed _ _ hcause => exact ⟨_, rfl, hcause⟩
  · rintro size payload w rfl hw
    rw [hw] at hsays
    refine ⟨?_, fun buffer hroom => write_of_says hsays hroom⟩
    cases hsays with
    | text _ hpayload => exact ⟨hpayload.symm, rfl, rfl⟩
  · rintro rfl
    exact ⟨rfl, fun buffer hroom => if_pos hroom⟩

/-- A surrogate behind one letter: the size counts the payload, and one byte of it is well-formed. -/
example : ofBytes [5, 97, 0xED, 0xA0, 0x80, 98] = .error (.invalidUtf8 (.invalid 1 1)) := rfl

end Word

namespace Session

/-- What restoring from the bytes comes to, for a host that asks whether they are right and for one that vouches for
them. -/
structure Atomic (s : Session) (b : List UInt8) : Prop where
  /-- Bytes that are refused change nothing. -/
  refused : ∀ {cause}, Word.ofBytes b = .error cause →
    s.step (.restore b) = (.refused cause, s) ∧ s.step (.reinstate b) = (.breach ⟨cause⟩, s)
  /-- Bytes that are taken change the word and nothing else. -/
  taken : ∀ {w}, Word.ofBytes b = .ok w →
    s.step (.restore b) = (.done, s.withScanner ⟨s.host.scanner.config, w⟩) ∧
    s.step (.reinstate b) = (.done, s.withScanner ⟨s.host.scanner.config, w⟩)
  breach_iff : (∃ x, (s.step (.reinstate b)).1 = .breach x) ↔ ∃ cause, (s.step (.restore b)).1 = .refused cause

theorem atomic_restore (s : Session) (b : List UInt8) : s.Atomic b := by
  have hrefused : ∀ {cause}, Word.ofBytes b = .error cause →
      s.step (.restore b) = (.refused cause, s) ∧ s.step (.reinstate b) = (.breach ⟨cause⟩, s) := by
    intro cause h
    have hrestore : s.host.scanner.restore b = .error cause := by rw [Scanner.restore, h]; rfl
    have hreinstate : s.host.scanner.reinstate b = .error ⟨cause⟩ := by rw [Scanner.reinstate, hrestore]; rfl
    exact ⟨by simp only [step, hrestore], by simp only [step, hreinstate]⟩
  have htaken : ∀ {w}, Word.ofBytes b = .ok w →
      s.step (.restore b) = (.done, s.withScanner ⟨s.host.scanner.config, w⟩) ∧
      s.step (.reinstate b) = (.done, s.withScanner ⟨s.host.scanner.config, w⟩) := by
    intro w h
    have hrestore : s.host.scanner.restore b = .ok ⟨s.host.scanner.config, w⟩ :=
      Scanner.restore_eq_ok_iff.2 ⟨w, h, rfl⟩
    exact ⟨by simp only [step, hrestore], by simp only [step, Scanner.reinstate_eq_ok_iff.2 hrestore]⟩
  refine ⟨hrefused, htaken, ?_⟩
  cases h : Word.ofBytes b with
  | error cause => rw [(hrefused h).1, (hrefused h).2]; exact ⟨fun _ => ⟨_, rfl⟩, fun _ => ⟨_, rfl⟩⟩
  | ok w => rw [(htaken h).1, (htaken h).2]; exact ⟨nofun, nofun⟩

/-- **Restoring is exact and atomic.** Bytes are taken exactly if they are none or store a word, and then they store the
word that is read from them; and from wherever a session has come to, bytes that are refused leave everything as it was. -/
theorem restoring_exact (s : Session) (b : List UInt8) : Word.Format b ∧ s.Atomic b :=
  ⟨Word.format_ofBytes b, atomic_restore s b⟩

end Session

end IniScan
