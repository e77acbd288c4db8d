import Mathlib.Algebra.Group.Nat.Defs
import IniScan.Host
import IniScan.Proofs.Cursor.Notes

/-!
# Tokens found at the cursor

A call for a token ends in one of two ways. `Takes`: the text at the cursor is parted into a gap that is skipped, the
token, and the rest, and the cursor then stands at the rest. `Rejects`: there is no token and the cursor stands where it
stood. Both say where the cursor ends up, whatever it noted before. In a text of less than 2 ^ 32 bytes the offsets of a
token are not cut off, and it is one that the host `Finds`.

* `takes_of_read`: a reading with an outcome and a span becomes a token with its gap.
* `rejects_of_read`, `rejects_of_none`: a reading without an outcome becomes a rejection.
-/
namespace IniScan

open Text

@[simp] theorem Scanner.config_settle (s : Scanner) (offered : KindSet) : (s.settle offered).config = s.config := by
  unfold settle
  split <;> rfl

namespace Host

/-! ## Two ways for a call to end -/

/-- There is a token of the kind: `gap` is skipped in front of it, `text` is its own, and the cursor moves behind both. -/
structure Takes (h : Host) (offered : KindSet) (k : Kind) (gap text : List Char) : Prop where
  /-- The offsets are those in the text, as far as 32 bits hold them. -/
  token : (h.nextToken offered).1 = some ⟨k, UInt32.ofNat (h.cursor.pos + byteSize gap),
    UInt32.ofNat (h.cursor.pos + byteSize gap + byteSize text)⟩
  unread : h.cursor.unread = gap ++ (text ++ (h.nextToken offered).2.cursor.unread)
  passed : (h.nextToken offered).2.cursor.passed = (gap ++ text).reverse ++ h.cursor.passed

/-- A token of the kind is found: `gap` is skipped in front of it, `text` is its own, and the cursor moves behind both. -/
structure Finds (h : Host) (offered : KindSet) (k : Kind) (gap text : List Char) : Prop where
  token : (h.nextToken offered).1 = some ⟨k, UInt32.ofNat (h.cursor.pos + byteSize gap),
    UInt32.ofNat (h.cursor.pos + byteSize gap + byteSize text)⟩
  /-- The offsets of the token are offsets of the text, not cut off at 32 bits. -/
  fits : h.cursor.pos + byteSize gap + byteSize text < 2 ^ 32
  unread : h.cursor.unread = gap ++ (text ++ (h.nextToken offered).2.cursor.unread)
  passed : (h.nextToken offered).2.cursor.passed = (gap ++ text).reverse ++ h.cursor.passed

/-- No token is found, and the cursor stands where it stood. -/
structure Rejects (h : Host) (offered : KindSet) : Prop where
  token : (h.nextToken offered).1 = none
  unread : (h.nextToken offered).2.cursor.unread = h.cursor.unread
  passed : (h.nextToken offered).2.cursor.passed = h.cursor.passed

theorem scanner_nextToken (h : Host) (offered : KindSet) :
    (h.nextToken offered).2.scanner = h.scanner.settle offered := by
  cases hr : (h.scanner.read offered h.cursor.unread).outcome <;> simp [nextToken, scan_eq, Cursor.begin, hr]

theorem scanner_scan (h : Host) (offered : KindSet) : (h.scan offered).2.scanner = h.scanner.settle offered := by
  rw [scan_eq]

@[simp] theorem config_nextToken (h : Host) (offered : KindSet) :
    (h.nextToken offered).2.scanner.config = h.scanner.config := by
  rw [scanner_nextToken, Scanner.config_settle]

@[simp] theorem config_scan (h : Host) (offered : KindSet) : (h.scan offered).2.scanner.config = h.scanner.config := by
  rw [scanner_scan, Scanner.config_settle]

theorem rejects_of_read {h : Host} {offered : KindSet}
    (hr : (h.scanner.read offered h.cursor.unread).outcome = none) : h.Rejects offered := by
  constructor <;> simp [nextToken, scan_eq, Cursor.begin, hr, Cursor.noting]

/-- A call without a token is a rejection. -/
theorem rejects_of_none {h : Host} {offered : KindSet} (hn : (h.nextToken offered).1 = none) : h.Rejects offered := by
  have hr := h.kind_nextToken offered
  rw [hn, Option.map_none] at hr
  exact rejects_of_read hr.symm

section

variable {h : Host} {offered : KindSet} {k : Kind}

theorem takes_of_read {a b : Nat} {gap text rest : List Char}
    (hr : (h.scanner.read offered h.cursor.unread).outcome = some k)
    (hs : (h.scanner.read offered h.cursor.unread).Spans a b)
    (hu : h.cursor.unread = gap ++ (text ++ rest)) (ha : gap.length = a) (ht : a + text.length = b) :
    h.Takes offered k gap text := by
  obtain ⟨hstart, hstop⟩ := h.cursor.begin_follow hs
  rw [← h.cursor.tokenEnd_begin_follow hs] at hstop
  have ea : (h.cursor.pass a).pos = h.cursor.pos + byteSize gap := by
    rw [Cursor.pos_pass, hu, ← ha, List.take_left' rfl]
  have hl : (gap ++ text).length = b := by rw [List.length_append, ha, ht]
  have hu' : h.cursor.unread = (gap ++ text) ++ rest := by rw [hu, List.append_assoc]
  have eb : (h.cursor.pass b).pos = h.cursor.pos + byteSize (gap ++ text) := by
    rw [Cursor.pos_pass, hu', List.take_left' hl]
  have hc : (h.nextToken offered).2.cursor.unread = rest ∧
      (h.nextToken offered).2.cursor.passed = (gap ++ text).reverse ++ h.cursor.passed ∧
      (h.nextToken offered).1 = some ⟨k, UInt32.ofNat (h.cursor.pass a).pos, UInt32.ofNat (h.cursor.pass b).pos⟩ := by
    have hadv := h.cursor.advanceTo_of_append hu'
    rw [← eb, hl] at hadv
    have hr' : (h.scanner.read offered h.cursor.begin.unread).outcome = some k := hr
    have hstart' : (h.cursor.begin.follow (h.scanner.read offered h.cursor.begin.unread).moves).start =
      (h.cursor.pass a).pos := hstart
    have hstop' : (h.cursor.begin.follow (h.scanner.read offered h.cursor.begin.unread).moves).tokenEnd =
      (h.cursor.pass b).pos := hstop
    simp only [nextToken, scan_eq, hr', hstart', hstop', hadv, Cursor.noting, Cursor.unread_pass, Cursor.passed_pass]
    rw [hu', List.drop_left' hl, List.take_left' hl]
    exact ⟨rfl, rfl, trivial⟩
  obtain ⟨h1, h2, h3⟩ := hc
  refine ⟨?_, by rw [h1]; exact hu, h2⟩
  rw [h3, ea, eb, byteSize_append, Nat.add_assoc]

theorem Takes.finds {gap text : List Char} (ht : h.Takes offered k gap text)
    (hb : byteSize h.cursor.source < 2 ^ 32) : h.Finds offered k gap text := by
  refine ⟨ht.token, ?_, ht.unread, ht.passed⟩
  have hsize := h.cursor.pos_add_unread
  rw [ht.unread] at hsize
  simp only [byteSize_append] at hsize
  omega

theorem finds_of_read {a b : Nat} {gap text rest : List Char} (hb : byteSize h.cursor.source < 2 ^ 32)
    (hr : (h.scanner.read offered h.cursor.unread).outcome = some k)
    (hs : (h.scanner.read offered h.cursor.unread).Spans a b)
    (hu : h.cursor.unread = gap ++ (text ++ rest)) (ha : gap.length = a) (ht : a + text.length = b) :
    h.Finds offered k gap text := (takes_of_read hr hs hu ha ht).finds hb

end

end Host

end IniScan
