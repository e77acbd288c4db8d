import IniScan.Storing
import IniScan.Proofs.Word.Sound

/-!
# Storing within a budget

A scanner stores its word if neither the buffer nor the budget is too small for it, and else leaves the buffer alone. The
word of every scanner that is come to has the right size, so writing it character by character takes all of the
bytes that were cut off for it and no other ones, and never aborts.

* `sound_of_reached`: the words of the scanners that are come to.
* `fill_of_le`, `attempt_of_sound`: writing character by character.
* `store_of_le`, `store_of_lt`: what storing comes to.
* `restore_store`: what was stored is restored, and nothing if nothing was stored.
* `store_within_budget`: all of it, and what is restored.
-/
namespace IniScan

open Text

namespace Word

theorem fill_of_le {s : List Char} {room : List UInt8} (h : byteSize s ≤ room.length) :
    fill s room = some (Utf8.encode s, room.drop (byteSize s)) := by
  induction s generalizing room with
  | nil => rfl
  | cons c cs ih =>
    rw [byteSize_cons] at h
    have hrest : byteSize cs ≤ (room.drop c.utf8Size).length := by
      rw [List.length_drop]
      omega
    rw [fill, if_pos (by omega), ih hrest, Option.map_some, List.drop_drop, byteSize_cons]
    rfl

/-- A word of the right size is written as it stands. -/
theorem attempt_of_sound {w : Word} (h : w.Sound) (buffer : List UInt8) :
    w.attempt buffer = (w.write? buffer).elim .refused .written := by
  by_cases hroom : w.storedSize ≤ buffer.length
  · have hlength : (buffer.take w.storedSize).length = w.size + 1 := by
      rw [List.length_take, Nat.min_eq_left hroom, storedSize, Nat.add_comm]
    obtain ⟨b, room, hcut⟩ := List.exists_cons_of_length_eq_add_one hlength
    have hsize : byteSize w.chars = room.length := by
      rw [hcut, List.length_cons] at hlength
      rw [← h.size_eq]
      omega
    have hfill : fill w.chars room = some (Utf8.encode w.chars, []) := by
      rw [fill_of_le (Nat.le_of_eq hsize), hsize, List.drop_length]
    simp only [attempt, if_pos hroom, hcut, hfill, write?]
    rfl
  · rw [attempt, if_neg hroom, write?, if_neg hroom]
    rfl

end Word

namespace Scanner

theorem sound_settle {s : Scanner} (h : s.word.Sound) (offered : KindSet) : (s.settle offered).word.Sound := by
  unfold settle
  split
  · exact h
  · exact Word.sound_empty

theorem restore_eq_ok_iff {s x : Scanner} {bytes : List UInt8} :
    s.restore bytes = .ok x ↔ ∃ w, Word.ofBytes bytes = .ok w ∧ x = { s with word := w } := by
  unfold restore
  cases Word.ofBytes bytes with
  | error cause => simp [Except.map]
  | ok w => simp [Except.map, eq_comm]

theorem reinstate_eq_ok_iff {s x : Scanner} {bytes : List UInt8} :
    s.reinstate bytes = .ok x ↔ s.restore bytes = .ok x := by
  unfold reinstate
  cases s.restore bytes with
  | error cause => exact ⟨nofun, nofun⟩
  | ok y => exact ⟨fun h => by cases h; rfl, fun h => by cases h; rfl⟩

/-- The scanners that are come to. Letters are pushed on the word only while a call is going on. -/
inductive Reached : Scanner → Prop
  | new (config : Config) : Reached (ofConfig config)
  | called {s : Scanner} (offered : KindSet) (unread : List Char) : Reached s → Reached (s.call offered unread).2
  | restored {s t : Scanner} {bytes : List UInt8} : Reached s → s.restore bytes = .ok t → Reached t
  | pushed {s : Scanner} (c : Char) : Reached s → Reached { s with word := s.word.push c }

theorem sound_of_reached {s : Scanner} (h : s.Reached) : s.word.Sound := by
  induction h with
  | new config => exact Word.sound_empty
  | called offered unread _ ih =>
    rw [call_eq]
    exact sound_settle ih offered
  | restored _ hrestore _ =>
    obtain ⟨w, hw, rfl⟩ := restore_eq_ok_iff.1 hrestore
    exact Word.sound_ofBytes hw
  | pushed c _ ih => exact Word.sound_push ih c

/-! ## What storing comes to -/

section

variable {s : Scanner} {buffer : List UInt8}

theorem store_of_lt (h : min s.config.budget.toNat buffer.length < s.word.storedSize) : s.store buffer = (0, buffer) := by
  have hwrite : s.word.write? (buffer.take (min s.config.budget.toNat buffer.length)) = none := by
    refine if_neg ?_
    rw [List.length_take]
    omega
  simp only [store, hwrite]

theorem store_of_le (h : s.word.storedSize ≤ min s.config.budget.toNat buffer.length) :
    s.store buffer = (s.word.storedSize, s.word.bytes ++ buffer.drop s.word.storedSize) := by
  have hlength : s.word.storedSize ≤ (buffer.take (min s.config.budget.toNat buffer.length)).length := by
    rw [List.length_take]
    omega
  -- what the budget leaves unwritten and what lies behind the budget are the rest of the buffer
  have hrest : (buffer.take (min s.config.budget.toNat buffer.length)).drop s.word.storedSize ++
      buffer.drop (min s.config.budget.toNat buffer.length) = buffer.drop s.word.storedSize := by
    rw [← List.drop_append_of_le_length hlength, List.take_append_drop]
  simp only [store, Word.write?, if_pos hlength, List.append_assoc, hrest]

/-- A scanner that gets the bytes that were written gets the word, or the empty word if there are none. -/
theorem restore_store (h : s.word.Sound) (buffer : List UInt8) (t : Scanner) :
    ∃ w, t.restore ((s.store buffer).2.take (s.store buffer).1) = .ok { t with word := w } ∧
      ((s.store buffer).1 = 0 → w = Word.empty) ∧ (0 < (s.store buffer).1 → w = s.word.restored) := by
  rcases Nat.lt_or_ge (min s.config.budget.toNat buffer.length) s.word.storedSize with hlt | hle
  · rw [store_of_lt hlt]
    exact ⟨Word.empty, restore_eq_ok_iff.2 ⟨_, rfl, rfl⟩, fun _ => rfl, fun hpos => absurd hpos (Nat.lt_irrefl 0)⟩
  · rw [store_of_le hle]
    have htake : (s.word.bytes ++ buffer.drop s.word.storedSize).take s.word.storedSize = s.word.bytes :=
      List.take_left' (Word.length_bytes h.size_eq)
    refine ⟨s.word.restored, ?_, ?_, fun _ => rfl⟩
    · rw [htake]
      exact restore_eq_ok_iff.2 ⟨_, Word.ofBytes_bytes h, rfl⟩
    · intro hzero
      rw [Word.storedSize] at hzero
      omega

/-- Storing does what writing character by character does, and that does not abort. -/
theorem store?_eq (h : s.word.Sound) (buffer : List UInt8) : s.store? buffer = some (s.store buffer) := by
  simp only [store?, store, Word.attempt_of_sound h]
  cases s.word.write? (buffer.take (min s.config.budget.toNat buffer.length)) with
  | none => rfl
  | some after => rfl

theorem storedSize_of_sound (h : s.word.Sound) : s.word.storedSize = 1 + byteSize s.word.chars := by
  rw [Word.storedSize, h.size_eq]

/-- **Storing keeps to the budget and to the buffer.** Whatever a scanner has been through and whatever the budget and
the buffer are, either both have room for the word, and then its bytes stand at the start of the buffer and the others are
as they were, or nothing is written. Writing character by character never aborts. Any scanner takes what was
written, with the characters that were stored or with none if nothing was. -/
theorem store_within_budget (h : s.Reached) (buffer : List UInt8) :
    let size := 1 + byteSize s.word.chars
    let room := min s.config.budget.toNat buffer.length
    (room < size → s.store buffer = (0, buffer)) ∧
    (size ≤ room → ∃ first, s.store buffer = (size, first :: (Utf8.encode s.word.chars ++ buffer.drop size)) ∧
      first.toNat = size - 1) ∧
    s.store? buffer = some (s.store buffer) ∧
    ∀ t : Scanner, ∃ w, t.restore ((s.store buffer).2.take (s.store buffer).1) = .ok { t with word := w } ∧
      ((s.store buffer).1 = 0 → w = Word.empty) ∧ (0 < (s.store buffer).1 → w.chars = s.word.chars) := by
  intro size room
  have hsound := sound_of_reached h
  have hsize : s.word.storedSize = size := storedSize_of_sound hsound
  refine ⟨fun hlt => store_of_lt (hsize ▸ hlt), ?_, store?_eq hsound buffer, ?_⟩
  · intro hle
    refine ⟨UInt8.ofNat s.word.size, ?_, ?_⟩
    · rw [store_of_le (hsize ▸ hle), hsize]
      rfl
    · rw [Word.toNat_ofNat_size hsound, ← hsize, Word.storedSize, Nat.add_sub_cancel_left]
  · intro t
    obtain ⟨w, hw, hzero, hpos⟩ := restore_store hsound buffer t
    exact ⟨w, hw, hzero, fun h => by rw [hpos h]; rfl⟩

/-- A word of two characters and three bytes, for which the budget is just large enough. -/
theorem store_within_budget_just :
    let s : Scanner := ⟨⟨.exact, 4⟩, ⟨['é', 'K'], 3, false⟩⟩
    let buffer : List UInt8 := [9, 9, 9, 9, 9, 9]
    s.store buffer = (4, [3, 0xC3, 0xA9, 0x4B, 9, 9]) ∧ s.store? buffer = some (s.store buffer) ∧
    ∀ t : Scanner, ∃ w, t.restore [3, 0xC3, 0xA9, 0x4B] = .ok { t with word := w } ∧ w.chars = ['é', 'K'] := by
  intro s buffer
  have hreached : s.Reached := .pushed 'K' (.pushed 'é' (.new ⟨.exact, 4⟩))
  obtain ⟨-, hfits, hwriting, hrestore⟩ := store_within_budget hreached buffer
  obtain ⟨first, hstore, hfirst⟩ := hfits (by decide)
  have hthree : first = 3 := UInt8.toNat_inj.1 hfirst
  subst hthree
  refine ⟨hstore, hwriting, fun t => ?_⟩
  obtain ⟨w, hw, -, hchars⟩ := hrestore t
  rw [hstore] at hw hchars
  exact ⟨w, hw, hchars (by decide)⟩

end

end Scanner

end IniScan
