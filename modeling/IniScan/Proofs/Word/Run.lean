import IniScan.Proofs.Section.Modes
import IniScan.Proofs.Word.Sound

/-!
# What is done with a word

A word is begun empty. Characters are pushed on it, it is reset, it is replaced by what stored bytes say, and in between
it is asked for its size, its letters, a comparison, a section name or its stored form. Each of these answers.

A word that is stored and read back loses the note that a character was dropped. No answer depends on this note, so the
two words answer alike from then on.

* `sound_run`: every word that is come to has the right size.
* `run_eq_of_like`: words with the same characters answer alike, whatever is done.
* `stored_round_trip`: storing and reading back.
-/
namespace IniScan.Word

/-- What is done with a word. -/
inductive Step where
  | push (c : Char)
  | reset
  /-- Replaces the word by the one that the bytes store, if they store one. -/
  | restore (bytes : List UInt8)
  | length
  | lower
  | eqIgnoreCase (s : List Char)
  | sectionName (mode : MatchMode)
  | write (buffer : List UInt8)

/-- What a step comes to. -/
inductive Answer where
  | done
  /-- Whether the character was kept. -/
  | kept (b : Bool)
  | refused (cause : StateError)
  | length (n : Nat)
  | lower (s : List Char)
  | same (b : Bool)
  | sectionName (k : Option Section)
  /-- The number of bytes written and the buffer behind it, unless the buffer is too small. -/
  | written (result : Option (Nat × List UInt8))
  deriving DecidableEq

/-- One step: its answer, and the word behind it. -/
def step (w : Word) : Step → Answer × Word
  | .push c => (.kept (w.fits c), w.push c)
  | .reset => (.done, w.reset)
  | .restore bytes =>
    match ofBytes bytes with
    | .ok v => (.done, v)
    | .error cause => (.refused cause, w)
  | .length => (.length w.length, w)
  | .lower => (.lower w.lower, w)
  | .eqIgnoreCase s => (.same (w.eqIgnoreCase s), w)
  | .sectionName mode => (.sectionName (Section.ofWord? mode w), w)
  | .write buffer => (.written ((w.write? buffer).map fun after => (w.storedSize, after)), w)

/-- The answers to the steps, and the word behind them. -/
def run (w : Word) : List Step → List Answer × Word
  | [] => ([], w)
  | x :: xs => ((w.step x).1 :: ((w.step x).2.run xs).1, ((w.step x).2.run xs).2)

/-- The word that the steps come to from the empty one. -/
def built (steps : List Step) : Word := (empty.run steps).2

theorem sound_step {w : Word} (h : w.Sound) (x : Step) : (w.step x).2.Sound := by
  cases x with
  | push c => exact sound_push h c
  | reset => exact sound_empty
  | restore bytes =>
    simp only [step]
    split
    · rename_i v hv
      exact sound_ofBytes hv
    · exact h
  | length => exact h
  | lower => exact h
  | eqIgnoreCase s => exact h
  | sectionName mode => exact h
  | write buffer => exact h

theorem sound_run {w : Word} (h : w.Sound) (steps : List Step) : (w.run steps).2.Sound := by
  induction steps generalizing w with
  | nil => exact h
  | cons x xs ih => exact ih (sound_step h x)

theorem sound_built (steps : List Step) : (built steps).Sound := sound_run sound_empty steps

/-! ## Words with the same characters -/

/-- The words differ at most in the note that a character was dropped. -/
structure Like (v w : Word) : Prop where
  chars : v.chars = w.chars
  size : v.size = w.size

theorem Like.refl (w : Word) : Like w w := ⟨rfl, rfl⟩

theorem like_restored (w : Word) : Like w.restored w := ⟨rfl, rfl⟩

section

variable {v w : Word}

theorem Like.fits (h : Like v w) (c : Char) : v.fits c = w.fits c := by rw [Word.fits, Word.fits, h.size]

theorem Like.push (h : Like v w) (c : Char) : Like (v.push c) (w.push c) := by
  unfold Word.push
  rw [h.fits c]
  split
  · exact ⟨by rw [h.chars], by rw [h.size]⟩
  · exact ⟨h.chars, h.size⟩

theorem Like.lower (h : Like v w) : v.lower = w.lower := by rw [Word.lower, Word.lower, h.chars]

theorem Like.sectionName (h : Like v w) (mode : MatchMode) : Section.ofWord? mode v = Section.ofWord? mode w :=
  Section.ofWord?_congr h.lower mode

theorem Like.bytes (h : Like v w) : v.bytes = w.bytes := by rw [Word.bytes, Word.bytes, h.size, h.chars]

theorem Like.storedSize (h : Like v w) : v.storedSize = w.storedSize := by
  rw [Word.storedSize, Word.storedSize, h.size]

theorem like_step (h : Like v w) (x : Step) : (v.step x).1 = (w.step x).1 ∧ Like (v.step x).2 (w.step x).2 := by
  cases x with
  | push c => exact ⟨congrArg Answer.kept (h.fits c), h.push c⟩
  | reset => exact ⟨rfl, Like.refl _⟩
  | restore bytes =>
    simp only [step]
    split
    · exact ⟨rfl, Like.refl _⟩
    · exact ⟨rfl, h⟩
  | length => exact ⟨by simp only [step, Word.length, h.chars], h⟩
  | lower => exact ⟨congrArg Answer.lower h.lower, h⟩
  | eqIgnoreCase s => exact ⟨by simp only [step, Word.eqIgnoreCase, h.size, h.chars], h⟩
  | sectionName mode => exact ⟨congrArg Answer.sectionName (h.sectionName mode), h⟩
  | write buffer => exact ⟨by simp only [step, write?, h.storedSize, h.bytes], h⟩

theorem run_eq_of_like (h : Like v w) (steps : List Step) : (v.run steps).1 = (w.run steps).1 := by
  induction steps generalizing v w with
  | nil => rfl
  | cons x xs ih =>
    obtain ⟨hanswer, hlike⟩ := like_step h x
    rw [run, run, hanswer, ih hlike]

end

theorem restored_eq_iff {w : Word} : w.restored = w ↔ w.saturated = false := by
  obtain ⟨chars, size, saturated⟩ := w
  simp only [restored, mk.injEq, true_and]
  exact ⟨Eq.symm, Eq.symm⟩

/-- **A word survives being stored.** Whatever a word has been through, a buffer with room for it takes it, and what was
written is read back as a word with the same characters and the same size that has dropped nothing. So it is the
same word exactly if that one has dropped nothing, and in any case it answers alike to whatever is done then. -/
theorem stored_round_trip (before : List Step) {buffer : List UInt8}
    (hroom : (built before).storedSize ≤ buffer.length) :
    ∃ after v, (built before).write? buffer = some after ∧ ofBytes (after.take (built before).storedSize) = .ok v ∧
      (v.chars = (built before).chars ∧ v.size = (built before).size ∧ v.saturated = false) ∧
      (v = built before ↔ (built before).saturated = false) ∧
      ∀ later, (v.run later).1 = ((built before).run later).1 := by
  have hsound := sound_built before
  obtain ⟨after, hwrite, htake⟩ := exists_write hsound hroom
  refine ⟨after, (built before).restored, hwrite, ?_, ⟨rfl, rfl, rfl⟩, restored_eq_iff, ?_⟩
  · rw [htake]
    exact ofBytes_bytes hsound
  · exact run_eq_of_like (like_restored _)

/-- A word of 254 bytes has dropped a character of two bytes and kept one of one byte that came after it. -/
theorem stored_round_trip_saturated :
    let before := List.replicate 127 (Step.push 'é') ++ [.push 'é', .push 'K']
    (built before).saturated = true ∧
    ∃ after v, (built before).write? (List.replicate 300 0xAA) = some after ∧ ofBytes (after.take 256) = .ok v ∧
      v ≠ built before ∧ v.chars.length = 128 := by
  intro before
  have hbuilt : built before = ⟨List.replicate 127 'é' ++ ['K'], 255, true⟩ := by decide +kernel
  have hsize : (built before).storedSize = 256 := by rw [hbuilt]; rfl
  have hroom : (built before).storedSize ≤ (List.replicate 300 (0xAA : UInt8)).length := by
    rw [hsize, List.length_replicate]
    decide
  obtain ⟨after, v, hwrite, hread, ⟨hchars, -, -⟩, hiff, -⟩ := stored_round_trip before hroom
  rw [hsize] at hread
  refine ⟨by rw [hbuilt], after, v, hwrite, hread, ?_, ?_⟩
  · intro hv
    have hclear := hiff.1 hv
    rw [hbuilt] at hclear
    cases hclear
  · rw [hchars, hbuilt]
    rfl

end IniScan.Word
