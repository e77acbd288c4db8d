import IniScan.Proofs.Scanner.Storing
import IniScan.Proofs.Word.Format
import IniScan.Proofs.Word.Run

/-!
# What a word has kept

A word says of each character that is pushed on it whether it keeps it. These answers tell all of the word: it holds the
characters that it was begun with and those that it said it kept, in order, and it is saturated if it refused one. A
character that is refused may be followed by a narrower one that is kept, so this is no prefix of what was pushed.

* `Log`: the pushes on a word with their answers, since it was begun, reset or restored.
* `Keeps`: what the log tells of the word, with `keeps_push` for one push and `keeps_run` for whatever is done.
* `chars_pushAll_of_ascii`: of characters of one byte a word keeps as many as fit.
* `built_accumulates`: every word that is come to.
-/
namespace IniScan.Word

open Text

/-! ## Logs -/

/-- The characters that a word had when it was last begun, reset or restored, and the pushes since then with their
answers. -/
structure Log where
  front : List Char
  pushes : List (Char × Bool)

/-- The characters of the pushes that were answered with true. -/
def kept (pushes : List (Char × Bool)) : List Char := (pushes.filter Prod.snd).map Prod.fst

theorem kept_append (p q : List (Char × Bool)) : kept (p ++ q) = kept p ++ kept q := by
  simp [kept]

namespace Log

/-- The log with one more step and its answer. -/
def note (l : Log) : Step → Answer → Log
  | .push c, .kept b => { l with pushes := l.pushes ++ [(c, b)] }
  | .reset, _ => ⟨[], []⟩
  | .restore bytes, _ =>
    match ofBytes bytes with
    | .ok w => ⟨w.chars, []⟩
    | .error _ => l
  | _, _ => l

/-- The log with more steps and their answers. -/
def notes (l : Log) : List Step → List Answer → Log
  | x :: xs, a :: as => (l.note x a).notes xs as
  | _, _ => l

end Log

/-- The log of the word that the steps come to from the empty one. -/
def logged (steps : List Step) : Log := Log.notes ⟨[], []⟩ steps (empty.run steps).1

/-! ## One push -/

theorem chars_push (w : Word) (c : Char) : (w.push c).chars = w.chars ++ kept [(c, w.fits c)] := by
  unfold push
  cases hfits : w.fits c <;> simp [kept]

theorem saturated_push {w : Word} {c : Char} : (w.push c).saturated = true ↔ w.saturated = true ∨ w.fits c = false := by
  unfold push
  cases hfits : w.fits c <;> simp

/-- What the log tells of the word. -/
structure Keeps (w : Word) (l : Log) : Prop where
  sound : w.Sound
  chars : w.chars = l.front ++ kept l.pushes
  /-- A character is kept exactly if there is room for it behind those that are there already. -/
  greedy : ∀ {before c b after}, l.pushes = before ++ (c, b) :: after →
    (b = true ↔ byteSize (l.front ++ kept before) + c.utf8Size ≤ capacity)
  saturated_iff : w.saturated = true ↔ ∃ c, (c, false) ∈ l.pushes

theorem Keeps.fits_iff {w : Word} {l : Log} (h : w.Keeps l) (c : Char) :
    w.fits c = true ↔ byteSize (l.front ++ kept l.pushes) + c.utf8Size ≤ capacity := by
  rw [fits, decide_eq_true_eq, h.sound.size_eq, h.chars]

theorem keeps_of_clear {w : Word} (h : w.Sound) (hclear : w.saturated = false) : w.Keeps ⟨w.chars, []⟩ := by
  refine ⟨h, (List.append_nil _).symm, ?_, ?_⟩
  · intro before c b after heq
    exact absurd heq.symm (by simp)
  · simp [hclear]

theorem keeps_empty : empty.Keeps ⟨[], []⟩ := keeps_of_clear sound_empty rfl

theorem keeps_push {w : Word} {l : Log} (h : w.Keeps l) (c : Char) :
    (w.push c).Keeps { l with pushes := l.pushes ++ [(c, w.fits c)] } := by
  refine ⟨sound_push h.sound c, ?_, ?_, ?_⟩
  · rw [chars_push, h.chars, kept_append, List.append_assoc]
  · -- the push is the last one, or one that was there before
    intro before d b after heq
    rcases List.eq_nil_or_concat after with rfl | ⟨after, last, rfl⟩
    · obtain ⟨rfl, hlast⟩ := List.append_inj' heq rfl
      obtain ⟨rfl, rfl⟩ := Prod.mk.inj (List.cons.inj hlast).1
      exact h.fits_iff c
    · rw [List.concat_eq_append, ← List.cons_append, ← List.append_assoc] at heq
      exact h.greedy (List.append_inj' heq rfl).1
  · rw [saturated_push, h.saturated_iff]
    refine ⟨?_, ?_⟩
    · rintro (⟨d, hd⟩ | hfull)
      · exact ⟨d, List.mem_append_left _ hd⟩
      · exact ⟨c, List.mem_append_right _ (by rw [hfull]; exact List.mem_singleton_self _)⟩
    · rintro ⟨d, hd⟩
      rcases List.mem_append.1 hd with hd | hd
      · exact Or.inl ⟨d, hd⟩
      · exact Or.inr (Prod.mk.inj (List.mem_singleton.1 hd)).2.symm

/-! ## Whatever is done -/

theorem saturated_of_ofBytes {bytes : List UInt8} {w : Word} (h : ofBytes bytes = .ok w) : w.saturated = false := by
  have hsays := says_ofBytes bytes
  rw [h] at hsays
  cases hsays <;> rfl

theorem keeps_step {w : Word} {l : Log} (h : w.Keeps l) (x : Step) :
    (w.step x).2.Keeps (l.note x (w.step x).1) := by
  cases x with
  | push c => exact keeps_push h c
  | reset => exact keeps_empty
  | restore bytes =>
    cases hread : ofBytes bytes with
    | ok v =>
      simp only [step, Log.note, hread]
      exact keeps_of_clear (sound_ofBytes hread) (saturated_of_ofBytes hread)
    | error cause =>
      simp only [step, Log.note, hread]
      exact h
  | length => exact h
  | lower => exact h
  | eqIgnoreCase s => exact h
  | sectionName mode => exact h
  | write buffer => exact h

theorem keeps_run {w : Word} {l : Log} (h : w.Keeps l) (steps : List Step) :
    (w.run steps).2.Keeps (l.notes steps (w.run steps).1) := by
  induction steps generalizing w l with
  | nil => exact h
  | cons x xs ih => exact ih (keeps_step h x)

/-! ## Characters of one byte -/

theorem chars_pushAll_of_ascii {w : Word} {s : List Char} (hw : w.size ≤ capacity) (h : ∀ c ∈ s, c.utf8Size = 1) :
    (w.pushAll s).chars = w.chars ++ s.take (capacity - w.size) := by
  induction s generalizing w with
  | nil => simp [pushAll]
  | cons c cs ih =>
    have hone := h c List.mem_cons_self
    have hrest := ih (size_push_le hw c) fun d hd => h d (List.mem_cons_of_mem _ hd)
    rw [pushAll_cons, hrest, chars_push]
    cases hfits : w.fits c with
    | true =>
      have hroom : w.size + 1 ≤ capacity := by
        rw [fits, decide_eq_true_eq, hone] at hfits
        exact hfits
      have hsize : (w.push c).size = w.size + 1 := by rw [push, if_pos hfits, hone]
      rw [hsize, show capacity - w.size = capacity - (w.size + 1) + 1 by omega, List.take_succ_cons, List.append_assoc]
      rfl
    | false =>
      have hfull : capacity < w.size + 1 := by
        rw [fits, decide_eq_false_iff_not, hone] at hfits
        exact Nat.lt_of_not_le hfits
      have hsize : (w.push c).size = w.size := by rw [push, if_neg (by rw [hfits]; exact Bool.false_ne_true)]
      rw [hsize, show capacity - w.size = 0 by omega, List.take_zero, List.take_zero]
      simp [kept]

/-! ## Every word -/

/-- What is known of a word and its log. -/
structure Accumulates (w : Word) (l : Log) : Prop where
  keeps : w.Keeps l
  /-- The answer to a push tells what it does to the characters. -/
  push : ∀ c, ∃ b, (w.step (.push c)).1 = .kept b ∧
    (w.step (.push c)).2.chars = w.chars ++ if b then [c] else []
  /-- The size is not cut off in the byte that holds it, and the characters take all the room behind this byte. -/
  stored : (UInt8.ofNat w.size).toNat = w.size ∧
    ∀ room : List UInt8, room.length = w.size → fill w.chars room = some (Utf8.encode w.chars, [])
  /-- An empty word takes the first characters of a text of one-byte ones, as many as it has room for. -/
  ascii : w.chars = [] → ∀ s : List Char, (∀ c ∈ s, c.toNat < 0x80) → (w.pushAll s).chars = s.take capacity

/-- **A word is what it said it kept.** Whatever has been done with it, in whatever order. -/
theorem built_accumulates (steps : List Step) : (built steps).Accumulates (logged steps) := by
  have hkeeps : (built steps).Keeps (logged steps) := keeps_run keeps_empty steps
  have hsound := hkeeps.sound
  refine ⟨hkeeps, ?_, ⟨toNat_ofNat_size hsound, ?_⟩, ?_⟩
  · intro c
    refine ⟨(built steps).fits c, rfl, ?_⟩
    show ((built steps).push c).chars = _
    rw [chars_push]
    cases (built steps).fits c <;> rfl
  · intro room hroom
    have hsize : byteSize (built steps).chars = room.length := by rw [hroom, hsound.size_eq]
    rw [fill_of_le (Nat.le_of_eq hsize), hsize, List.drop_length]
  · intro hempty s hs
    have hzero : (built steps).size = 0 := by rw [hsound.size_eq, hempty]; rfl
    rw [chars_pushAll_of_ascii hsound.size_le fun c hc => utf8Size_eq_one_iff.2 (hs c hc), hempty, hzero]
    rfl

end IniScan.Word
