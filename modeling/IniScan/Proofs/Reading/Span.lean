import IniScan.Reader

/-!
# What the calls of a reading say about the token

Of all its calls on the host a reading leaves three numbers of characters behind: how many it went past
(`distance`), how many before the token starts, and how many before the token ends. The token ends at the last
mark (`markAt`), or where the reading stopped if nothing was marked.

`Spans a b` is the shape that every reading has: `a` skips come first, no skip follows, and the token takes the
characters from `a` to `b`.

* `markAt_append_mark`: a reading that marks where it stops ends the token there.
* `Spans.le`, `Spans.le_advances`: a token does not end before it starts, nor behind what was read.
-/
namespace IniScan

namespace Move

/-- The number of characters that the calls go past. -/
def distance (ms : List Move) : Nat := ms.countP (· ≠ .mark)

@[simp] theorem distance_nil : distance [] = 0 := rfl

@[simp] theorem distance_append (xs ys : List Move) : distance (xs ++ ys) = distance xs + distance ys :=
  List.countP_append

@[simp] theorem distance_mark (ms : List Move) : distance (.mark :: ms) = distance ms := by simp [distance]

@[simp] theorem distance_take (ms : List Move) : distance (.take :: ms) = distance ms + 1 := by simp [distance]

@[simp] theorem distance_skip (ms : List Move) : distance (.skip :: ms) = distance ms + 1 := by simp [distance]

@[simp] theorem distance_takes (n : Nat) : distance (List.replicate n .take) = n := by
  induction n with
  | zero => rfl
  | succ n ih => rw [List.replicate_succ, distance_take, ih]

/-- The number of characters in front of the last mark. -/
def markAt : List Move → Option Nat
  | [] => none
  | .mark :: ms => some ((markAt ms).getD 0)
  | .skip :: ms | .take :: ms => (markAt ms).map (· + 1)

@[simp] theorem markAt_nil : markAt [] = none := rfl

@[simp] theorem markAt_mark (ms : List Move) : markAt (.mark :: ms) = some ((markAt ms).getD 0) := rfl

@[simp] theorem markAt_take (ms : List Move) : markAt (.take :: ms) = (markAt ms).map (· + 1) := rfl

@[simp] theorem markAt_skip (ms : List Move) : markAt (.skip :: ms) = (markAt ms).map (· + 1) := rfl

/-- The last mark of two runs of calls lies in the second, if that has one. -/
theorem markAt_append (xs ys : List Move) :
    markAt (xs ++ ys) = ((markAt ys).map (· + distance xs)).or (markAt xs) := by
  induction xs with
  | nil => cases hy : markAt ys <;> simp [hy]
  | cons m xs ih =>
    cases m <;> cases hy : markAt ys <;> simp [ih, hy, Nat.add_comm, Nat.add_left_comm]

theorem markAt_append_mark (ms : List Move) : markAt (ms ++ [.mark]) = some (distance ms) := by
  simp [markAt_append]

theorem markAt_takes (n : Nat) : markAt (List.replicate n .take) = none := by
  induction n with
  | zero => rfl
  | succ n ih => rw [List.replicate_succ, markAt_take, ih]; rfl

theorem markAt_getD_le (ms : List Move) : (markAt ms).getD (distance ms) ≤ distance ms := by
  induction ms with
  | nil => exact Nat.le_refl 0
  | cons m ms ih =>
    cases m <;> cases hm : markAt ms <;> simp [hm] at ih ⊢ <;> omega

end Move

namespace Reading

variable {α β : Type}

open Move

/-- The token of the reading takes the characters from `a` to `b`. -/
def Spans (r : Reading α) (a b : Nat) : Prop :=
  ∃ ms, r.moves = List.replicate a .skip ++ ms ∧ Move.skip ∉ ms ∧ b = a + (markAt ms).getD (distance ms)

theorem Spans.le {r : Reading α} {a b : Nat} (h : r.Spans a b) : a ≤ b := by
  obtain ⟨ms, -, -, rfl⟩ := h
  omega

theorem Spans.le_advances {r : Reading α} {a b : Nat} (h : r.Spans a b) : b ≤ r.advances := by
  obtain ⟨ms, hm, -, rfl⟩ := h
  have hs : ∀ n, distance (List.replicate n .skip) = n := fun n => by
    induction n with
    | zero => rfl
    | succ n ih => rw [List.replicate_succ, distance_skip, ih]
  have ha : r.advances = a + distance ms := by
    show distance r.moves = _
    rw [hm, distance_append, hs]
  have := markAt_getD_le ms
  omega

/-- Skips in front of a reading move its token back. -/
theorem Spans.skips {r : Reading α} {a b : Nat} (h : r.Spans a b) (n : Nat) {o : β} :
    (⟨o, List.replicate n .skip ++ r.moves⟩ : Reading β).Spans (n + a) (n + b) := by
  obtain ⟨ms, hm, hs, rfl⟩ := h
  refine ⟨ms, ?_, hs, by omega⟩
  simp only
  rw [hm, ← List.append_assoc, List.replicate_append_replicate]

/-- Nothing is skipped, and the token ends where the reading stopped. -/
theorem spans_of_takes {r : Reading α} {n : Nat} (h : r.moves = List.replicate n .take ++ [.mark]) :
    r.Spans 0 n := by
  refine ⟨List.replicate n .take ++ [.mark], by simpa using h, by simp, ?_⟩
  rw [markAt_append_mark, distance_takes, Option.getD_some, Nat.zero_add]

end Reading

end IniScan
