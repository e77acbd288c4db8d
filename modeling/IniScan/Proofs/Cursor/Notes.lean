import IniScan.Cursor
import IniScan.Proofs.Reading.Span

/-!
# What calls leave in the notes of a cursor

The calls of a reading move the read position and set the notes on the pending token. What is noted as its start is the
place that the last skip led to, and what is noted as its end is the place of the last mark. A reading with a span comes to
the same: the token that a host has begun starts and ends at two places on the way.

* `follow_skips`, `follow_of_no_skip`: where calls lead, in one piece.
* `start_follow_append_skip`, `stop_follow_append_mark`: what the last call of a kind has noted stays.
* `begin_follow`: the notes behind a reading with a span.
* `tokenEnd_begin_follow`: behind such a reading a token does not end before it starts.
-/
namespace IniScan.Cursor

open Text

/-! ## Moving on -/

@[simp] theorem unread_pass (c : Cursor) (n : Nat) : (c.pass n).unread = c.unread.drop n := rfl

@[simp] theorem passed_pass (c : Cursor) (n : Nat) : (c.pass n).passed = (c.unread.take n).reverse ++ c.passed := rfl

theorem pos_pass (c : Cursor) (n : Nat) : (c.pass n).pos = c.pos + byteSize (c.unread.take n) := rfl

theorem pass_pass (c : Cursor) (m n : Nat) : (c.pass m).pass n = c.pass (m + n) := by
  simp [pass, List.take_add, Nat.add_assoc]

theorem pos_le_size (c : Cursor) : c.pos ≤ byteSize c.source := by
  have := c.pos_add_unread
  omega

theorem pos_pass_le_pos_pass (c : Cursor) {a b : Nat} (h : a ≤ b) : (c.pass a).pos ≤ (c.pass b).pos := by
  rw [← Nat.add_sub_cancel' h, ← pass_pass, pos_pass (c.pass a)]
  omega

/-- The cursor after the gap and the token, whatever it notes. -/
theorem advanceTo_of_append (c : Cursor) {s t : List Char} (hu : c.unread = s ++ t) :
    c.advanceTo (c.pos + byteSize s) = c.pass s.length := by
  unfold advanceTo
  rw [Nat.add_sub_cancel_left, hu, splitAt?_byteSize]

/-! ## Following calls -/

theorem follow_append (c : Cursor) (xs ys : List Move) : c.follow (xs ++ ys) = (c.follow xs).follow ys :=
  List.foldl_append

/-- Skips start the token behind them. -/
theorem follow_skips (c : Cursor) (a : Nat) : c.begin.follow (List.replicate a .skip) = (c.pass a).begin := by
  induction a generalizing c with
  | zero => simp [follow, pass, begin]
  | succ a ih =>
    rw [Nat.add_comm, ← pass_pass, ← ih (c.pass 1), Nat.add_comm]
    rfl

/-- Calls without a skip leave the start of the token alone and note the last mark. -/
theorem follow_of_no_skip (c : Cursor) {ms : List Move} (h : Move.skip ∉ ms) :
    c.follow ms = { c.pass (Move.distance ms) with
      stop := ((Move.markAt ms).map fun n => (c.pass n).pos).or c.stop } := by
  induction ms generalizing c with
  | nil => simp [follow, pass]
  | cons m ms ih =>
    have hms : Move.skip ∉ ms := fun hm => h (List.mem_cons_of_mem _ hm)
    have hf : c.follow (m :: ms) = (c.go m).follow ms := rfl
    rw [hf, ih _ hms]
    cases m with
    | skip => exact absurd List.mem_cons_self h
    | take =>
      have e : ∀ n, (c.pass 1).pass n = c.pass (n + 1) := fun n => by rw [pass_pass, Nat.add_comm]
      simp only [go, e, Move.distance_take, Move.markAt_take, Option.map_map]
      rfl
    | mark =>
      cases hm : Move.markAt ms <;> simp [go, pass, hm]

/-! ## The notes -/

theorem start_follow_of_no_skip (c : Cursor) {ms : List Move} (h : Move.skip ∉ ms) : (c.follow ms).start = c.start := by
  rw [c.follow_of_no_skip h]
  rfl

theorem stop_follow_of_no_mark (c : Cursor) {ms : List Move} (h : Move.mark ∉ ms) : (c.follow ms).stop = c.stop := by
  induction ms generalizing c with
  | nil => rfl
  | cons m ms ih =>
    rw [List.mem_cons, not_or] at h
    obtain ⟨hm, hms⟩ := h
    have hrest := ih (c.go m) hms
    cases m with
    | mark => exact absurd rfl hm
    | skip => exact hrest
    | take => exact hrest

/-- The token starts where the last skip led to. -/
theorem start_follow_append_skip (c : Cursor) (before : List Move) {after : List Move} (h : Move.skip ∉ after) :
    (c.follow (before ++ .skip :: after)).start = (c.follow (before ++ [.skip])).pos := by
  rw [List.append_cons, follow_append, start_follow_of_no_skip _ h, follow_append]
  rfl

/-- The token ends where the last mark was made. -/
theorem stop_follow_append_mark (c : Cursor) (before : List Move) {after : List Move} (h : Move.mark ∉ after) :
    (c.follow (before ++ .mark :: after)).stop = some (c.follow before).pos := by
  rw [List.append_cons, follow_append, stop_follow_of_no_mark _ h, follow_append]
  rfl

/-! ## Readings with a span -/

section

variable {α : Type} (c : Cursor) {r : Reading α} {a b : Nat} (hs : r.Spans a b)

include hs

/-- What a token that is begun in front of a reading has for its start and its end behind it. -/
theorem begin_follow : (c.begin.follow r.moves).start = (c.pass a).pos ∧
    (c.begin.follow r.moves).stop.getD (c.begin.follow r.moves).pos = (c.pass b).pos := by
  obtain ⟨ms, hm, hn, rfl⟩ := hs
  have hf : c.begin.follow r.moves = ((c.pass a).begin).follow ms := by
    rw [hm, follow_append, follow_skips]
  have hp : ∀ n, (((c.pass a).begin).pass n).pos = (c.pass (a + n)).pos := fun n => by
    rw [← pass_pass]
    rfl
  rw [hf, follow_of_no_skip _ hn]
  refine ⟨rfl, ?_⟩
  cases hk : Move.markAt ms with
  | none =>
    rw [Option.map_none, Option.none_or, Option.getD_none]
    exact hp _
  | some n => exact hp _

/-- The end that is noted does not lie before the start, so it is the end of the token. -/
theorem tokenEnd_begin_follow : (c.begin.follow r.moves).tokenEnd =
    (c.begin.follow r.moves).stop.getD (c.begin.follow r.moves).pos := by
  obtain ⟨hstart, hstop⟩ := c.begin_follow hs
  rw [tokenEnd, hstart, hstop]
  exact Nat.max_eq_left (c.pos_pass_le_pos_pass hs.le)

end

end IniScan.Cursor
