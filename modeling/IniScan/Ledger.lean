import IniScan.Cursor

/-!
# A ledger of calls

A reader goes past a character because it has been given one, so it cannot go past the end of the text. A scanner that looks
at the next character and calls on the host by itself can: with nothing left to go past, the call does nothing, and nobody
would notice. A ledger keeps the calls that are made on a cursor in order, and whether one of them came too late.

* `length_unread_call_lt`: behind a look at a character, a call that goes past it leaves less of the text.
* `overran_foldl_iff`: a ledger tells of any calls whether one came too late.
-/
namespace IniScan

/-- A cursor and what has been called on it. -/
structure Ledger where
  cursor : Cursor
  calls : List Move
  /-- A call was to go past a character where the text had ended. -/
  overran : Bool
  deriving DecidableEq, Repr

namespace Ledger

/-- Nothing has been called. -/
def ofCursor (c : Cursor) : Ledger := ⟨c, [], false⟩

/-- The next character, if the text goes on. -/
def peek (l : Ledger) : Option Char := if l.cursor.isAtEnd then none else some l.cursor.lookahead

/-- One more call. -/
def call (l : Ledger) (m : Move) : Ledger where
  cursor := l.cursor.go m
  calls := l.calls ++ [m]
  overran := l.overran || (m ≠ .mark && l.cursor.isAtEnd)

theorem peek_eq (l : Ledger) : l.peek = l.cursor.unread.head? := by
  unfold peek Cursor.isAtEnd Cursor.lookahead
  cases l.cursor.unread <;> rfl

theorem exists_unread_of_peek {l : Ledger} {c : Char} (h : l.peek = some c) : ∃ cs, l.cursor.unread = c :: cs :=
  List.head?_eq_some_iff.1 (l.peek_eq.symm.trans h)

theorem length_unread_call_lt (l : Ledger) {c : Char} (h : l.peek = some c) {m : Move} (hm : m ≠ .mark) :
    (l.call m).cursor.unread.length < l.cursor.unread.length := by
  obtain ⟨cs, hunread⟩ := exists_unread_of_peek h
  have hcall : (l.call m).cursor.unread = l.cursor.unread.drop 1 := by
    cases m with
    | skip => rfl
    | take => rfl
    | mark => exact absurd rfl hm
  rw [hcall, hunread]
  exact Nat.lt_succ_self _

theorem overran_call_iff (l : Ledger) (m : Move) :
    (l.call m).overran = true ↔ l.overran = true ∨ m ≠ .mark ∧ l.cursor.unread = [] := by
  simp [call, Cursor.isAtEnd]

/-- Of calls in order the ledger tells whether one came too late. -/
theorem overran_foldl_iff (l : Ledger) (ms : List Move) : (ms.foldl call l).overran = true ↔ l.overran = true ∨
    ∃ before m after, ms = before ++ m :: after ∧ m ≠ .mark ∧ (l.cursor.follow before).unread = [] := by
  induction ms generalizing l with
  | nil => simp
  | cons n ms ih =>
    rw [List.foldl_cons, ih, overran_call_iff]
    refine ⟨?_, ?_⟩
    · rintro ((hoverran | ⟨hn, hend⟩) | ⟨before, m, after, rfl, hm, hend⟩)
      · exact .inl hoverran
      · exact .inr ⟨[], n, ms, rfl, hn, hend⟩
      · exact .inr ⟨n :: before, m, after, rfl, hm, hend⟩
    · rintro (hoverran | ⟨before, m, after, hms, hm, hend⟩)
      · exact .inl (.inl hoverran)
      · cases before with
        | nil =>
          cases hms
          exact .inl (.inr ⟨hm, hend⟩)
        | cons k before =>
          cases hms
          exact .inr ⟨before, m, after, rfl, hm, hend⟩

/-- With nothing left to take, a take changes nothing but the ledger. -/
example : (ofCursor (.ofText [])).call .take = ⟨.ofText [], [.take], true⟩ := rfl

end Ledger

end IniScan
