/-!
# Reading with one character of lookahead

A host owns the text. All that a scanner may do is look at the next character and call on the host to skip it
(the pending token then starts behind it), to take it into the pending token, or to mark the place reached as the
end of that token. The last mark counts, so a reader may look further than the token that it finds.

A `Reader` is a machine over this interface. At each character it either goes on, in one of four ways, or ends
without consuming the character. What it did is a `Reading`: the outcome and the calls in order. Nothing but the
unread text goes in, so a reading cannot depend on what stands before it.

* `moves_readFrom_cons`: going on puts the calls for one character in front of those for the rest.
* `advances_le`: a reading never advances past the end of the text.
-/
namespace IniScan

/-- A call on the host. -/
inductive Move where
  /-- Go past the next character and start the token behind it. -/
  | skip
  /-- Go past the next character as part of the token. -/
  | take
  /-- End the token here. -/
  | mark
  deriving DecidableEq, Repr

/-- How a reader goes past a character. -/
inductive Advance where
  | skip
  | take
  /-- The token may end before the character. -/
  | markTake
  /-- The token may end after the character. -/
  | takeMark
  deriving DecidableEq, Repr

def Advance.moves : Advance → List Move
  | skip => [.skip]
  | take => [.take]
  | markTake => [.mark, .take]
  | takeMark => [.take, .mark]

/-- The end of a reading, which may mark the place reached. -/
structure Ending (α : Type) where
  outcome : α
  marked : Bool

def Ending.moves {α : Type} (e : Ending α) : List Move := if e.marked then [.mark] else []

/-- What a reader does with the character in front of it. -/
inductive Step (σ α : Type) where
  | go (how : Advance) (next : σ)
  | stop (e : Ending α)

/-- A machine with states `σ` that comes to an outcome in `α`. -/
structure Reader (σ α : Type) where
  start : σ
  step : σ → Char → Step σ α
  atEnd : σ → Ending α

/-- What a reader made of a text. -/
structure Reading (α : Type) where
  outcome : α
  moves : List Move
  deriving DecidableEq

namespace Reading

variable {α β : Type}

def map (f : α → β) (r : Reading α) : Reading β := ⟨f r.outcome, r.moves⟩

@[simp] theorem outcome_map (f : α → β) (r : Reading α) : (r.map f).outcome = f r.outcome := rfl

@[simp] theorem moves_map (f : α → β) (r : Reading α) : (r.map f).moves = r.moves := rfl

/-- The number of characters gone past. -/
def advances (r : Reading α) : Nat := r.moves.countP (· ≠ .mark)

end Reading

namespace Reader

variable {σ α : Type}

/-- Reads on from a state. -/
def readFrom (r : Reader σ α) (s : σ) : List Char → Reading α
  | [] => ⟨(r.atEnd s).outcome, (r.atEnd s).moves⟩
  | c :: cs =>
    match r.step s c with
    | .go how next => ⟨(r.readFrom next cs).outcome, how.moves ++ (r.readFrom next cs).moves⟩
    | .stop e => ⟨e.outcome, e.moves⟩

/-- Reads from the start of the unread text. -/
def read (r : Reader σ α) (unread : List Char) : Reading α := r.readFrom r.start unread

theorem readFrom_of_go {r : Reader σ α} {s next : σ} {c : Char} {how : Advance} (cs : List Char)
    (h : r.step s c = .go how next) :
    r.readFrom s (c :: cs) = ⟨(r.readFrom next cs).outcome, how.moves ++ (r.readFrom next cs).moves⟩ := by
  rw [readFrom, h]

theorem readFrom_of_stop {r : Reader σ α} {s : σ} {c : Char} {e : Ending α} (cs : List Char)
    (h : r.step s c = .stop e) : r.readFrom s (c :: cs) = ⟨e.outcome, e.moves⟩ := by
  rw [readFrom, h]

theorem moves_readFrom_cons {r : Reader σ α} {s next : σ} {c : Char} {how : Advance} (cs : List Char)
    (h : r.step s c = .go how next) :
    (r.readFrom s (c :: cs)).moves = how.moves ++ (r.readFrom next cs).moves := by
  rw [readFrom_of_go cs h]

theorem countP_advance_moves (how : Advance) : how.moves.countP (· ≠ .mark) = 1 := by cases how <;> rfl

theorem countP_ending_moves (e : Ending α) : e.moves.countP (· ≠ .mark) = 0 := by
  unfold Ending.moves; split <;> rfl

theorem advances_le (r : Reader σ α) (s : σ) (cs : List Char) : (r.readFrom s cs).advances ≤ cs.length := by
  induction cs generalizing s with
  | nil => simp only [Reading.advances, readFrom, countP_ending_moves]; exact Nat.le_refl 0
  | cons c cs ih =>
    cases h : r.step s c with
    | go how next =>
      have := ih next
      simp only [Reading.advances] at this ⊢
      rw [moves_readFrom_cons cs h, List.countP_append, countP_advance_moves, List.length_cons]
      omega
    | stop e => rw [readFrom_of_stop cs h]; simp only [Reading.advances, countP_ending_moves]; exact Nat.zero_le _

end Reader

end IniScan
