import IniScan.Reader

/-!
# Readers that go alike

Two readers with different states may do the same at every character. It is enough to relate their states so that
related ones go on alike to related ones, or stop alike with outcomes that agree under a function `f`. Then
their readings of any text make the same calls, and the outcomes agree.

* `Alike.read`: one reading in terms of the other.
-/
namespace IniScan

def Ending.map {α β : Type} (f : α → β) (e : Ending α) : Ending β := ⟨f e.outcome, e.marked⟩

/-- The two steps go past the character in the same way to related states, or end in the same way. -/
inductive Step.Alike {σ τ α β : Type} (rel : σ → τ → Prop) (f : α → β) : Step σ α → Step τ β → Prop
  | go {s : σ} {t : τ} (how : Advance) : rel s t → Alike rel f (.go how s) (.go how t)
  | stop (e : Ending α) : Alike rel f (.stop e) (.stop (e.map f))

namespace Reader

variable {σ τ α β : Type}

/-- From related states `q` does what `r` does, and its outcome is `f` of that of `r`. -/
structure Alike (r : Reader σ α) (q : Reader τ β) (rel : σ → τ → Prop) (f : α → β) : Prop where
  start : rel r.start q.start
  step : ∀ {s t}, rel s t → ∀ c, Step.Alike rel f (r.step s c) (q.step t c)
  atEnd : ∀ {s t}, rel s t → q.atEnd t = (r.atEnd s).map f

variable {r : Reader σ α} {q : Reader τ β} {rel : σ → τ → Prop} {f : α → β}

theorem Alike.readFrom (h : r.Alike q rel f) {s : σ} {t : τ} (hst : rel s t) (cs : List Char) :
    q.readFrom t cs = (r.readFrom s cs).map f := by
  induction cs generalizing s t with
  | nil =>
    simp only [Reader.readFrom, h.atEnd hst]
    rfl
  | cons c cs ih =>
    have hstep := h.step hst c
    generalize hr : r.step s c = x at hstep
    generalize hq : q.step t c = y at hstep
    cases hstep with
    | go how hnext =>
      rw [readFrom_of_go cs hr, readFrom_of_go cs hq, ih hnext]
      rfl
    | stop e =>
      rw [readFrom_of_stop cs hr, readFrom_of_stop cs hq]
      rfl

theorem Alike.read (h : r.Alike q rel f) (cs : List Char) : q.read cs = (r.read cs).map f := h.readFrom h.start cs

end Reader

end IniScan
