import IniScan.Reader

/-!
# Stretches of a text that a reader goes past

A reading is put together from stretches. Behind each of them the reader is in some state and has made some calls,
and what it does there does not depend on how it got there. `Passes s a ms t` says that from `s` the reader goes past
all of `a`, makes the calls `ms` and is then in `t`.

* `Passes.readFrom`: a reading begins with the calls for the stretch and goes on behind it.
* `outcome_of_forall`: a property of all outcomes.
* `passes_of_stay`: a stretch of characters at each of which the reader stays in its state.
-/
namespace IniScan.Reader

variable {σ α : Type} {r : Reader σ α}

/-- From `s` the reader goes past `a` to `t`, and makes the calls `ms` on its way. -/
inductive Passes (r : Reader σ α) : σ → List Char → List Move → σ → Prop
  | nil (s : σ) : Passes r s [] [] s
  | cons {s next t : σ} {c : Char} {cs : List Char} {how : Advance} {ms : List Move} :
      r.step s c = .go how next → Passes r next cs ms t → Passes r s (c :: cs) (how.moves ++ ms) t

theorem Passes.append {s t u : σ} {a b : List Char} {ms ns : List Move} (h : r.Passes s a ms t)
    (h' : r.Passes t b ns u) : r.Passes s (a ++ b) (ms ++ ns) u := by
  induction h with
  | nil => exact h'
  | cons hstep _ ih =>
    rw [List.append_assoc]
    exact .cons hstep (ih h')

theorem Passes.readFrom {s t : σ} {a : List Char} {ms : List Move} (h : r.Passes s a ms t) (b : List Char) :
    r.readFrom s (a ++ b) = ⟨(r.readFrom t b).outcome, ms ++ (r.readFrom t b).moves⟩ := by
  induction h with
  | nil => rfl
  | cons hstep _ ih => rw [List.cons_append, readFrom_of_go _ hstep, ih, List.append_assoc]

theorem passes_of_stay {s : σ} {a : List Char} {how : Advance} {m : Move} (hm : how.moves = [m])
    (h : ∀ c ∈ a, r.step s c = .go how s) : r.Passes s a (List.replicate a.length m) s := by
  induction a with
  | nil => exact .nil s
  | cons c cs ih =>
    have hc := Passes.cons (h c List.mem_cons_self) (ih fun d hd => h d (List.mem_cons_of_mem _ hd))
    rw [hm] at hc
    exact hc

/-- What holds of every outcome that the reader can stop with holds of its readings. -/
theorem outcome_of_forall {P : α → Prop} (hstop : ∀ {s c e}, r.step s c = .stop e → P e.outcome)
    (hend : ∀ s, P (r.atEnd s).outcome) (s : σ) (cs : List Char) : P (r.readFrom s cs).outcome := by
  induction cs generalizing s with
  | nil => exact hend s
  | cons c cs ih =>
    cases h : r.step s c with
    | go how next => rw [readFrom_of_go cs h]; exact ih next
    | stop e => rw [readFrom_of_stop cs h]; exact hstop h

end IniScan.Reader
