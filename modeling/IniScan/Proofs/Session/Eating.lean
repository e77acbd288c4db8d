import IniScan.Proofs.Session.TokenStream

/-!
# Going past text by a predicate with a state

The predicate by which a host goes past text may keep a state: it may count, or look for a closing quote. It is asked
about the characters in order, as they stand, and the first that it refuses is not gone past. For the session this is a number
of calls that each take one character, as many as were accepted. So what holds of a session whatever its steps holds of one
that goes by such predicates too.

* `Cursor.eatWith_spec`: what is gone past, and what the state comes to.
* `Cursor.eatWith_eq_eatWhile`: a predicate that forgets.
* `Session.eatWith_eq_run`: the call as a run of takes.
* `Session.called_of_run`: sessions with such calls.
-/
namespace IniScan

open Text

namespace Cursor

variable {σ : Type} {p : σ → Char → Bool × σ}

theorem pass_zero (c : Cursor) : c.pass 0 = c := by simp [pass]

theorem exists_unread_of_not_isAtEnd {c : Cursor} (h : ¬ c.isAtEnd = true) : ∃ ds, c.unread = c.lookahead :: ds := by
  obtain ⟨d, ds, hunread⟩ := List.exists_cons_of_ne_nil (show c.unread ≠ [] by simpa [isAtEnd] using h)
  exact ⟨ds, by rw [lookahead, hunread]; rfl⟩

/-- The predicate accepts the characters one after the other, from the first state to the second. -/
inductive Accepts (p : σ → Char → Bool × σ) : σ → List Char → σ → Prop
  | nil (s : σ) : Accepts p s [] s
  | cons {s t u : σ} {d : Char} {ds : List Char} : p s d = (true, t) → Accepts p t ds u → Accepts p s (d :: ds) u

/-- In front of this text the predicate stops, and its state comes to the second. -/
inductive Halts (p : σ → Char → Bool × σ) : σ → List Char → σ → Prop
  | atEnd (s : σ) : Halts p s [] s
  | refused {s t : σ} {d : Char} {ds : List Char} : p s d = (false, t) → Halts p s (d :: ds) t

/-- Exactly the characters that are accepted are gone past. -/
theorem eatWith_spec (c : Cursor) (p : σ → Char → Bool × σ) (s : σ) : ∃ head rest t, c.unread = head ++ rest ∧
    Accepts p s head t ∧ Halts p t rest (c.eatWith p s).2 ∧ (c.eatWith p s).1 = c.pass head.length := by
  fun_induction eatWith c p s with
  | case1 c s hend =>
    have hunread : c.unread = [] := List.isEmpty_iff.1 hend
    exact ⟨[], [], s, hunread, .nil s, .atEnd s, c.pass_zero.symm⟩
  | case2 c s hend hyes ih =>
    obtain ⟨ds, hunread⟩ := exists_unread_of_not_isAtEnd hend
    obtain ⟨head, rest, t, hrest, haccepts, hhalts, hpass⟩ := ih
    rw [unread_pass, hunread, List.drop_one, List.tail_cons] at hrest
    refine ⟨c.lookahead :: head, rest, t, by rw [hunread, hrest]; rfl, .cons (Prod.ext hyes rfl) haccepts, hhalts, ?_⟩
    rw [hpass, pass_pass, List.length_cons, Nat.add_comm]
  | case3 c s hend hno =>
    obtain ⟨ds, hunread⟩ := exists_unread_of_not_isAtEnd hend
    exact ⟨[], c.lookahead :: ds, s, hunread, .nil s, .refused (Prod.ext (Bool.eq_false_iff.2 hno) rfl), c.pass_zero.symm⟩

theorem forall_of_accepts {q : Char → Bool} {s t : σ} {ds : List Char} (h : Accepts (fun u d => (q d, u)) s ds t) :
    ∀ d ∈ ds, q d = true := by
  induction h with
  | nil => exact nofun
  | cons hyes _ ih => exact List.forall_mem_cons.2 ⟨(Prod.ext_iff.1 hyes).1, ih⟩

theorem takeWhile_of_halts {q : Char → Bool} {s t : σ} {ds : List Char} (h : Halts (fun u d => (q d, u)) s ds t) :
    ds.takeWhile q = [] := by
  cases h with
  | atEnd => rfl
  | refused hno => exact List.takeWhile_cons_of_neg (Bool.eq_false_iff.1 (Prod.ext_iff.1 hno).1)

/-- A predicate that leaves its state alone goes as far as one that has none. -/
theorem eatWith_eq_eatWhile (c : Cursor) (q : Char → Bool) (s : σ) :
    (c.eatWith (fun u d => (q d, u)) s).1 = c.eatWhile q := by
  obtain ⟨head, rest, t, hunread, haccepts, hhalts, hpass⟩ := c.eatWith_spec (fun u d => (q d, u)) s
  rw [hpass, eatWhile, hunread, List.takeWhile_append_of_pos (forall_of_accepts haccepts), takeWhile_of_halts hhalts,
    List.append_nil]

end Cursor

namespace Session

variable {σ : Type}

/-- The session with another cursor. -/
def withCursor (x : Session) (c : Cursor) : Session := { x with host := { x.host with cursor := c } }

/-- The host goes past text by such a predicate. -/
def eatWith (x : Session) (p : σ → Char → Bool × σ) (s : σ) : Session := x.withCursor (x.host.cursor.eatWith p s).1

theorem run_takes (x : Session) (n : Nat) : x.run (List.replicate n (.move .take)) =
    (List.replicate n .done, x.withCursor (x.host.cursor.pass n)) := by
  induction n generalizing x with
  | zero => rw [Cursor.pass_zero]; rfl
  | succ n ih =>
    have hrest := ih (x.withCursor (x.host.cursor.pass 1))
    have hpass : (x.host.cursor.pass 1).pass n = x.host.cursor.pass (n + 1) := by rw [Cursor.pass_pass, Nat.add_comm]
    have hrun : x.run (List.replicate (n + 1) (.move .take)) =
        (.done :: ((x.withCursor (x.host.cursor.pass 1)).run (List.replicate n (.move .take))).1,
          ((x.withCursor (x.host.cursor.pass 1)).run (List.replicate n (.move .take))).2) := rfl
    rw [hrun, hrest, List.replicate_succ, ← hpass]
    rfl

/-- The call is as many takes as there are characters accepted. -/
theorem eatWith_eq_run (x : Session) (p : σ → Char → Bool × σ) (s : σ) : ∃ head t,
    Cursor.Accepts p s head t ∧ head <+: x.host.cursor.unread ∧
      x.run (List.replicate head.length (.move .take)) = (List.replicate head.length .done, x.eatWith p s) := by
  obtain ⟨head, rest, t, hunread, haccepts, -, hpass⟩ := x.host.cursor.eatWith_spec p s
  refine ⟨head, t, haccepts, ⟨rest, hunread.symm⟩, ?_⟩
  rw [run_takes, eatWith, hpass]

/-! ## Sessions with such calls -/

/-- A step, or a call by a predicate with a state. -/
inductive Call where
  | step (x : Step)
  | eatWith (σ : Type) (p : σ → Char → Bool × σ) (s : σ)

/-- The session behind the calls. -/
def called (x : Session) : List Call → Session
  | [] => x
  | .step y :: calls => (x.step y).2.called calls
  | .eatWith _ p s :: calls => (x.eatWith p s).called calls

/-- Steps alone come to the same session. -/
theorem exists_run_eq_called (x : Session) (calls : List Call) : ∃ steps, (x.run steps).2 = x.called calls := by
  induction calls generalizing x with
  | nil => exact ⟨[], rfl⟩
  | cons call calls ih =>
    cases call with
    | step y =>
      obtain ⟨steps, hsteps⟩ := ih (x.step y).2
      exact ⟨y :: steps, hsteps⟩
    | eatWith σ p s =>
      obtain ⟨head, t, -, -, hrun⟩ := x.eatWith_eq_run p s
      obtain ⟨steps, hsteps⟩ := ih (x.eatWith p s)
      refine ⟨List.replicate head.length (.move .take) ++ steps, ?_⟩
      rw [run_append, hrun]
      exact hsteps

/-- What holds of a session whatever its steps, holds of one with such calls. -/
theorem called_of_run {x : Session} {P : Session → Prop} (h : ∀ steps, P (x.run steps).2) (calls : List Call) :
    P (x.called calls) := by
  obtain ⟨steps, hsteps⟩ := x.exists_run_eq_called calls
  exact hsteps ▸ h steps

/-- So a call for a token places it as it does behind steps. -/
theorem placed_called (config : Config) {source : List Char} (hsize : byteSize source < 2 ^ 32) (calls : List Call)
    (offered : KindSet) : let h := ((ofText config source).called calls).host
    Placed source h.cursor.pos (h.nextToken offered).1 (h.nextToken offered).2 := by
  refine called_of_run (P := fun x => Placed source x.host.cursor.pos (x.host.nextToken offered).1
    (x.host.nextToken offered).2) (fun steps => ?_) calls
  have hsource := source_run config source steps
  have hplaced := placed_nextToken ((ofText config source).run steps).2.host offered (by rw [hsource]; exact hsize)
  rwa [hsource] at hplaced

end Session

end IniScan
