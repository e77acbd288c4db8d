import IniScan.Config.Json
import IniScan.Proofs.Text.Case

/-!
# What a configuration is read from

Of a JSON value two values count, one for the mode and one for the budget. They stand under names in an object and in order in
a list. Each is read on its own: it may be missing, and if it is there it must be a text that spells a mode, or a whole number
of 64 bits.

* `spells_iff`, `isAlpha_of_spells`: a mode is spelled in ASCII letters, in any case.
* `modeOfJson_eq_ok_iff`, `budgetOfJson_eq_ok_iff`: what a value is read as, and `exists_mode_iff`, `exists_budget_iff`: if
  it is read at all.
* `ofJson_eq_ok_iff`, `ofJson_eq_unknownMode_iff`: what both come to.
* `value?_eq_some_iff`: where they stand.
-/
namespace IniScan

open Text

namespace MatchMode

/-- The text is the name of the mode up to the case of ASCII letters. -/
def Spells (s : String) : MatchMode → Prop
  | exact => lower s.toList = "exact".toList
  | substring => lower s.toList = "substring".toList

theorem spells_iff {s : String} {m : MatchMode} : Spells s m ↔ lower s.toList = m.name.toList := by cases m <;> rfl

theorem lower_name (m : MatchMode) : lower m.name.toList = m.name.toList := by cases m <;> rfl

theorem ofName?_eq_some_iff {s : List Char} {m : MatchMode} : ofName? s = some m ↔ lower s = m.name.toList := by
  refine ⟨fun h => ?_, fun h => ?_⟩
  · have hname := List.find?_some h
    rw [eqIgnoreCase_iff, lower_name] at hname
    exact hname.symm
  · have hcongr : ofName? s = ofName? m.name.toList := by
      simp only [ofName?, eqIgnoreCase, h, lower_name]
    rw [hcongr, ofName?_name]

theorem parse_eq_ok_iff {s : String} {m : MatchMode} : parse s = .ok m ↔ Spells s m := by
  rw [spells_iff, ← ofName?_eq_some_iff, parse]
  cases ofName? s.toList <;> simp

theorem parse_eq_error_iff {s : String} {cause : Unknown} :
    parse s = .error cause ↔ cause = ⟨s⟩ ∧ ∀ m, ¬ Spells s m := by
  have hnone : ofName? s.toList = none ↔ ∀ m, ¬ Spells s m := by
    simp only [Option.eq_none_iff_forall_ne_some, Ne, ofName?_eq_some_iff, spells_iff]
  rw [← hnone, parse]
  cases ofName? s.toList <;> simp [eq_comm]

/-- A letter with another one as its small letter, such as the long s, is not in the name of a mode. -/
theorem isAlpha_of_spells {s : String} {m : MatchMode} (h : Spells s m) {c : Char} (hc : c ∈ s.toList) :
    c.isAlpha = true := by
  have hletters : m.name.toList.all Char.isAlpha = true := by cases m <;> decide
  rw [spells_iff] at h
  refine isAlpha_of_toLower (List.all_eq_true.1 hletters _ ?_)
  rw [← h]
  exact List.mem_map_of_mem hc

end MatchMode

namespace Json

/-- The value under the name in an object, or at the index in a list. -/
def value? (j : Json) (name : String) (index : Nat) : Option Json :=
  match j with
  | .object fields => field? name fields
  | .array items => items[index]?
  | _ => none

/-- `v` stands under the name in an object, or at the index in a list. -/
def Holds (j : Json) (name : String) (index : Nat) (v : Json) : Prop :=
  match j with
  | .object fields => (name, v) ∈ fields
  | .array items => items[index]? = some v
  | _ => False

/-- No name stands twice in the object. -/
def Distinct : Json → Prop
  | .object fields => (fields.map Prod.fst).Nodup
  | _ => True

theorem field?_eq_some_iff {fields : List (String × Json)} (h : (fields.map Prod.fst).Nodup) {name : String} {v : Json} :
    field? name fields = some v ↔ (name, v) ∈ fields := by
  induction fields with
  | nil => simp [field?]
  | cons f fs ih =>
    obtain ⟨n, w⟩ := f
    obtain ⟨hn, hfs⟩ := List.nodup_cons.1 h
    have hrest : List.lookup name fs = some v ↔ (name, v) ∈ fs := ih hfs
    rw [field?, List.lookup_cons, List.mem_cons]
    by_cases hname : name = n
    · subst hname
      have hmem : (name, v) ∉ fs := fun hv => hn (List.mem_map.2 ⟨(name, v), hv, rfl⟩)
      simp [hmem, eq_comm]
    · rw [beq_false_of_ne hname]
      simpa [hname] using hrest

theorem value?_eq_some_iff {j : Json} (h : j.Distinct) {name : String} {index : Nat} {v : Json} :
    j.value? name index = some v ↔ j.Holds name index v := by
  cases j with
  | object fields => exact field?_eq_some_iff h
  | array items => exact Iff.rfl
  | _ => exact ⟨nofun, False.elim⟩

end Json

namespace Config

open MatchMode

/-! ## One value -/

theorem modeOfJson_some_iff {v : Json} {m : MatchMode} : modeOfJson (some v) = .ok m ↔ ∃ s, v = .string s ∧ Spells s m := by
  cases v with
  | string s =>
    simp only [modeOfJson, Json.string.injEq, exists_eq_left', ← parse_eq_ok_iff]
    cases parse s <;> simp
  | _ => exact ⟨nofun, fun ⟨_, h, _⟩ => nomatch h⟩

theorem modeOfJson_unknownMode_iff {v : Option Json} {s : String} :
    modeOfJson v = .error (.unknownMode s) ↔ v = some (.string s) ∧ ∀ m, ¬ Spells s m := by
  cases v with
  | none => exact ⟨nofun, nofun⟩
  | some v =>
    cases v with
    | string t =>
      simp only [modeOfJson, Option.some.injEq, Json.string.injEq]
      cases hparse : parse t with
      | ok m =>
        refine ⟨nofun, ?_⟩
        rintro ⟨rfl, hnone⟩
        exact absurd (parse_eq_ok_iff.1 hparse) (hnone m)
      | error cause =>
        obtain ⟨rfl, hnone⟩ := parse_eq_error_iff.1 hparse
        simp only [Except.error.injEq, JsonError.unknownMode.injEq]
        exact ⟨fun h => ⟨h, h ▸ hnone⟩, And.left⟩
    | _ => exact ⟨nofun, nofun⟩

theorem budgetOfJson_some_iff {v : Json} {n : UInt64} : budgetOfJson (some v) = .ok n ↔ v = .natural n.toNat := by
  cases v with
  | natural k =>
    rw [budgetOfJson, Json.natural.injEq]
    split
    · rename_i hk
      rw [Except.ok.injEq, ← UInt64.toNat_inj, UInt64.toNat_ofNat_of_lt' hk]
    · rename_i hk
      simp only [reduceCtorEq, false_iff]
      exact fun h => hk (h ▸ n.toNat_lt)
  | _ => simp [budgetOfJson]

theorem budgetOfJson_ne_unknownMode (v : Option Json) (s : String) : budgetOfJson v ≠ .error (.unknownMode s) := by
  unfold budgetOfJson
  split
  · exact nofun
  · split <;> exact nofun
  · exact nofun

theorem budgetOfJson_eq_malformed_iff {v : Json} :
    budgetOfJson (some v) = .error .malformed ↔ ¬ ∃ n, v = .natural n ∧ n < UInt64.size := by
  cases v with
  | natural k =>
    simp only [budgetOfJson, Json.natural.injEq, exists_eq_left']
    split <;> simp_all
  | _ => simp [budgetOfJson]

theorem exists_mode_iff {v : Option Json} :
    (∃ m, modeOfJson v = .ok m) ↔ ∀ w, v = some w → ∃ s m, w = .string s ∧ Spells s m := by
  cases v with
  | none => exact ⟨fun _ => nofun, fun _ => ⟨default, rfl⟩⟩
  | some w =>
    simp only [modeOfJson_some_iff, Option.some.injEq, forall_eq']
    exact exists_comm

theorem exists_budget_iff {v : Option Json} :
    (∃ n, budgetOfJson v = .ok n) ↔ ∀ w, v = some w → ∃ n, w = .natural n ∧ n < UInt64.size := by
  cases v with
  | none => exact ⟨fun _ => nofun, fun _ => ⟨defaultBudget, rfl⟩⟩
  | some w =>
    simp only [budgetOfJson_some_iff, Option.some.injEq, forall_eq']
    refine ⟨fun ⟨n, hn⟩ => ⟨n.toNat, hn, n.toNat_lt⟩, ?_⟩
    rintro ⟨n, rfl, hn⟩
    exact ⟨UInt64.ofNat n, by rw [UInt64.toNat_ofNat_of_lt' hn]⟩

theorem modeOfJson_eq_ok_iff {v : Option Json} {m : MatchMode} : modeOfJson v = .ok m ↔
    (∀ w, v = some w → ∃ s, w = .string s ∧ Spells s m) ∧ ((∀ w, v ≠ some w) → m = .exact) := by
  cases v with
  | none => simp [modeOfJson, eq_comm, default]
  | some w => simp [modeOfJson_some_iff]

theorem budgetOfJson_eq_ok_iff {v : Option Json} {n : UInt64} : budgetOfJson v = .ok n ↔
    (∀ w, v = some w → w = .natural n.toNat) ∧ ((∀ w, v ≠ some w) → n = 1024) := by
  cases v with
  | none => simp [budgetOfJson, eq_comm, defaultBudget]
  | some w => simp [budgetOfJson_some_iff]

/-! ## Both values -/

/-- Nothing else can be read as a configuration. -/
def Shaped : Json → Prop
  | .object _ => True
  | .array items => items.length ≤ 2
  | _ => False

/-- The value that is read for the mode. -/
def mode? (j : Json) : Option Json := j.value? "matchMode" 0

/-- The value that is read for the budget. -/
def budget? (j : Json) : Option Json := j.value? "serializationBudget" 1

/-- `v` stands where the mode is read. -/
def GivesMode (j v : Json) : Prop := j.Holds "matchMode" 0 v

/-- `v` stands where the budget is read. -/
def GivesBudget (j v : Json) : Prop := j.Holds "serializationBudget" 1 v

theorem mode?_eq_some_iff {j : Json} (h : j.Distinct) {v : Json} : mode? j = some v ↔ GivesMode j v :=
  Json.value?_eq_some_iff h

theorem budget?_eq_some_iff {j : Json} (h : j.Distinct) {v : Json} : budget? j = some v ↔ GivesBudget j v :=
  Json.value?_eq_some_iff h

theorem bind_eq_ok_iff {ε α β : Type} {r : Except ε α} {f : α → Except ε β} {b : β} :
    (r >>= f) = .ok b ↔ ∃ a, r = .ok a ∧ f a = .ok b := by
  cases r with
  | error e => exact ⟨nofun, fun ⟨_, h, _⟩ => nomatch h⟩
  | ok a => simp [bind, Except.bind]

theorem bind_eq_error_iff {ε α β : Type} {r : Except ε α} {f : α → Except ε β} {e : ε} :
    (r >>= f) = .error e ↔ r = .error e ∨ ∃ a, r = .ok a ∧ f a = .error e := by
  cases r <;> simp [bind, Except.bind]

theorem ofValues_eq_ok_iff {mode budget : Option Json} {c : Config} :
    ofValues mode budget = .ok c ↔ modeOfJson mode = .ok c.mode ∧ budgetOfJson budget = .ok c.budget := by
  simp only [ofValues, bind_eq_ok_iff]
  refine ⟨?_, fun h => ⟨c.mode, h.1, c.budget, h.2, rfl⟩⟩
  rintro ⟨m, hm, n, hn, hc⟩
  cases hc
  exact ⟨hm, hn⟩

theorem ofValues_eq_unknownMode_iff {mode budget : Option Json} {s : String} :
    ofValues mode budget = .error (.unknownMode s) ↔ modeOfJson mode = .error (.unknownMode s) := by
  simp only [ofValues, bind_eq_error_iff]
  refine ⟨?_, Or.inl⟩
  rintro (h | ⟨m, -, h | ⟨n, -, h⟩⟩)
  · exact h
  · exact absurd h (budgetOfJson_ne_unknownMode budget s)
  · cases h

theorem ofJson_eq_ok_iff {j : Json} {c : Config} :
    ofJson j = .ok c ↔ Shaped j ∧ modeOfJson (mode? j) = .ok c.mode ∧ budgetOfJson (budget? j) = .ok c.budget := by
  cases j with
  | object fields => exact ofValues_eq_ok_iff.trans (and_iff_right trivial).symm
  | array items =>
    rw [ofJson, bind_eq_ok_iff]
    refine ⟨?_, fun ⟨hlength, hvalues⟩ => ⟨c, ofValues_eq_ok_iff.2 hvalues, if_pos hlength⟩⟩
    rintro ⟨d, hd, hlength⟩
    split at hlength
    · rename_i hle
      cases hlength
      exact ⟨hle, ofValues_eq_ok_iff.1 hd⟩
    · cases hlength
  | _ => exact ⟨nofun, fun h => h.1.elim⟩

/-- The mode is read before anything else can be wrong with a list. -/
theorem ofJson_eq_unknownMode_iff {j : Json} {s : String} :
    ofJson j = .error (.unknownMode s) ↔ modeOfJson (mode? j) = .error (.unknownMode s) := by
  cases j with
  | object fields => exact ofValues_eq_unknownMode_iff
  | array items =>
    rw [ofJson, bind_eq_error_iff, ofValues_eq_unknownMode_iff]
    refine ⟨?_, Or.inl⟩
    rintro (h | ⟨d, -, hlength⟩)
    · exact h
    · split at hlength <;> cases hlength
  | _ => exact ⟨nofun, nofun⟩

end Config

end IniScan
