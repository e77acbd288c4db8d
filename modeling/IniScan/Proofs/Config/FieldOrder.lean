import IniScan.Config.Fields
import IniScan.Proofs.Config.Values

/-!
# The order of the fields

Read one after another, the fields of an object fill two places. A field fills one of them or neither, so each place comes to
what it comes to by itself, and as far as nothing is wrong the order does not count. What is reported when both values are
wrong depends on it: the one in front is, which is the mode when an object keeps its fields by their names.

* `foldlM_fill`: what a place comes to.
* `foldlM_eq_ok_iff`: both places, in any order.
* `foldlM_of_mode_first`: whatever is wrong, if the mode comes first.
* `ofFields_eq_ok_iff`, `ofFields_of_mode_first`, `ofFields_byName`: the same for configurations.
* `ofFields_eq_error_iff`: what is reported, in any order.
-/
namespace IniScan.Config

/-! ## One place -/

section

variable {α : Type} {name : String} {read : Option Json → Except JsonError α} {fields : List (String × Json)}

theorem fill_of_ne {place : Option α} {field : String × Json} (h : field.1 ≠ name) :
    fill name read place field = .ok place := if_neg h

theorem foldlM_fill_of_not_mem (h : name ∉ fields.map Prod.fst) (place : Option α) :
    fields.foldlM (fill name read) place = .ok place := by
  induction fields with
  | nil => rfl
  | cons f fs ih =>
    obtain ⟨hf, hfs⟩ := not_or.1 (mt List.mem_cons.2 h)
    rw [List.foldlM_cons, fill_of_ne (Ne.symm hf)]
    exact ih hfs

/-- A place comes to the value that stands under the name. -/
theorem foldlM_fill (h : (fields.map Prod.fst).Nodup) : fields.foldlM (fill name read) none =
    (Json.field? name fields).elim (.ok none) fun v => (read (some v)).map some := by
  induction fields with
  | nil => rfl
  | cons f fs ih =>
    obtain ⟨n, v⟩ := f
    obtain ⟨hn, hfs⟩ := List.nodup_cons.1 h
    rw [List.foldlM_cons, Json.field?, List.lookup_cons]
    by_cases hname : n = name
    · subst hname
      rw [beq_self_eq_true, fill, if_pos rfl]
      show (read (some v)).map some >>= _ = (read (some v)).map some
      cases read (some v) with
      | error cause => rfl
      | ok a => exact foldlM_fill_of_not_mem hn (some a)
    · rw [fill_of_ne hname, beq_false_of_ne (Ne.symm hname)]
      exact ih hfs

theorem eq_none_of_foldlM_fill (h : name ∉ fields.map Prod.fst) {place : Option α}
    (hplace : fields.foldlM (fill name read) none = .ok place) : place = none := by
  rw [foldlM_fill_of_not_mem h] at hplace
  exact (Except.ok.inj hplace).symm

theorem ne_error_of_foldlM_fill (h : (fields.map Prod.fst).Nodup) {place : Option α}
    (hplace : fields.foldlM (fill name read) none = .ok place) {v : Json} (hv : (name, v) ∈ fields) {e : JsonError} :
    read (some v) ≠ .error e := fun hwrong => by
  rw [foldlM_fill h, (Json.field?_eq_some_iff h).2 hv, Option.elim_some, hwrong] at hplace
  cases hplace

/-- A place that stays empty means the default, which is what a value that is missing is read as. -/
theorem map_getD_foldlM_fill (h : (fields.map Prod.fst).Nodup) {d : α} (hread : read none = .ok d) :
    (fields.foldlM (fill name read) none).map (·.getD d) = read (Json.field? name fields) := by
  rw [foldlM_fill h]
  cases Json.field? name fields with
  | none => exact hread.symm
  | some v =>
    rw [Option.elim_some]
    cases read (some v) <;> rfl

end

/-! ## Both places -/

namespace Places

variable {fields : List (String × Json)} {places q : Places}

/-- What the places come to when the fields are gone through for each of them. -/
def apart (places : Places) (fields : List (String × Json)) : Except JsonError Places :=
  both (fields.foldlM (Config.fill "matchMode" modeOfJson) places.mode)
    (fields.foldlM (Config.fill "serializationBudget" budgetOfJson) places.budget)

theorem both_eq_ok_iff {mode : Except JsonError (Option MatchMode)} {budget : Except JsonError (Option UInt64)} :
    both mode budget = .ok q ↔ mode = .ok q.mode ∧ budget = .ok q.budget := by
  simp only [both, bind_eq_ok_iff]
  refine ⟨?_, fun h => ⟨q.mode, h.1, q.budget, h.2, rfl⟩⟩
  rintro ⟨m, hm, n, hn, hq⟩
  cases hq
  exact ⟨hm, hn⟩

theorem foldlM_eq_ok_iff : fields.foldlM fill places = .ok q ↔ places.apart fields = .ok q := by
  rw [apart, both_eq_ok_iff]
  induction fields generalizing places with
  | nil =>
    obtain ⟨m, n⟩ := places
    obtain ⟨m', n'⟩ := q
    simp [pure, Except.pure]
  | cons f fs ih =>
    simp only [List.foldlM_cons, bind_eq_ok_iff, fill, both_eq_ok_iff, ih]
    refine ⟨?_, ?_⟩
    · rintro ⟨p, ⟨hmode, hbudget⟩, hmodes, hbudgets⟩
      exact ⟨⟨p.mode, hmode, hmodes⟩, p.budget, hbudget, hbudgets⟩
    · rintro ⟨⟨m, hmode, hmodes⟩, n, hbudget, hbudgets⟩
      exact ⟨⟨m, n⟩, ⟨hmode, hbudget⟩, hmodes, hbudgets⟩

/-- Where no mode stands behind a budget, what is wrong first is what is wrong with the mode. -/
theorem foldlM_of_mode_first (h : fields.Pairwise fun f g => f.1 = "serializationBudget" → g.1 ≠ "matchMode") :
    fields.foldlM fill places = places.apart fields := by
  induction fields generalizing places with
  | nil => rfl
  | cons f fs ih =>
    obtain ⟨hf, hfs⟩ := List.pairwise_cons.1 h
    simp only [apart, both, List.foldlM_cons, fill, bind_assoc, pure_bind, ih hfs]
    refine bind_congr fun mode => ?_
    -- the field of the budget changes places with the modes behind it, of which there are none
    by_cases hbudget : f.1 = "serializationBudget"
    · have hnone : "matchMode" ∉ fs.map Prod.fst := fun hmem => by
        obtain ⟨g, hg, hname⟩ := List.mem_map.1 hmem
        exact hf g hg hbudget hname
      rw [foldlM_fill_of_not_mem hnone]
      rfl
    · rw [fill_of_ne hbudget]
      rfl

theorem map_config_apart (h : (fields.map Prod.fst).Nodup) :
    (empty.apart fields).map config = ofJson (.object fields) := by
  have hmode : (fields.foldlM (Config.fill "matchMode" modeOfJson) none).map (·.getD default) =
      modeOfJson (Json.field? "matchMode" fields) := map_getD_foldlM_fill h rfl
  have hbudget : (fields.foldlM (Config.fill "serializationBudget" budgetOfJson) none).map (·.getD defaultBudget) =
      budgetOfJson (Json.field? "serializationBudget" fields) := map_getD_foldlM_fill h rfl
  simp only [apart, both, empty, ofJson, ofValues, ← hmode, ← hbudget]
  cases fields.foldlM (Config.fill "matchMode" modeOfJson) none with
  | error cause => rfl
  | ok m => cases fields.foldlM (Config.fill "serializationBudget" budgetOfJson) none <;> rfl

end Places

/-! ## Configurations -/

section

variable {fields : List (String × Json)}

theorem map_eq_ok_iff {ε α β : Type} {r : Except ε α} {f : α → β} {b : β} :
    r.map f = .ok b ↔ ∃ a, r = .ok a ∧ f a = b := by
  cases r <;> simp [Except.map]

theorem map_eq_error_iff {ε α β : Type} {r : Except ε α} {f : α → β} {e : ε} : r.map f = .error e ↔ r = .error e := by
  cases r <;> simp [Except.map]

theorem ofFields_eq_ok_iff (h : (fields.map Prod.fst).Nodup) {c : Config} :
    ofFields fields = .ok c ↔ ofJson (.object fields) = .ok c := by
  simp only [ofFields, ← Places.map_config_apart h, map_eq_ok_iff, Places.foldlM_eq_ok_iff]

theorem ofFields_of_mode_first (h : (fields.map Prod.fst).Nodup)
    (hfirst : fields.Pairwise fun f g => f.1 = "serializationBudget" → g.1 ≠ "matchMode") :
    ofFields fields = ofJson (.object fields) := by
  rw [ofFields, Places.foldlM_of_mode_first hfirst, Places.map_config_apart h]

/-- What stands under the two names is all that counts. -/
theorem ofJson_object_congr {others : List (String × Json)} (h : (fields.map Prod.fst).Nodup)
    (hothers : (others.map Prod.fst).Nodup)
    (hmode : ∀ v, ("matchMode", v) ∈ others ↔ ("matchMode", v) ∈ fields)
    (hbudget : ∀ v, ("serializationBudget", v) ∈ others ↔ ("serializationBudget", v) ∈ fields) :
    ofJson (.object others) = ofJson (.object fields) := by
  have hm : Json.field? "matchMode" others = Json.field? "matchMode" fields := Option.ext fun v => by
    rw [Json.field?_eq_some_iff hothers, Json.field?_eq_some_iff h, hmode]
  have hb : Json.field? "serializationBudget" others = Json.field? "serializationBudget" fields := Option.ext fun v => by
    rw [Json.field?_eq_some_iff hothers, Json.field?_eq_some_iff h, hbudget]
  rw [ofJson, ofJson, hm, hb]

theorem ofJson_object_perm {others : List (String × Json)} (h : (fields.map Prod.fst).Nodup) (hperm : others.Perm fields) :
    ofJson (.object others) = ofJson (.object fields) :=
  ofJson_object_congr h ((hperm.map Prod.fst).nodup_iff.2 h) (fun _ => hperm.mem_iff) fun _ => hperm.mem_iff

theorem pairwise_byName (fields : List (String × Json)) : (byName fields).Pairwise fun f g => f.1 ≤ g.1 := by
  have hle : (byName fields).Pairwise fun f g => decide (f.1 ≤ g.1) = true := by
    refine List.pairwise_mergeSort (fun f g e hfg hge => ?_) (fun f g => ?_) _
    · rw [decide_eq_true_eq] at hfg hge ⊢
      exact String.le_trans hfg hge
    · rw [Bool.or_eq_true, decide_eq_true_eq, decide_eq_true_eq]
      exact String.le_total _ _
  exact hle.imp of_decide_eq_true

/-- By their names the mode stands in front of the budget. -/
theorem ofFields_byName (h : (fields.map Prod.fst).Nodup) : ofFields (byName fields) = ofJson (.object fields) := by
  have hperm : (byName fields).Perm fields := List.mergeSort_perm _ _
  rw [ofFields_of_mode_first ((hperm.map Prod.fst).nodup_iff.2 h), ofJson_object_perm h hperm]
  refine (pairwise_byName fields).imp fun {f g} hle hbudget hmode => ?_
  rw [hbudget, hmode] at hle
  exact absurd hle (by decide)

end

/-! ## What is reported -/

section

variable {fields : List (String × Json)} {f : String × Json} {e : JsonError}

/-- A fold goes wrong at the first step that does. -/
theorem foldlM_eq_error_iff {ε α β : Type} {step : β → α → Except ε β} {l : List α} {b : β} {e : ε} :
    l.foldlM step b = .error e ↔
      ∃ before a after c, l = before ++ a :: after ∧ before.foldlM step b = .ok c ∧ step c a = .error e := by
  induction l generalizing b with
  | nil =>
    refine ⟨nofun, ?_⟩
    rintro ⟨before, a, after, c, hl, -⟩
    cases before <;> cases hl
  | cons x xs ih =>
    rw [List.foldlM_cons, bind_eq_error_iff]
    refine ⟨?_, ?_⟩
    · rintro (hx | ⟨d, hd, hxs⟩)
      · exact ⟨[], x, xs, b, rfl, rfl, hx⟩
      · obtain ⟨before, a, after, c, rfl, hbefore, ha⟩ := ih.1 hxs
        exact ⟨x :: before, a, after, c, rfl, by rw [List.foldlM_cons, bind_eq_ok_iff]; exact ⟨d, hd, hbefore⟩, ha⟩
    · rintro ⟨before, a, after, c, hl, hbefore, ha⟩
      cases before with
      | nil =>
        cases hl
        cases hbefore
        exact .inl ha
      | cons y ys =>
        cases hl
        rw [List.foldlM_cons, bind_eq_ok_iff] at hbefore
        obtain ⟨d, hd, hys⟩ := hbefore
        exact .inr ⟨d, hd, ih.2 ⟨ys, a, after, c, rfl, hys, ha⟩⟩

/-- The value under one of the two names is wrong in this way. -/
def Wrong (f : String × Json) (e : JsonError) : Prop :=
  f.1 = "matchMode" ∧ modeOfJson (some f.2) = .error e ∨
    f.1 = "serializationBudget" ∧ budgetOfJson (some f.2) = .error e

theorem wrong_unknownMode_iff {s : String} :
    Wrong f (.unknownMode s) ↔ f = ("matchMode", .string s) ∧ ∀ m, ¬ MatchMode.Spells s m := by
  simp only [Wrong, modeOfJson_unknownMode_iff, budgetOfJson_ne_unknownMode, and_false, or_false, Option.some.injEq,
    Prod.ext_iff, and_assoc]

theorem forall_not_error_iff {ε α : Type} {r : Except ε α} : (∀ e, r ≠ .error e) ↔ ∃ a, r = .ok a := by
  cases r <;> simp

/-- What must stand under the two names for nothing to be wrong. -/
theorem forall_not_wrong_iff : (∀ g ∈ fields, ∀ d, ¬ Wrong g d) ↔
    (∀ v, ("matchMode", v) ∈ fields → ∃ s m, v = .string s ∧ MatchMode.Spells s m) ∧
      ∀ v, ("serializationBudget", v) ∈ fields → ∃ n, v = .natural n ∧ n < UInt64.size := by
  have hmode (v : Json) : (∀ d, modeOfJson (some v) ≠ .error d) ↔ ∃ s m, v = .string s ∧ MatchMode.Spells s m := by
    rw [forall_not_error_iff, exists_mode_iff]
    simp
  have hbudget (v : Json) : (∀ d, budgetOfJson (some v) ≠ .error d) ↔ ∃ n, v = .natural n ∧ n < UInt64.size := by
    rw [forall_not_error_iff, exists_budget_iff]
    simp
  simp only [← hmode, ← hbudget]
  refine ⟨fun h => ⟨fun v hv d hd => h _ hv d (.inl ⟨rfl, hd⟩), fun v hv d hd => h _ hv d (.inr ⟨rfl, hd⟩)⟩, ?_⟩
  rintro ⟨hm, hb⟩ ⟨name, v⟩ hg d (⟨rfl, hd⟩ | ⟨rfl, hd⟩)
  · exact hm v hg d hd
  · exact hb v hg d hd

theorem fill_none_eq_error_iff {α : Type} {name : String} {read : Option Json → Except JsonError α} :
    fill name read none f = .error e ↔ f.1 = name ∧ read (some f.2) = .error e := by
  by_cases hname : f.1 = name
  · rw [fill, if_pos hname, Option.isSome_none, if_neg Bool.false_ne_true, map_eq_error_iff, and_iff_right hname]
  · simp [fill_of_ne hname, hname]

/-- If no place is taken by another value, it is the value itself that is wrong. -/
theorem Places.fill_eq_error_iff {places : Places} (hmode : f.1 = "matchMode" → places.mode = none)
    (hbudget : f.1 = "serializationBudget" → places.budget = none) : places.fill f = .error e ↔ Wrong f e := by
  simp only [Places.fill, both, bind_eq_error_iff, Wrong]
  by_cases hm : f.1 = "matchMode"
  · have hb : f.1 ≠ "serializationBudget" := by rw [hm]; decide
    rw [hmode hm, fill_none_eq_error_iff, fill_of_ne hb]
    simp [hb, pure, Except.pure]
  · rw [fill_of_ne hm]
    by_cases hb : f.1 = "serializationBudget"
    · rw [hbudget hb]
      simp [fill_none_eq_error_iff, hm, pure, Except.pure]
    · rw [fill_of_ne hb]
      simp [hm, hb, pure, Except.pure]

/-- Behind fields with other names the place is still empty. -/
theorem Places.fill_eq_error_iff_of_foldlM {places : Places} (hf : f.1 ∉ fields.map Prod.fst)
    (hplaces : fields.foldlM fill empty = .ok places) : places.fill f = .error e ↔ Wrong f e := by
  rw [foldlM_eq_ok_iff, apart, both_eq_ok_iff] at hplaces
  refine fill_eq_error_iff (fun hm => ?_) fun hb => ?_
  · exact eq_none_of_foldlM_fill (hm ▸ hf) hplaces.1
  · exact eq_none_of_foldlM_fill (hb ▸ hf) hplaces.2

theorem not_wrong_of_foldlM {places : Places} (h : (fields.map Prod.fst).Nodup)
    (hplaces : fields.foldlM Places.fill Places.empty = .ok places) (hf : f ∈ fields) : ¬ Wrong f e := by
  rw [Places.foldlM_eq_ok_iff, Places.apart, Places.both_eq_ok_iff] at hplaces
  obtain ⟨name, v⟩ := f
  rintro (⟨rfl, hwrong⟩ | ⟨rfl, hwrong⟩)
  · exact ne_error_of_foldlM_fill h hplaces.1 hf hwrong
  · exact ne_error_of_foldlM_fill h hplaces.2 hf hwrong

theorem nodup_before {before after : List (String × Json)} (h : ((before ++ f :: after).map Prod.fst).Nodup) :
    (before.map Prod.fst).Nodup ∧ f.1 ∉ before.map Prod.fst := by
  rw [List.map_append, List.map_cons, List.nodup_append] at h
  exact ⟨h.1, fun hmem => h.2.2 _ hmem _ List.mem_cons_self rfl⟩

/-- The first value that is wrong is what is reported. -/
theorem ofFields_eq_error_iff (h : (fields.map Prod.fst).Nodup) : ofFields fields = .error e ↔
    ∃ before f after, fields = before ++ f :: after ∧ (∀ g ∈ before, ∀ d, ¬ Wrong g d) ∧ Wrong f e := by
  rw [ofFields, map_eq_error_iff, foldlM_eq_error_iff]
  refine ⟨?_, ?_⟩
  · rintro ⟨before, f, after, places, rfl, hplaces, hf⟩
    obtain ⟨hbefore, hfresh⟩ := nodup_before h
    exact ⟨before, f, after, rfl, fun g hg d => not_wrong_of_foldlM hbefore hplaces hg,
      (Places.fill_eq_error_iff_of_foldlM hfresh hplaces).1 hf⟩
  · rintro ⟨before, f, after, rfl, hright, hf⟩
    obtain ⟨hbefore, hfresh⟩ := nodup_before h
    cases hplaces : before.foldlM Places.fill Places.empty with
    | ok places =>
      exact ⟨before, f, after, places, rfl, hplaces, (Places.fill_eq_error_iff_of_foldlM hfresh hplaces).2 hf⟩
    | error d =>
      -- the fold over what stands in front would have gone wrong at a value that is not wrong
      obtain ⟨earlier, g, later, places, rfl, hearlier, hg⟩ := foldlM_eq_error_iff.1 hplaces
      have hwrong := (Places.fill_eq_error_iff_of_foldlM (nodup_before hbefore).2 hearlier).1 hg
      exact absurd hwrong (hright g (by simp) d)

end

end IniScan.Config
