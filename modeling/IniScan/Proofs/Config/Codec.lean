import IniScan.Proofs.Config.FieldOrder

/-!
# Configurations as values

A configuration is written as an object and read back as it was. What can be read is an object or a short list in which
neither value is wrong: the mode is spelled in ASCII letters of any case, and the budget is a whole number of 64 bits. What is
missing is the default, whether the other one is missing or not. A text that spells no mode is reported as it stands; field
by field that is, unless what stands in front of it for the budget is none.

* `reads`, `readsFields`: any value, and objects.
* `codec_exact`: writing and reading.
-/
namespace IniScan.Config

open Text MatchMode

/-! ## Any value -/

/-- What reading the value comes to. -/
structure Reads (j : Json) : Prop where
  ok_iff : (∃ c, ofJson j = .ok c) ↔ Shaped j ∧
    (∀ v, GivesMode j v → ∃ s m, v = .string s ∧ Spells s m) ∧
    (∀ v, GivesBudget j v → ∃ n, v = .natural n ∧ n < UInt64.size)
  /-- Each of the two is what is given for it, or else the default. -/
  eq_ok_iff : ∀ c, ofJson j = .ok c ↔ Shaped j ∧
    ((∀ v, GivesMode j v → ∃ s, v = .string s ∧ Spells s c.mode) ∧ ((∀ v, ¬ GivesMode j v) → c.mode = .exact)) ∧
    ((∀ v, GivesBudget j v → v = .natural c.budget.toNat) ∧ ((∀ v, ¬ GivesBudget j v) → c.budget = 1024))
  /-- Only ASCII letters have a case here. -/
  isAlpha : ∀ {c s}, ofJson j = .ok c → GivesMode j (.string s) → ∀ d ∈ s.toList, d.isAlpha = true
  /-- What is reported is the text that was given, and nothing else is reported so. -/
  unknownMode_iff : ∀ s, ofJson j = .error (.unknownMode s) ↔ GivesMode j (.string s) ∧ ∀ m, ¬ Spells s m

theorem reads {j : Json} (h : j.Distinct) : Reads j := by
  have hresult : ∀ c, ofJson j = .ok c ↔ Shaped j ∧
      ((∀ v, GivesMode j v → ∃ s, v = .string s ∧ Spells s c.mode) ∧ ((∀ v, ¬ GivesMode j v) → c.mode = .exact)) ∧
      ((∀ v, GivesBudget j v → v = .natural c.budget.toNat) ∧ ((∀ v, ¬ GivesBudget j v) → c.budget = 1024)) := fun c => by
    simp only [ofJson_eq_ok_iff, modeOfJson_eq_ok_iff, budgetOfJson_eq_ok_iff, Ne, mode?_eq_some_iff h,
      budget?_eq_some_iff h]
  refine ⟨?_, hresult, fun {c s} hc hs => ?_, fun s => ?_⟩
  · simp only [← mode?_eq_some_iff h, ← budget?_eq_some_iff h, ← exists_mode_iff, ← exists_budget_iff, ofJson_eq_ok_iff]
    refine ⟨fun ⟨c, hshape, hm, hn⟩ => ⟨hshape, ⟨c.mode, hm⟩, c.budget, hn⟩, ?_⟩
    rintro ⟨hshape, ⟨m, hm⟩, n, hn⟩
    exact ⟨⟨m, n⟩, hshape, hm, hn⟩
  · obtain ⟨t, ht, hspells⟩ := ((hresult c).1 hc).2.1.1 _ hs
    cases ht
    exact fun d hd => isAlpha_of_spells hspells hd
  · rw [ofJson_eq_unknownMode_iff, modeOfJson_unknownMode_iff, mode?_eq_some_iff h]

/-! ## Objects -/

/-- What reading an object with these fields comes to. -/
structure ReadsFields (fields : List (String × Json)) : Prop where
  /-- Fields with other names count for nothing, and neither does the order, one after another or not. -/
  congr : ∀ others : List (String × Json), (others.map Prod.fst).Nodup →
    (∀ v, ("matchMode", v) ∈ others ↔ ("matchMode", v) ∈ fields) →
    (∀ v, ("serializationBudget", v) ∈ others ↔ ("serializationBudget", v) ∈ fields) →
    ofJson (.object others) = ofJson (.object fields) ∧ ∀ c, ofFields others = .ok c ↔ ofJson (.object fields) = .ok c
  perm : ∀ order : List (String × Json), order.Perm fields →
    ofJson (.object order) = ofJson (.object fields) ∧ ∀ c, ofFields order = .ok c ↔ ofJson (.object fields) = .ok c
  /-- One after another they come to the same report too, unless the mode stands behind the budget. -/
  mode_first : (fields.Pairwise fun f g => f.1 = "serializationBudget" → g.1 ≠ "matchMode") →
    ofFields fields = ofJson (.object fields)
  by_name : ofFields (byName fields) = ofJson (.object fields)
  /-- In any order, what is wrong first is what is reported. -/
  error_iff : ∀ e, ofFields fields = .error e ↔
    ∃ before f after, fields = before ++ f :: after ∧ (∀ g ∈ before, ∀ d, ¬ Wrong g d) ∧ Wrong f e
  /-- A text that spells no mode is reported as it stands behind a budget too, as long as that is one. -/
  unknownMode_iff : ∀ s, ofFields fields = .error (.unknownMode s) ↔ (∀ m, ¬ Spells s m) ∧
    ∃ before after, fields = before ++ ("matchMode", .string s) :: after ∧
      ∀ v, ("serializationBudget", v) ∈ before → ∃ n, v = .natural n ∧ n < UInt64.size
  /-- What is no budget is reported in its place, whatever the mode behind it. -/
  budget_first : ∀ before v after, fields = before ++ ("serializationBudget", v) :: after →
    (¬ ∃ n, v = .natural n ∧ n < UInt64.size) →
    (∀ w, ("matchMode", w) ∈ before → ∃ s m, w = .string s ∧ Spells s m) → ofFields fields = .error .malformed

/-- No mode can stand in front of the mode. -/
theorem ofFields_eq_unknownMode_iff {fields : List (String × Json)} (h : (fields.map Prod.fst).Nodup) {s : String} :
    ofFields fields = .error (.unknownMode s) ↔ (∀ m, ¬ Spells s m) ∧
      ∃ before after, fields = before ++ ("matchMode", .string s) :: after ∧
        ∀ v, ("serializationBudget", v) ∈ before → ∃ n, v = .natural n ∧ n < UInt64.size := by
  simp only [ofFields_eq_error_iff h, wrong_unknownMode_iff, forall_not_wrong_iff]
  refine ⟨?_, ?_⟩
  · rintro ⟨before, f, after, hfields, hright, rfl, hs⟩
    exact ⟨hs, before, after, hfields, hright.2⟩
  · rintro ⟨hs, before, after, rfl, hbudget⟩
    refine ⟨before, _, after, rfl, ⟨fun v hv => ?_, hbudget⟩, rfl, hs⟩
    exact absurd (List.mem_map_of_mem hv) (nodup_before h).2

theorem ofFields_of_budget_first {before after : List (String × Json)} {v : Json}
    (h : ((before ++ ("serializationBudget", v) :: after).map Prod.fst).Nodup)
    (hv : ¬ ∃ n, v = .natural n ∧ n < UInt64.size)
    (hmode : ∀ w, ("matchMode", w) ∈ before → ∃ s m, w = .string s ∧ Spells s m) :
    ofFields (before ++ ("serializationBudget", v) :: after) = .error .malformed := by
  have hright : ∀ g ∈ before, ∀ d, ¬ Wrong g d :=
    forall_not_wrong_iff.2 ⟨hmode, fun w hw => absurd (List.mem_map_of_mem hw) (nodup_before h).2⟩
  have hwrong : Wrong ("serializationBudget", v) .malformed := .inr ⟨rfl, budgetOfJson_eq_malformed_iff.2 hv⟩
  exact (ofFields_eq_error_iff h).2 ⟨before, _, after, rfl, hright, hwrong⟩

theorem readsFields {fields : List (String × Json)} (h : (fields.map Prod.fst).Nodup) : ReadsFields fields := by
  have hsame : ∀ others : List (String × Json), (others.map Prod.fst).Nodup →
      ofJson (.object others) = ofJson (.object fields) →
      ofJson (.object others) = ofJson (.object fields) ∧ ∀ c, ofFields others = .ok c ↔ ofJson (.object fields) = .ok c :=
    fun others hothers heq => ⟨heq, fun c => by rw [ofFields_eq_ok_iff hothers, heq]⟩
  refine ⟨fun others hothers hmode hbudget => ?_, fun order hperm => ?_, ofFields_of_mode_first h, ofFields_byName h,
    fun e => ofFields_eq_error_iff h, fun s => ofFields_eq_unknownMode_iff h, ?_⟩
  · exact hsame others hothers (ofJson_object_congr h hothers hmode hbudget)
  · exact hsame order ((hperm.map Prod.fst).nodup_iff.2 h) (ofJson_object_perm h hperm)
  · rintro before v after rfl hv hmode
    exact ofFields_of_budget_first h hv hmode

/-- Behind a budget the mode is reported, unless the budget is wrong. -/
example : ofFields [("serializationBudget", .natural 0), ("matchMode", .string "both")] = .error (.unknownMode "both") ∧
    ofFields [("serializationBudget", .null), ("matchMode", .string "both")] = .error .malformed := ⟨rfl, rfl⟩

/-! ## Writing and reading -/

/-- What is written is read back, as a whole and one field after another. -/
theorem reads_toJson (c : Config) :
    ofJson c.toJson = .ok c ∧ ∃ fields, c.toJson = .object fields ∧ ofFields fields = .ok c := by
  refine ⟨ofJson_toJson c, _, rfl, (ofFields_eq_ok_iff ?_).2 (ofJson_toJson c)⟩
  have hnames : (["matchMode", "serializationBudget"] : List String).Nodup := by decide
  exact hnames

/-- **The codec is exact.** Every configuration is read back, and it is said of every value in which no name stands twice
whether it is read and as what. -/
theorem codec_exact (c : Config) {j : Json} (h : j.Distinct) :
    (ofJson c.toJson = .ok c ∧ ∃ fields, c.toJson = .object fields ∧ ofFields fields = .ok c) ∧
    Reads j ∧ ∀ fields, j = .object fields → ReadsFields fields := by
  refine ⟨reads_toJson c, reads h, ?_⟩
  rintro fields rfl
  exact readsFields h

/-- The largest budget in front of the mode, with a field between them that has no meaning. -/
theorem codec_exact_reversed :
    let fields := [("serializationBudget", Json.natural 18446744073709551615), ("match_mode", .null),
      ("matchMode", .string "SubString")]
    (Json.object fields).Distinct ∧ ofFields fields = .ok ⟨.substring, 18446744073709551615⟩ := by
  intro fields
  have hdistinct : (Json.object fields).Distinct := by
    show (fields.map Prod.fst).Nodup
    decide
  have hfields := (codec_exact default hdistinct).2.2 fields rfl
  exact ⟨hdistinct, ((hfields.perm fields (List.Perm.refl _)).2 _).2 rfl⟩

/-- The long s is no letter of `substring`, though capitals are. -/
example : ofJson (.array [.string "ſubstring", .null, .null]) = .error (.unknownMode "ſubstring") ∧
    ofJson (.array [.string "SUBSTRING"]) = .ok ⟨.substring, 1024⟩ := ⟨rfl, rfl⟩

end IniScan.Config
