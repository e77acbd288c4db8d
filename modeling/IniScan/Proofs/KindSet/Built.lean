import Mathlib.Data.List.Dedup
import Mathlib.Data.List.Sort
import IniScan.KindSet

/-!
# Sets from what a host has

A host has one flag for each index, as many flags as it likes, or a list of kinds in any order. Either way the set has the
kinds that are meant and keeps nothing else of what it was built from. The kinds of a set come out by index, each once,
and no other list of its members does, so it is enough to know the members.

* `singleton_subset_iff`: a kind is in a set if the set with this one bit is part of it.
* `eq_kinds`: the members of a set by index.
* `ofFlags_eq_iff`, `ofList_eq_iff`: what must agree for the sets to be the same.
* `built_sets`: both ways, and the way back.
-/
namespace IniScan.KindSet

/-! ## Bits -/

theorem singleton_subset_iff {s : KindSet} {k : Kind} : {k} ⊆ s ↔ k ∈ s := by
  rw [subset_iff]
  refine ⟨fun h => h k (mem_singleton.2 rfl), fun h j hj => ?_⟩
  rw [mem_singleton.1 hj]
  exact h

/-- A flag that is missing is false. -/
theorem mem_ofFlags_iff_getD {flags : List Bool} {k : Kind} : k ∈ ofFlags flags ↔ flags.getD k.index false = true := by
  rw [mem_ofFlags, List.getD_eq_getElem?_getD]
  cases flags[k.index]? <;> simp

theorem getLsbD_ofFlags (flags : List Bool) {i : Nat} (h : i < 16) :
    (ofFlags flags).bits.getLsbD i = flags.getD i false := by
  obtain ⟨k, rfl⟩ := Kind.exists_index h
  rw [Bool.eq_iff_iff, ← mem_iff, mem_ofFlags_iff_getD]

/-- Sets are told apart by the sixteen flags. -/
theorem ofFlags_eq_iff {flags others : List Bool} :
    ofFlags others = ofFlags flags ↔ ∀ i < 16, others.getD i false = flags.getD i false := by
  refine ⟨fun h i hi => ?_, fun h => ext fun k => ?_⟩
  · rw [← getLsbD_ofFlags others hi, h, getLsbD_ofFlags flags hi]
  · rw [mem_ofFlags_iff_getD, mem_ofFlags_iff_getD, h k.index k.index_lt]

/-! ## Kinds by index -/

theorem pairwise_kinds (s : KindSet) : s.kinds.Pairwise fun j k => j.index < k.index := by
  have hall : Kind.all.Pairwise fun j k => j.index < k.index := by decide
  exact hall.filter _

theorem nodup_of_pairwise {ks : List Kind} (h : ks.Pairwise fun j k => j.index < k.index) : ks.Nodup :=
  h.imp fun hlt heq => Nat.ne_of_lt hlt (congrArg Kind.index heq)

/-- There is one list of the members by index. -/
theorem eq_kinds {s : KindSet} {ks : List Kind} (horder : ks.Pairwise fun j k => j.index < k.index)
    (hmem : ∀ k, k ∈ ks ↔ k ∈ s) : ks = s.kinds := by
  have hperm : ks.Perm s.kinds := by
    rw [List.perm_ext_iff_of_nodup (nodup_of_pairwise horder) (nodup_of_pairwise s.pairwise_kinds)]
    intro k
    rw [hmem, mem_kinds]
  refine List.Perm.eq_of_pairwise (fun j k _ _ hjk hkj => ?_) horder s.pairwise_kinds hperm
  exact absurd hjk (Nat.lt_asymm hkj)

theorem ofList_eq_iff {ks ls : List Kind} : ofList ls = ofList ks ↔ ∀ k, k ∈ ls ↔ k ∈ ks := by
  refine ⟨fun h k => ?_, fun h => ext fun k => ?_⟩
  · rw [← mem_ofList, h, mem_ofList]
  · rw [mem_ofList, mem_ofList, h]

/-- The kinds of the list by index, each once. -/
def byIndex (ks : List Kind) : List Kind := ks.dedup.mergeSort fun j k => j.index ≤ k.index

theorem mem_byIndex {ks : List Kind} {k : Kind} : k ∈ byIndex ks ↔ k ∈ ks := by
  rw [byIndex, List.mem_mergeSort, List.mem_dedup]

theorem pairwise_byIndex (ks : List Kind) : (byIndex ks).Pairwise fun j k => j.index < k.index := by
  have hle : (byIndex ks).Pairwise fun j k => decide (j.index ≤ k.index) = true := by
    refine List.pairwise_mergeSort (fun i j k hij hjk => ?_) (fun j k => ?_) _
    · rw [decide_eq_true_eq] at hij hjk ⊢
      exact Nat.le_trans hij hjk
    · rw [Bool.or_eq_true, decide_eq_true_eq, decide_eq_true_eq]
      exact Nat.le_total _ _
  have hnodup : (byIndex ks).Nodup := (List.mergeSort_perm _ _).nodup_iff.2 ks.nodup_dedup
  refine (hle.and hnodup).imp fun {j k} h => ?_
  exact Nat.lt_of_le_of_ne (of_decide_eq_true h.1) fun heq => h.2 (Kind.index_inj.1 heq)

/-! ## Both ways -/

/-- The flags that a host passes for the set. -/
def flags (s : KindSet) : List Bool := Kind.all.map fun k => decide ({k} ⊆ s)

theorem getElem?_flags (s : KindSet) (k : Kind) : s.flags[k.index]? = some (decide (k ∈ s)) := by
  have hk : Kind.all[k.index]? = some k := Kind.ofIndex?_index k
  rw [flags, List.getElem?_map, hk, Option.map_some, decide_eq_decide.2 singleton_subset_iff]

theorem ofFlags_flags (s : KindSet) : ofFlags s.flags = s := by
  refine ext fun k => ?_
  rw [mem_ofFlags, getElem?_flags, Option.some.injEq, decide_eq_true_eq]

/-- What is known of the set that the flags give. -/
structure Flagged (flags : List Bool) : Prop where
  /-- The flag of the kind is there, and it is true. -/
  mem_kinds_iff : ∀ k, k ∈ (ofFlags flags).kinds ↔ ∃ h : k.index < flags.length, flags[k.index] = true
  in_order : (ofFlags flags).kinds.Pairwise fun j k => j.index < k.index
  bits : ∀ i < 16, (ofFlags flags).bits.getLsbD i = flags.getD i false
  eq_iff : ∀ others, ofFlags others = ofFlags flags ↔ ∀ i < 16, others.getD i false = flags.getD i false
  /-- Flags behind the last index count for nothing. -/
  cut : ofFlags (flags.take 16) = ofFlags flags
  /-- False flags at the end need not be there. -/
  padded : ∀ n, ofFlags (flags ++ List.replicate n false) = ofFlags flags

theorem flagged (flags : List Bool) : Flagged flags := by
  refine ⟨fun k => ?_, pairwise_kinds _, fun i => getLsbD_ofFlags flags, fun others => ofFlags_eq_iff, ?_, fun n => ?_⟩
  · rw [mem_kinds, mem_ofFlags, List.getElem?_eq_some_iff]
  · refine ofFlags_eq_iff.2 fun i hi => ?_
    rw [List.getD_eq_getElem?_getD, List.getD_eq_getElem?_getD, List.getElem?_take_of_lt hi]
  · refine ofFlags_eq_iff.2 fun i _ => ?_
    rw [List.getD_eq_getElem?_getD, List.getD_eq_getElem?_getD]
    rcases Nat.lt_or_ge i flags.length with hi | hi
    · rw [List.getElem?_append_left hi]
    · rw [List.getElem?_append_right hi, List.getElem?_eq_none hi, List.getElem?_replicate]
      split <;> rfl

/-- What is known of the set that the list of kinds gives. -/
structure Collected (ks : List Kind) : Prop where
  mem_iff : ∀ k, k ∈ ofList ks ↔ k ∈ ks
  eq_iff : ∀ ls, ofList ls = ofList ks ↔ ∀ k, k ∈ ls ↔ k ∈ ks
  perm : ∀ ls, ls.Perm ks → ofList ls = ofList ks
  /-- It does not count how often a kind is there. -/
  dedup : ofList ks.dedup = ofList ks
  append : ∀ ls, ofList (ks ++ ls) = ofList ks ∪ ofList ls
  kinds_eq : (ofList ks).kinds = byIndex ks

theorem collected (ks : List Kind) : Collected ks := by
  refine ⟨fun k => mem_ofList, fun ls => ofList_eq_iff, fun ls hperm => ?_, ?_, fun ls => ?_, ?_⟩
  · exact ofList_eq_iff.2 fun k => hperm.mem_iff
  · exact ofList_eq_iff.2 fun k => List.mem_dedup
  · refine ext fun k => ?_
    rw [mem_union, mem_ofList, mem_ofList, mem_ofList, List.mem_append]
  · refine (eq_kinds (pairwise_byIndex ks) fun k => ?_).symm
    rw [mem_byIndex, mem_ofList]

/-- What is known of a set as it is handed out. -/
structure HandedOut (s : KindSet) : Prop where
  /-- The kinds whose bit is part of the set. -/
  kinds_eq : s.kinds = Kind.all.filter fun k => {k} ⊆ s
  ofFlags_flags : ofFlags s.flags = s
  ofList_kinds : ofList s.kinds = s

/-- **A set has the kinds that it is built from.** Whatever flags and whatever kinds a host has, and for every set that it
hands on. -/
theorem built_sets (flags : List Bool) (ks : List Kind) (s : KindSet) : Flagged flags ∧ Collected ks ∧ HandedOut s := by
  refine ⟨flagged flags, collected ks, ?_, ofFlags_flags s, ext fun k => ?_⟩
  · simp only [singleton_subset_iff]
    rfl
  · rw [mem_ofList, mem_kinds]

example : (ofList [.lineBoundary, .keySuffix, .lineBoundary]).kinds = [.keySuffix, .lineBoundary] ∧
    ofFlags (List.replicate 20 true) = all := by decide

end IniScan.KindSet
