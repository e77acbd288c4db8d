import IniScan.Kind

/-!
# Sets of kinds

What a grammar accepts at a place is a set of kinds, held in sixteen bits. Everything about a set is said
through membership: `ext` makes it the only thing that counts, and there is one lemma for each operation.

* `mem_ofList`, `mem_ofFlags`: what the two ways to build a set put into it.
* `mem_kinds`: the kinds of a set, listed by index, are its members.
-/
namespace IniScan

/-- A set of kinds. Bit `i` is the kind with index `i`. -/
structure KindSet where
  bits : BitVec 16
  deriving DecidableEq

namespace KindSet

instance : Membership Kind KindSet := ⟨fun s k => s.bits.getLsbD k.index = true⟩

instance (k : Kind) (s : KindSet) : Decidable (k ∈ s) :=
  inferInstanceAs (Decidable (s.bits.getLsbD k.index = true))

theorem mem_iff {s : KindSet} {k : Kind} : k ∈ s ↔ s.bits.getLsbD k.index = true := Iff.rfl

theorem ext {s t : KindSet} (h : ∀ k, k ∈ s ↔ k ∈ t) : s = t := by
  obtain ⟨a⟩ := s
  obtain ⟨b⟩ := t
  refine congrArg KindSet.mk (BitVec.eq_of_getLsbD_eq fun i hi => ?_)
  obtain ⟨k, hk⟩ := Kind.exists_index hi
  have := h k
  rw [mem_iff, mem_iff, hk] at this
  exact Bool.eq_iff_iff.2 this

/-! ## Operations -/

instance : EmptyCollection KindSet := ⟨⟨0⟩⟩

instance : Singleton Kind KindSet := ⟨fun k => ⟨1 <<< k.index⟩⟩

instance : Union KindSet := ⟨fun s t => ⟨s.bits ||| t.bits⟩⟩

instance : Inter KindSet := ⟨fun s t => ⟨s.bits &&& t.bits⟩⟩

instance : SDiff KindSet := ⟨fun s t => ⟨s.bits &&& ~~~t.bits⟩⟩

/-- The kinds in exactly one of the two sets. -/
def symmDiff (s t : KindSet) : KindSet := ⟨s.bits ^^^ t.bits⟩

/-- The kinds that are not in the set. -/
def compl (s : KindSet) : KindSet := ⟨~~~s.bits⟩

/-- The two sets have a kind in common. -/
def meets (s t : KindSet) : Bool := s ∩ t ≠ ∅

instance : HasSubset KindSet := ⟨fun s t => s ∩ t = s⟩

instance (s t : KindSet) : Decidable (s ⊆ t) := inferInstanceAs (Decidable (s ∩ t = s))

@[simp] theorem not_mem_empty (k : Kind) : k ∉ (∅ : KindSet) := by cases k <;> decide

@[simp] theorem mem_singleton {j k : Kind} : j ∈ ({k} : KindSet) ↔ j = k := by
  cases j <;> cases k <;> decide

@[simp] theorem mem_union {s t : KindSet} {k : Kind} : k ∈ s ∪ t ↔ k ∈ s ∨ k ∈ t := by
  simp only [mem_iff, show (s ∪ t).bits = s.bits ||| t.bits from rfl, BitVec.getLsbD_or, Bool.or_eq_true]

@[simp] theorem mem_inter {s t : KindSet} {k : Kind} : k ∈ s ∩ t ↔ k ∈ s ∧ k ∈ t := by
  simp only [mem_iff, show (s ∩ t).bits = s.bits &&& t.bits from rfl, BitVec.getLsbD_and, Bool.and_eq_true]

@[simp] theorem mem_compl {s : KindSet} {k : Kind} : k ∈ s.compl ↔ k ∉ s := by
  simp [mem_iff, compl, k.index_lt]

@[simp] theorem mem_sdiff {s t : KindSet} {k : Kind} : k ∈ s \ t ↔ k ∈ s ∧ k ∉ t := by
  rw [← mem_compl, ← mem_inter]; rfl

theorem meets_iff {s t : KindSet} : s.meets t = true ↔ ∃ k, k ∈ s ∧ k ∈ t := by
  simp only [meets, decide_eq_true_eq]
  refine ⟨fun h => Classical.byContradiction fun hn => h (ext fun k => ?_), ?_⟩
  · simp only [mem_inter, not_mem_empty, iff_false]
    exact fun hk => hn ⟨k, hk⟩
  · rintro ⟨k, hk⟩ he
    exact not_mem_empty k (he ▸ mem_inter.2 hk)

theorem subset_iff {s t : KindSet} : s ⊆ t ↔ ∀ k ∈ s, k ∈ t := by
  refine ⟨fun h k hk => ?_, fun h => ext fun k => ?_⟩
  · rw [← (show s ∩ t = s from h)] at hk; exact (mem_inter.1 hk).2
  · exact ⟨fun hk => (mem_inter.1 hk).1, fun hk => mem_inter.2 ⟨hk, h k hk⟩⟩

/-! ## From lists, and back -/

/-- The kinds of a list, in any order and however often. -/
def ofList (ks : List Kind) : KindSet := ks.foldl (fun s k => s ∪ {k}) ∅

theorem mem_foldl_insert {ks : List Kind} {s : KindSet} {k : Kind} :
    k ∈ ks.foldl (fun s k => s ∪ {k}) s ↔ k ∈ s ∨ k ∈ ks := by
  induction ks generalizing s with
  | nil => simp
  | cons j js ih => simp [ih, or_assoc]

@[simp] theorem mem_ofList {ks : List Kind} {k : Kind} : k ∈ ofList ks ↔ k ∈ ks := by
  simp [ofList, mem_foldl_insert]

/-- The set that a host passes as one flag for each index. Flags past the last kind count for nothing, and
a flag that is missing is false. -/
def ofFlags (flags : List Bool) : KindSet :=
  ofList (flags.zipIdx.filterMap fun p => if p.1 then Kind.ofIndex? p.2 else none)

theorem mem_ofFlags {flags : List Bool} {k : Kind} : k ∈ ofFlags flags ↔ flags[k.index]? = some true := by
  simp only [ofFlags, mem_ofList, List.mem_filterMap, Prod.exists, List.mem_zipIdx_iff_getElem?]
  constructor
  · rintro ⟨b, i, hi, h⟩
    split at h
    · rename_i hb
      rw [Kind.ofIndex?_eq_some_iff] at h
      rw [h, hi]
      exact congrArg some hb
    · cases h
  · exact fun h => ⟨true, k.index, h, by simp [Kind.ofIndex?_index]⟩

/-- The kinds of the set by index. -/
def kinds (s : KindSet) : List Kind := Kind.all.filter (· ∈ s)

@[simp] theorem mem_kinds {s : KindSet} {k : Kind} : k ∈ s.kinds ↔ k ∈ s := by
  simp [kinds, Kind.mem_all]

/-- The kind, if the set has it. -/
def find? (s : KindSet) (k : Kind) : Option Kind := if k ∈ s then some k else none

theorem find?_eq_some_iff {s : KindSet} {j k : Kind} : s.find? j = some k ↔ j = k ∧ k ∈ s := by
  unfold find?
  split
  · rename_i h
    simp only [Option.some.injEq]
    exact ⟨fun e => ⟨e, e ▸ h⟩, And.left⟩
  · rename_i h
    simp only [reduceCtorEq, false_iff, not_and]
    exact fun e => e ▸ h

/-- The names of the kinds between braces. -/
def describe (s : KindSet) : String := "\x7b" ++ ", ".intercalate (s.kinds.map Kind.name) ++ "\x7d"

/-! ## Named sets -/

def all : KindSet := ofList Kind.all

/-- Kinds of a line of content and of the header that ends it. -/
def line : KindSet := ofList [.externalLine, .headerStart]

/-- Kinds of the subject of a header. -/
def suffixed : KindSet := ofList Kind.suffixed

/-- Kinds of the name of a regex header. -/
def regex : KindSet :=
  ofList [.regexCommandList, .regexInsertDeclarations, .regexPattern, .regexPatternReplace]

/-- Kinds of the parts of a namespace path. -/
def path : KindSet := ofList [.namespaceStart, .namespaceContent, .namespaceEnd]

/-- Every set that has a name, in capitals: one for each kind, and four groups of kinds. -/
def named : List (String × KindSet) :=
  Kind.all.map (fun k => (String.ofList (k.name.toList.map Char.toUpper), {k})) ++
    [("LINE", line), ("SUFFIXED", suffixed), ("REGEX", regex), ("NAMESPACE", path)]

def ofName? (name : String) : Option KindSet := named.lookup name

end KindSet

end IniScan
