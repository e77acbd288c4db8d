import IniScan.Host
import IniScan.Proofs.Family.Choice

/-!
# Only what is offered is found

The readers of the families come to their outcomes without regard to what is offered, and the kinds of a path are not even
looked up behind their reading. That a kind is offered is therefore due to each family in its own way: to the choice
of the family (boundaries), to the order in which the parts of a path are asked for, or to a look-up of the outcome.

* `Family.mem_offered_of_read`: a family that is chosen finds only what is offered.
* `Family.exists_front`: no family in front of the chosen one is offered.
* `found_kind_admitted`: what a scan or a call for a token may answer.
-/
namespace IniScan

/-- A set that meets a list has a first kind of it. -/
theorem KindSet.exists_find? {s : KindSet} {ks : List Kind} (h : s.meets (ofList ks) = true) :
    ∃ k, ks.find? (· ∈ s) = some k := by
  obtain ⟨k, hk, hks⟩ := meets_iff.1 h
  exact Option.isSome_iff_exists.1 (List.find?_isSome.2 ⟨k, mem_ofList.1 hks, by simpa using hk⟩)

/-- The kind may be the answer when these kinds are offered. -/
structure KindSet.Admits (offered : KindSet) (k : Kind) : Prop where
  mem : k ∈ offered
  ne : k ≠ .errorSentinel
  not_recovering : Kind.errorSentinel ∉ offered
  /-- The kind is of the first family, in their order, that is offered. -/
  first : ∃ before f after, Family.all = before ++ f :: after ∧ k ∈ f.kinds ∧ offered.meets f.kinds = true ∧
    ∀ g ∈ before, offered.meets g.kinds = false

namespace Family

theorem exists_front {offered : KindSet} {f : Family} (h : of? offered = some f) : ∃ before after,
    all = before ++ f :: after ∧ offered.meets f.kinds = true ∧ ∀ g ∈ before, offered.meets g.kinds = false := by
  obtain ⟨hmeets, before, after, hall, hbefore⟩ := List.find?_eq_some_iff_append.1 h
  refine ⟨before, after, hall, hmeets, ?_⟩
  intro g hg
  simpa using hbefore g hg

theorem meets_of_of? {offered : KindSet} {f : Family} (h : of? offered = some f) : offered.meets f.kinds = true := by
  obtain ⟨-, -, -, hmeets, -⟩ := exists_front h
  exact hmeets

/-- If neither of the other parts of a path is offered, its end is. -/
theorem namespaceEnd_mem {offered : KindSet} (h : offered.meets KindSet.path = true)
    (hstart : Kind.namespaceStart ∉ offered) (hcontent : Kind.namespaceContent ∉ offered) :
    Kind.namespaceEnd ∈ offered := by
  obtain ⟨k, hk, hpath⟩ := KindSet.meets_iff.1 h
  simp only [KindSet.path, KindSet.mem_ofList, List.mem_cons, List.not_mem_nil, or_false] at hpath
  rcases hpath with rfl | rfl | rfl
  · exact absurd hk hstart
  · exact absurd hk hcontent
  · exact hk

theorem path_mem_offered {offered : KindSet} {unread : List Char} {k : Kind} (h : offered.meets KindSet.path = true)
    (hread : (Path.read offered unread).outcome = some k) : k ∈ offered := by
  cases Path.found_of_read hread with
  | start hmem => exact hmem
  | content hmem => exact hmem
  | close hstart hcontent => exact namespaceEnd_mem h hstart hcontent

theorem subject_mem_offered {offered : KindSet} {text : Bool} {k : Kind}
    (h : Header.Subject.kind? offered text = some k) : k ∈ offered := by
  unfold Header.Subject.kind? at h
  split at h
  · simpa using List.find?_some h
  · split at h
    · rename_i hinclude
      cases h
      exact hinclude
    · cases h

theorem mem_offered_of_read {f : Family} {mode : MatchMode} {offered : KindSet} {unread : List Char} {k : Kind}
    (hf : of? offered = some f) (h : (f.read mode offered unread).outcome = some k) : k ∈ offered := by
  cases f with
  | boundary =>
    simp only [read, Reading.outcome_map] at h
    split at h <;> cases h
    exact meets_singleton.1 (meets_of_of? hf)
  | path => exact path_mem_offered (meets_of_of? hf) h
  | subject => exact subject_mem_offered h
  | regexName => exact (KindSet.find?_eq_some_iff.1 h).2
  | line => exact (KindSet.find?_eq_some_iff.1 h).2

theorem ne_errorSentinel_of_mem_kinds {f : Family} {k : Kind} (h : k ∈ f.kinds) : k ≠ .errorSentinel := by
  rintro rfl
  cases f <;> revert h <;> decide

end Family

theorem Scanner.admits_of_read {s : Scanner} {offered : KindSet} {unread : List Char} {k : Kind}
    (h : (s.read offered unread).outcome = some k) : offered.Admits k := by
  obtain ⟨f, hs, hf, hread⟩ := exists_family_of_read h
  rw [hread] at h
  have hk := Family.mem_kinds_of_read h
  obtain ⟨before, after, hall, hmeets, hbefore⟩ := Family.exists_front hf
  exact ⟨Family.mem_offered_of_read hf h, Family.ne_errorSentinel_of_mem_kinds hk, hs,
    before, f, after, hall, hk, hmeets, hbefore⟩

namespace Host

/-- **Only what is offered is found.** Whatever the word of the scanner holds, wherever the cursor stands and whatever
it notes, a scan and a call for a token answer with a kind of the first family that is offered, and only with one that
is itself offered; during recovery they answer with nothing. So a scan that ends by checking that its kind is offered
always passes the check. -/
theorem found_kind_admitted (h : Host) (offered : KindSet) :
    (∀ k, (h.scan offered).1 = some k → offered.Admits k) ∧
    (∀ t, (h.nextToken offered).1 = some t → offered.Admits t.kind) ∧
    (h.scan offered).1.all (fun k => decide (k ∈ offered)) = true := by
  have hscan : ∀ k, (h.scan offered).1 = some k → offered.Admits k := by
    intro k hk
    rw [scan_eq] at hk
    exact Scanner.admits_of_read hk
  refine ⟨hscan, ?_, ?_⟩
  · intro t ht
    have hk := h.kind_nextToken offered
    rw [ht, Option.map_some] at hk
    exact Scanner.admits_of_read hk.symm
  · cases hk : (h.scan offered).1 with
    | none => rfl
    | some k => exact decide_eq_true (hscan k hk).mem

/-- The end of a path and the header of a key are offered together with a line. The word is full of letters, and the cursor
notes a token that is over. -/
theorem found_kind_admitted_path :
    let h : Host := ⟨⟨default, Word.ofText "pattern".toList⟩, ⟨[], "\\Key]".toList, 0, 7, some 99, rfl⟩⟩
    let offered := KindSet.ofList [.namespaceEnd, .keySuffix, .externalLine]
    (h.nextToken offered).1 = some ⟨.namespaceEnd, 0, 1⟩ ∧ offered.Admits .namespaceEnd := by
  intro h offered
  have htoken : (h.nextToken offered).1 = some ⟨.namespaceEnd, 0, 1⟩ := by decide
  exact ⟨htoken, (found_kind_admitted h offered).2.1 _ htoken⟩

end Host

end IniScan
