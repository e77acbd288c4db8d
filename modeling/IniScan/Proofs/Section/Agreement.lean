import IniScan.Section.Spelled
import IniScan.Proofs.Section.Modes
import IniScan.Proofs.Section.Vocabulary
import IniScan.Proofs.Word.Compare

/-!
# The classifier agrees with itself

A text is classified in several ways: as a whole, by the word that is left of it when it is pushed, by names spelled out, in
the table of kinds that may follow a name. These ways agree for every text. No section name begins another one, so of the
names at the start of a text there is at most one to choose; names are shorter than what a word surely keeps, so it does not
matter that a word drops what does not fit; and case never matters.

* `letters_isPrefix_ofText`: a text and its word begin with the same names.
* `ofWord?_exact_eq_some_iff`: the name at the start of a word.
* `ofWordPairwise?_eq`, `headerSuffixKinds_eq`: names spelled out.
* `classifiers_agree`: every text.
-/
namespace IniScan.Section

open Text

/-! ## Names spelled out -/

theorem opens_eq_pairwise (k : Section) (w : Word) : k.opens w = k.opensPairwise w := by
  rw [Bool.eq_iff_iff, opens_iff, opensPairwise, Bool.and_eq_true, decide_eq_true_eq, List.all_eq_true, ← lower_letters k,
    Word.lower, isPrefix_lower_iff_zip, lower_letters]
  simp only [beq_iff_eq]
  rfl

theorem kindsSpelled_name (k : Section) : kindsSpelled k.name = k.suffixKinds := by cases k <;> rfl

theorem kindsSpelled_of_ne {name : String} (h : ∀ k : Section, k.name ≠ name) : kindsSpelled name = ∅ := by
  unfold kindsSpelled
  split
  · exact absurd rfl (h .key)
  · exact absurd rfl (h .preset)
  · exact absurd rfl (h .resource)
  · exact absurd rfl (h .includeFile)
  · exact absurd rfl (h .shaderRegex)
  · exact absurd rfl (h .builtinCommandList)
  · exact absurd rfl (h .builtinCustomShader)
  · exact absurd rfl (h .commandList)
  · exact absurd rfl (h .customShader)
  · exact absurd rfl (h .shaderOverride)
  · exact absurd rfl (h .textureOverride)
  · rfl

theorem ofName?_congr {s t : List Char} (h : lower s = lower t) : ofName? s = ofName? t := by rw [ofName?, ofName?, h]

theorem ofName?_eq_some_iff {s : List Char} {k : Section} : ofName? s = some k ↔ k.letters = lower s := by
  refine ⟨fun h => ?_, fun h => ?_⟩
  · have hfound := List.find?_some h
    exact of_decide_eq_true hfound
  · rw [ofName?_congr (t := k.letters) (by rw [← h, lower_letters]), ofName?_letters]

theorem headerSuffixKinds_congr {s t : List Char} (h : lower s = lower t) :
    headerSuffixKinds s = headerSuffixKinds t := by
  rw [headerSuffixKinds, headerSuffixKinds, ofName?_congr h]

theorem headerSuffixKinds_eq (s : List Char) : headerSuffixKinds s = kindsSpelled (String.ofList (lower s)) := by
  cases hname : ofName? s with
  | some k =>
    have hletters := ofName?_eq_some_iff.1 hname
    rw [headerSuffixKinds, hname, ← hletters, letters, String.ofList_toList, kindsSpelled_name]
    rfl
  | none =>
    have hne : ∀ k : Section, k.name ≠ String.ofList (lower s) := fun k hk => by
      have hletters : k.letters = lower s := by rw [letters, hk, String.toList_ofList]
      rw [ofName?_eq_some_iff.2 hletters] at hname
      cases hname
    rw [headerSuffixKinds, hname, kindsSpelled_of_ne hne]
    rfl

/-! ## The name at the start -/

theorem letters_isPrefix_ofText {k : Section} {s : List Char} :
    k.letters <+: (Word.ofText s).lower ↔ k.letters <+: lower s := by
  have htake : (Word.ofText s).chars.take 29 = s.take 29 := Word.take_ofText (by decide) s
  have hiff : ∀ t : List Char, k.letters <+: lower t ↔ k.letters <+: lower (t.take 29) := fun t => by
    rw [lower, lower, List.map_take, List.prefix_take_iff, and_iff_left (length_letters_le k)]
  rw [Word.lower, hiff, htake, ← hiff]

/-- Of a list with at most one member the largest by any measure is this one. -/
theorem maxOn?_eq_some_iff {xs : List Section} (hone : ∀ j ∈ xs, ∀ k ∈ xs, j = k) (f : Section → Nat) {k : Section} :
    xs.maxOn? f = some k ↔ k ∈ xs := by
  refine ⟨List.maxOn?_mem, fun hk => ?_⟩
  obtain ⟨j, hj⟩ := Option.isSome_iff_exists.1 (List.isSome_maxOn?_iff (f := f).2 (List.ne_nil_of_mem hk))
  rw [hj, hone j (List.maxOn?_mem hj) k hk]

theorem mem_filter_opens {k : Section} {w : Word} : k ∈ all.filter (·.opens w) ↔ k.letters <+: w.lower := by
  rw [List.mem_filter, and_iff_right (mem_all k), opens_iff]

theorem ofWord?_exact_eq_some_iff {k : Section} {w : Word} : ofWord? .exact w = some k ↔ k.letters <+: w.lower := by
  rw [ofWord?, maxOn?_eq_some_iff, mem_filter_opens]
  exact fun i hi j hj => eq_of_prefixes (mem_filter_opens.1 hi) (mem_filter_opens.1 hj)

theorem ofWordPairwise?_eq (w : Word) : ofWordPairwise? w = ofWord? .exact w := by
  refine Option.ext fun k => ?_
  have hfilter : all.filter (·.opensPairwise w) = all.filter (·.opens w) := by simp only [opens_eq_pairwise]
  have hone : ∀ i ∈ (all.filter (·.opens w)).reverse, ∀ j ∈ (all.filter (·.opens w)).reverse, i = j := by
    intro i hi j hj
    exact eq_of_prefixes (mem_filter_opens.1 (List.mem_reverse.1 hi)) (mem_filter_opens.1 (List.mem_reverse.1 hj))
  rw [ofWordPairwise?, hfilter, maxOn?_eq_some_iff hone, List.mem_reverse, mem_filter_opens, ofWord?_exact_eq_some_iff]

/-! ## Every text -/

/-- What the ways to classify a text have to do with one another. -/
structure Agrees (s : List Char) : Prop where
  /-- The word that is left of the text names the section whose name the text begins with. -/
  exact_iff : ∀ k, ofWord? .exact (Word.ofText s) = some k ↔ lower k.letters <+: lower s
  /-- There is no more than one, so neither the order of the vocabulary nor the lengths of the names decide. -/
  alone : ∀ j k : Section, lower j.letters <+: lower s → lower k.letters <+: lower s → j = k
  pairwise : ofWordPairwise? (Word.ofText s) = ofWord? .exact (Word.ofText s)
  /-- The text is a name if nothing follows the one that it begins with. -/
  name_iff : isName .exact s = true ↔
    ∃ k, ofWord? .exact (Word.ofText s) = some k ∧ k.letters.length = s.length
  spelled : headerSuffixKinds s = kindsSpelled (String.ofList (lower s))
  /-- Only behind names may kinds follow. -/
  suffixed : headerSuffixKinds s ≠ ∅ → isName .exact s = true
  substring_iff : byteSize s ≤ Word.capacity →
    (isName .substring s = true ↔ ∃ k, ofWord? .substring (Word.ofText s) = some k)
  /-- Of the names that the text contains the first of the vocabulary is found. -/
  substring_first : byteSize s ≤ Word.capacity → ∀ k, ofWord? .substring (Word.ofText s) = some k ↔
    k.letters <:+: lower s ∧ ∃ before after, all = before ++ k :: after ∧ ∀ j ∈ before, ¬ j.letters <:+: lower s
  /-- Case does not count. -/
  congr : ∀ t, lower t = lower s → (∀ mode, isName mode t = isName mode s ∧
    ofWord? mode (Word.ofText t) = ofWord? mode (Word.ofText s)) ∧ headerSuffixKinds t = headerSuffixKinds s

theorem isName_exact_iff_length {s : List Char} : isName .exact s = true ↔
    ∃ k : Section, k.letters <+: lower s ∧ k.letters.length = s.length := by
  rw [isName_exact_iff]
  refine ⟨?_, ?_⟩
  · rintro ⟨k, hk⟩
    exact ⟨k, hk ▸ List.prefix_refl _, by rw [hk, length_lower]⟩
  · rintro ⟨k, hprefix, hk⟩
    exact ⟨k, hprefix.eq_of_length (by rw [hk, length_lower])⟩

theorem isName_congr {s t : List Char} (h : lower t = lower s) (mode : MatchMode) : isName mode t = isName mode s := by
  simp only [isName, h]

/-- **The classifier agrees with itself.** Whatever the text is and however long. -/
theorem classifiers_agree (s : List Char) : Agrees s := by
  have hexact : ∀ k, ofWord? .exact (Word.ofText s) = some k ↔ k.letters <+: lower s := fun k => by
    rw [ofWord?_exact_eq_some_iff, letters_isPrefix_ofText]
  have hword : byteSize s ≤ Word.capacity → (Word.ofText s).lower = lower s := fun hsize => by
    rw [Word.lower, Word.chars_ofText hsize]
  refine ⟨?_, ?_, ofWordPairwise?_eq _, ?_, headerSuffixKinds_eq s, ?_, ?_, ?_, ?_⟩
  · simpa only [lower_letters] using hexact
  · intro j k hj hk
    rw [lower_letters] at hj hk
    exact eq_of_prefixes hj hk
  · simpa only [hexact] using isName_exact_iff_length
  · intro hkinds
    cases hname : ofName? s with
    | some k => exact isName_exact_iff.2 ⟨k, ofName?_eq_some_iff.1 hname⟩
    | none =>
      rw [headerSuffixKinds, hname] at hkinds
      exact absurd rfl hkinds
  · intro hsize
    rw [isName_substring_iff, ← hword hsize, ← isSome_ofWord?_substring, Option.isSome_iff_exists]
  · intro hsize k
    rw [ofWord?, List.find?_eq_some_iff_append, hword hsize]
    simp only [occursIn_iff, Bool.not_eq_true', ← Bool.not_eq_true]
  · intro t ht
    exact ⟨fun mode => ⟨isName_congr ht mode, ofWord?_congr (Word.lower_ofText_congr ht) mode⟩,
      headerSuffixKinds_congr ht⟩

end IniScan.Section
