import Mathlib.Data.List.Find
import IniScan.Proofs.Family.Offered
import IniScan.Proofs.Header.RegexLanguage
import IniScan.Proofs.Header.SubjectText

/-!
# What is offered selects and filters

A grammar that offers other kinds does not make a scanner read in another way. The set of kinds that it offers selects the
family that reads, and for a path the part; then the family reads as it always does, and the set decides whether the outcome
counts. Among kinds that a reading cannot tell apart the one with the lowest index wins (`KindSet.Least`).

* `Family.of?_inter`, `Family.read_inter`: the other families' kinds have no say.
* `Family.read_path_of_least`: of the parts of a path only the first counts.
* `scan_of_filtered`, `scan_of_subject`: what the set does to the outcome.
* `offered_selects`: two sets with one family.
-/
namespace IniScan

open Text

/-! ## The lowest index -/

namespace KindSet

/-- The kind of the set with the lowest index. -/
structure Least (s : KindSet) (k : Kind) : Prop where
  mem : k ∈ s
  le : ∀ j ∈ s, k.index ≤ j.index

section

variable {s : KindSet} {ks : List Kind} (hks : ks.Pairwise fun j k => j.index < k.index)

include hks

/-- In a list by index the first kind of a set is the lowest. -/
theorem least_of_find? {k : Kind} (h : ks.find? (· ∈ s) = some k) : (s ∩ ofList ks).Least k := by
  obtain ⟨hk, before, after, rfl, hbefore⟩ := List.find?_eq_some_iff_append.1 h
  refine ⟨by simpa using hk, ?_⟩
  intro j hj
  rw [mem_inter, mem_ofList, List.mem_append, List.mem_cons] at hj
  obtain ⟨hjs, hj | rfl | hj⟩ := hj
  · simpa [hjs] using hbefore j hj
  · exact Nat.le_refl _
  · exact Nat.le_of_lt (List.rel_of_pairwise_cons (List.pairwise_append.1 hks).2.1 hj)

theorem exists_least (h : s.meets (ofList ks) = true) :
    ∃ k, ks.find? (· ∈ s) = some k ∧ (s ∩ ofList ks).Least k := by
  obtain ⟨k, hk⟩ := exists_find? h
  exact ⟨k, hk, least_of_find? hks hk⟩

end

end KindSet

/-! ## Families -/

theorem Reading.map_congr {α β : Type} {r : Reading α} {f g : α → β} (h : f r.outcome = g r.outcome) :
    r.map f = r.map g := by
  rw [Reading.map, Reading.map, h]

theorem Header.Subject.kind?_inter (offered : KindSet) (text : Bool) :
    kind? (offered ∩ KindSet.suffixed) text = kind? offered text := by
  have hmem : ∀ k ∈ Kind.suffixed, (k ∈ offered ∩ KindSet.suffixed ↔ k ∈ offered) := by
    intro k hk
    rw [KindSet.mem_inter, KindSet.suffixed, KindSet.mem_ofList]
    exact and_iff_left hk
  have hinclude := hmem .includeSuffix (by decide)
  unfold kind?
  split
  · exact List.find?_congr fun k hk => decide_eq_decide.2 (hmem k hk)
  · simp only [hinclude]

/-- There is no text exactly if nothing but blanks stands in front of a bracket or a line end. -/
theorem Header.Subject.outcome_read (unread : List Char) :
    (reader.read unread).outcome = false ↔ ∀ c ∈ RegexName.nameOf unread, isBlank c = true := by
  have hunread := RegexName.eq_nameOf_append unread
  have hclosing := RegexName.not_isClosing_of_mem_nameOf (s := unread)
  have hrest := stops_dropWhile (fun c => !isClosing c) unread
  generalize RegexName.nameOf unread = s at hunread hclosing ⊢
  generalize (unread.dropWhile fun c => !isClosing c) = rest at hunread hrest
  rw [hunread, ← trim_eq_nil_iff]
  refine ⟨fun hfalse => ?_, fun htrim => ?_⟩
  · by_contra htrim
    rw [(read_text hclosing htrim hrest).1] at hfalse
    cases hfalse
  · rw [read_blanks (trim_eq_nil_iff.1 htrim) hrest]

namespace Family

theorem errorSentinel_not_mem_kinds (f : Family) : Kind.errorSentinel ∉ f.kinds := fun h =>
  ne_errorSentinel_of_mem_kinds h rfl

/-- A family is chosen when all of its kinds are offered and no others. -/
theorem of?_kinds (f : Family) : of? f.kinds = some f := by cases f <;> decide

theorem of?_inter {offered : KindSet} {f : Family} (h : of? offered = some f) : of? (offered ∩ f.kinds) = some f := by
  obtain ⟨before, after, hall, hmeets, hbefore⟩ := exists_front h
  refine List.find?_eq_some_iff_append.2 ⟨?_, before, after, hall, ?_⟩
  · obtain ⟨k, hk, hkf⟩ := KindSet.meets_iff.1 hmeets
    exact KindSet.meets_iff.2 ⟨k, KindSet.mem_inter.2 ⟨hk, hkf⟩, hkf⟩
  · intro g hg
    rw [Bool.not_eq_true', Bool.eq_false_iff]
    intro hmeets'
    obtain ⟨k, hk, hkg⟩ := KindSet.meets_iff.1 hmeets'
    have hoffered := KindSet.meets_iff.2 ⟨k, (KindSet.mem_inter.1 hk).1, hkg⟩
    rw [hbefore g hg] at hoffered
    cases hoffered

/-- The kinds of other families make no difference to a family. -/
theorem read_inter (f : Family) (mode : MatchMode) (offered : KindSet) (unread : List Char) :
    f.read mode (offered ∩ f.kinds) unread = f.read mode offered unread := by
  have hfind : ∀ k ∈ f.kinds, (offered ∩ f.kinds).find? k = offered.find? k := by
    intro k hk
    simp only [KindSet.find?, KindSet.mem_inter, hk, and_true]
  cases f with
  | boundary => rfl
  | path =>
    have hstart : Kind.namespaceStart ∈ KindSet.path := by decide
    have hcontent : Kind.namespaceContent ∈ KindSet.path := by decide
    simp only [read, kinds, Path.read, KindSet.mem_inter, hstart, hcontent, and_true]
  | subject => exact Reading.map_congr (Header.Subject.kind?_inter offered _)
  | regexName => exact Reading.map_congr (hfind _ (regexName_outcome_mem unread))
  | line => exact Reading.map_congr (hfind _ (line_outcome_mem mode unread))

/-- The part of a path that is read is the first that is offered. -/
theorem read_path_of_least {offered : KindSet} {k : Kind} (hk : (offered ∩ KindSet.path).Least k) (unread : List Char) :
    Path.read {k} unread = Path.read offered unread := by
  have hlower : ∀ j, j ∈ KindSet.path → j.index < k.index → j ∉ offered := by
    intro j hpath hlt hj
    exact absurd (hk.le j (KindSet.mem_inter.2 ⟨hj, hpath⟩)) (Nat.not_le.2 hlt)
  obtain ⟨hoffered, hpath⟩ := KindSet.mem_inter.1 hk.mem
  simp only [KindSet.path, KindSet.mem_ofList, List.mem_cons, List.not_mem_nil, or_false] at hpath
  rcases hpath with rfl | rfl | rfl
  · simp only [Path.read, KindSet.mem_singleton, hoffered, if_true]
  · have hstart := hlower .namespaceStart (by decide) (by decide)
    simp only [Path.read, KindSet.mem_singleton, hoffered, hstart, reduceCtorEq, if_true, if_false]
  · have hstart := hlower .namespaceStart (by decide) (by decide)
    have hcontent := hlower .namespaceContent (by decide) (by decide)
    simp only [Path.read, KindSet.mem_singleton, hstart, hcontent, reduceCtorEq, if_false]

end Family

/-! ## Scans -/

namespace Host

/-- A scan comes to the same with either set: to the same kind by the same calls, and with the cursor in one place. -/
structure Indifferent (h : Host) (offered offered' : KindSet) : Prop where
  calls : (h.scanner.read offered h.cursor.unread).moves = (h.scanner.read offered' h.cursor.unread).moves
  scan : h.scan offered = h.scan offered'

section

variable {h : Host} {offered : KindSet}

theorem indifferent_of_read {offered' : KindSet} (hs : Kind.errorSentinel ∉ offered) (hs' : Kind.errorSentinel ∉ offered')
    (hread : h.scanner.read offered h.cursor.unread = h.scanner.read offered' h.cursor.unread) :
    h.Indifferent offered offered' := by
  have hsettle : h.scanner.settle offered = h.scanner.settle offered' := by
    simp [Scanner.settle, Scanner.recovering, hs, hs']
  exact ⟨by rw [hread], by rw [scan_eq, scan_eq, hread, hsettle]⟩

theorem indifferent_inter (hs : Kind.errorSentinel ∉ offered) {f : Family} (hf : Family.of? offered = some f) :
    h.Indifferent offered (offered ∩ f.kinds) := by
  have hs' : Kind.errorSentinel ∉ offered ∩ f.kinds := fun hmem => hs (KindSet.mem_inter.1 hmem).1
  refine indifferent_of_read hs hs' ?_
  rw [h.scanner.read_of_family hs hf, h.scanner.read_of_family hs' (Family.of?_inter hf), f.read_inter]

/-- Of the parts of a path only the first that is offered counts. -/
theorem exists_part (hs : Kind.errorSentinel ∉ offered) (hf : Family.of? offered = some .path) :
    ∃ k, (offered ∩ KindSet.path).Least k ∧ h.Indifferent offered {k} := by
  obtain ⟨k, -, hk⟩ := KindSet.exists_least (by decide) (Family.meets_of_of? hf)
  refine ⟨k, hk, ?_⟩
  have hpath : k ∈ KindSet.path := (KindSet.mem_inter.1 hk.mem).2
  have hs' : Kind.errorSentinel ∉ ({k} : KindSet) := by
    rw [KindSet.mem_singleton]
    exact (Family.ne_errorSentinel_of_mem_kinds (f := .path) hpath).symm
  have hf' : Family.of? {k} = some .path := by
    simp only [KindSet.path, KindSet.mem_ofList, List.mem_cons, List.not_mem_nil, or_false] at hpath
    rcases hpath with rfl | rfl | rfl <;> decide
  refine indifferent_of_read hs hs' ?_
  rw [h.scanner.read_of_family hs hf, h.scanner.read_of_family hs' hf']
  exact (Family.read_path_of_least hk _).symm

/-- What the text of a line or the name of a regex header tells, without regard to what is offered. -/
theorem exists_kind {f : Family} (hline : f = .line ∨ f = .regexName) (mode : MatchMode) (unread : List Char) :
    ∃ k ∈ f.kinds, ∃ moves, ∀ offered, f.read mode offered unread = ⟨offered.find? k, moves⟩ := by
  rcases hline with rfl | rfl
  · exact ⟨_, Family.line_outcome_mem mode unread, _, fun _ => rfl⟩
  · exact ⟨_, Family.regexName_outcome_mem unread, _, fun _ => rfl⟩

/-- A line or the name of a regex header has its kind, which counts if it is offered. -/
theorem scan_of_filtered (hs : Kind.errorSentinel ∉ offered) {f : Family} (hline : f = .line ∨ f = .regexName)
    (hf : Family.of? offered = some f) : ∃ k, (h.scan f.kinds).1 = some k ∧ (h.scan offered).1 = offered.find? k ∧
      (h.scanner.read offered h.cursor.unread).moves = (h.scanner.read f.kinds h.cursor.unread).moves := by
  obtain ⟨k, hk, moves, hread⟩ := exists_kind hline h.scanner.config.mode h.cursor.unread
  have hoffered : h.scanner.read offered h.cursor.unread = ⟨offered.find? k, moves⟩ := by
    rw [h.scanner.read_of_family hs hf, hread]
  have hwhole : h.scanner.read f.kinds h.cursor.unread = ⟨f.kinds.find? k, moves⟩ := by
    rw [h.scanner.read_of_family f.errorSentinel_not_mem_kinds f.of?_kinds, hread]
  refine ⟨k, ?_, ?_, ?_⟩
  · rw [scan_eq, hwhole]
    exact if_pos hk
  · rw [scan_eq, hoffered]
  · rw [hoffered, hwhole]

/-- The subject of a header is the same for all sets, and so are the calls. -/
theorem scan_of_subject (hs : Kind.errorSentinel ∉ offered) (hf : Family.of? offered = some .subject) :
    (h.scan offered).1 = Header.Subject.kind? offered (Header.Subject.reader.read h.cursor.unread).outcome ∧
      (h.scanner.read offered h.cursor.unread).moves = (h.scanner.read KindSet.suffixed h.cursor.unread).moves := by
  have hread := h.scanner.read_of_family hs hf h.cursor.unread
  have hwhole : h.scanner.read KindSet.suffixed h.cursor.unread =
      (Header.Subject.reader.read h.cursor.unread).map (Header.Subject.kind? KindSet.suffixed) :=
    h.scanner.read_of_family Family.subject.errorSentinel_not_mem_kinds Family.subject.of?_kinds h.cursor.unread
  refine ⟨?_, ?_⟩
  · rw [scan_eq, hread]
    rfl
  · rw [hread, hwhole]
    rfl

end

/-- How the kinds that are offered enter into a scan. -/
structure Selects (h : Host) (offered : KindSet) : Prop where
  /-- The kinds of other families have no say. -/
  family : ∀ {f}, Family.of? offered = some f → h.Indifferent offered (offered ∩ f.kinds)
  /-- Of the parts of a path only the one with the lowest index counts. -/
  part : Family.of? offered = some .path → ∃ k, (offered ∩ KindSet.path).Least k ∧ h.Indifferent offered {k}
  /-- A line and the name of a regex header have a kind of their own, which is found if it is offered. -/
  filtered : ∀ {f}, f = .line ∨ f = .regexName → Family.of? offered = some f →
    ∃ k, (h.scan f.kinds).1 = some k ∧ (h.scan offered).1 = offered.find? k ∧
      (h.scanner.read offered h.cursor.unread).moves = (h.scanner.read f.kinds h.cursor.unread).moves
  /-- A blank subject can be one kind only, and any other is of the first kind that is offered for subjects. -/
  subject : Family.of? offered = some .subject →
    (h.scanner.read offered h.cursor.unread).moves = (h.scanner.read KindSet.suffixed h.cursor.unread).moves ∧
    ((∀ c ∈ Header.RegexName.nameOf h.cursor.unread, isBlank c = true) →
      (h.scan offered).1 = offered.find? .includeSuffix) ∧
    ((∃ c ∈ Header.RegexName.nameOf h.cursor.unread, isBlank c = false) →
      ∃ k, (offered ∩ KindSet.suffixed).Least k ∧ (h.scan offered).1 = some k)
  nothing : Family.of? offered = none → (h.scanner.read offered h.cursor.unread).moves = [] ∧ (h.scan offered).1 = none

/-- **What is offered selects and filters.** Outside recovery the set of kinds never steers a reading: it selects the first
family that it meets, that reads the text as it does for any other set, and the set decides what becomes of the outcome. -/
theorem offered_selects (h : Host) {offered : KindSet} (hs : Kind.errorSentinel ∉ offered) : h.Selects offered := by
  refine ⟨indifferent_inter hs, exists_part hs, scan_of_filtered hs, fun hf => ?_, fun hf => ?_⟩
  · obtain ⟨hkind, hcalls⟩ := scan_of_subject (h := h) hs hf
    refine ⟨hcalls, fun hblank => ?_, ?_⟩
    · rw [hkind, (Header.Subject.outcome_read _).2 hblank]
      rfl
    · rintro ⟨c, hc, hblank⟩
      have htext : (Header.Subject.reader.read h.cursor.unread).outcome = true := by
        rw [← Bool.not_eq_false, Header.Subject.outcome_read]
        intro hall
        rw [hall c hc] at hblank
        cases hblank
      obtain ⟨k, hfind, hleast⟩ := KindSet.exists_least (by decide) (Family.meets_of_of? hf)
      refine ⟨k, hleast, ?_⟩
      rw [hkind, htext]
      exact hfind
  · rw [scan_eq, h.scanner.read_of_no_family hf]
    exact ⟨rfl, rfl⟩

/-- A subject of blanks is asked for together with a line. The kind of presets would win if there were text. -/
theorem offered_selects_blank :
    let h := Host.ofText default " \t]".toList
    let offered := KindSet.ofList [.presetSuffix, .includeSuffix, .externalLine]
    (h.scan offered).1 = some .includeSuffix ∧ h.Indifferent offered (offered ∩ KindSet.suffixed) := by
  intro h offered
  have hselects : h.Selects offered := offered_selects h (by decide)
  obtain ⟨-, hblank, -⟩ := hselects.subject (by decide)
  have hall : (Header.RegexName.nameOf h.cursor.unread).all isBlank = true := by decide
  exact ⟨(hblank (List.all_eq_true.1 hall)).trans (by decide), hselects.family (f := .subject) (by decide)⟩

end Host

end IniScan
