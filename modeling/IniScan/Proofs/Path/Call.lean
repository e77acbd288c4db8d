import IniScan.Proofs.Host.Calls
import IniScan.Proofs.Path.Content

/-!
# The call for the content of a path

A call that asks for content is answered from the run of characters in front of the next terminator, and from whether there
is a terminator. Other kinds may be offered with the content, as long as neither a boundary nor the separator that opens a path
comes before it.

* `finds_before_separator`, `finds_run`: the content ends in front of the last separator, or with the run.
* `rejects_cut`, `rejects_open`: there is no content.
* `content_of_run`: the answer to every such call.
-/
namespace IniScan.Path

open Text

/-! ## Runs -/

/-- What no path holds. -/
def terminators : List Char := ['=', '&', '|', '+', '-', '/', '*', '<', '>', '%', '!', '\n', '\r']

theorem isTerminator_eq (c : Char) : isTerminator c = decide (c ∈ terminators) := by
  simp [isTerminator, isLineEnd, terminators, Bool.or_assoc]

/-- The part of the text that the content reader goes through. -/
def run (s : List Char) : List Char := s.takeWhile fun c => !isTerminator c

theorem run_eq (s : List Char) : run s = s.takeWhile (· ∉ terminators) := by
  simp only [run, isTerminator_eq, decide_not]

/-! ## Asking for content -/

/-- The content is the part of a path that is read when these kinds are offered. -/
structure AsksContent (offered : KindSet) : Prop where
  not_recovering : Kind.errorSentinel ∉ offered
  family : Family.of? offered = some .path
  not_start : Kind.namespaceStart ∉ offered
  content : Kind.namespaceContent ∈ offered

theorem asksContent_singleton : AsksContent {Kind.namespaceContent} := by
  constructor <;> decide

theorem asksContent_of_mem {offered : KindSet} (hcontent : Kind.namespaceContent ∈ offered)
    (hstart : Kind.namespaceStart ∉ offered) (hboundary : Kind.lineBoundary ∉ offered)
    (hs : Kind.errorSentinel ∉ offered) : AsksContent offered := by
  have hpath : offered.meets KindSet.path = true := KindSet.meets_iff.2 ⟨_, hcontent, by decide⟩
  refine ⟨hs, ?_, hstart, hcontent⟩
  rw [Family.of?_eq, if_neg hboundary, if_pos hpath]

section

variable {h : Host} {offered : KindSet} (ha : AsksContent offered)

include ha

theorem read_eq_of_content : h.scanner.read offered h.cursor.unread =
    (contentReader.read h.cursor.unread).map fun found => if found then some .namespaceContent else none := by
  rw [h.scanner.read_of_family ha.not_recovering ha.family, Family.read, read, if_neg ha.not_start, if_pos ha.content]

theorem finds_of_content {p rest : List Char} (hsize : byteSize h.cursor.source < 2 ^ 32)
    (hu : h.cursor.unread = p ++ rest) (hout : (contentReader.read h.cursor.unread).outcome = true)
    (hspan : (contentReader.read h.cursor.unread).Spans 0 p.length) : h.Finds offered .namespaceContent [] p := by
  have hread := read_eq_of_content (h := h) ha
  have hparts : h.cursor.unread = [] ++ (p ++ rest) := hu
  refine Host.finds_of_read hsize ?_ ?_ hparts rfl (Nat.zero_add _)
  · rw [hread, Reading.outcome_map, hout]
    rfl
  · rw [hread]
    exact hspan

theorem rejects_of_content (hout : (contentReader.read h.cursor.unread).outcome = false) : h.Rejects offered := by
  apply Host.rejects_of_read
  rw [read_eq_of_content ha, Reading.outcome_map, hout]
  rfl

variable {run rest : List Char} (hu : h.cursor.unread = run ++ rest) (hrun : ∀ c ∈ run, isTerminator c = false)

include hu hrun

theorem rejects_cut (hcut : Cut run) : h.Rejects offered := by
  apply rejects_of_content ha
  rw [hu]
  exact outcome_of_cut hrun hcut

variable (hcut : ¬ Cut run) (hrest : Stops (fun c => !isTerminator c) rest)

include hcut hrest

theorem rejects_open (hmem : separator ∉ run) (he : rest = []) : h.Rejects offered := by
  apply rejects_of_content ha
  rw [hu]
  exact outcome_of_open hrun hcut hrest hmem he

theorem finds_before_separator {p q : List Char} (hsize : byteSize h.cursor.source < 2 ^ 32)
    (he : run = p ++ separator :: q) (hq : separator ∉ q) : h.Finds offered .namespaceContent [] p := by
  obtain ⟨hout, hspan⟩ := read_of_separator hrun hcut hrest he hq
  rw [← hu] at hout hspan
  have hparts : h.cursor.unread = p ++ (separator :: q ++ rest) := by rw [hu, he, List.append_assoc]
  exact finds_of_content ha hsize hparts hout hspan

theorem finds_run (hsize : byteSize h.cursor.source < 2 ^ 32) (hmem : separator ∉ run) (hne : rest ≠ []) :
    h.Finds offered .namespaceContent [] run := by
  obtain ⟨hout, hspan⟩ := read_of_terminator hrun hcut hrest hmem hne
  rw [← hu] at hout hspan
  exact finds_of_content ha hsize hu hout hspan

end

/-- **Content.** Where content is asked for in a text of less than 2 ^ 32 bytes, take the longest run without a terminator. There
is no content if the run holds a dollar sign right in front of a separator, or if it has no separator and the text ends with
it; then the cursor stays. Otherwise the content starts at the cursor. It ends in front of the last separator of the run,
whatever stands behind the run, and a run without a separator is content as a whole. -/
theorem content_of_run {h : Host} {offered : KindSet} (hsize : byteSize h.cursor.source < 2 ^ 32)
    (hcontent : Kind.namespaceContent ∈ offered) (hstart : Kind.namespaceStart ∉ offered)
    (hboundary : Kind.lineBoundary ∉ offered) (hs : Kind.errorSentinel ∉ offered) :
    let run := h.cursor.unread.takeWhile (· ∉ terminators)
    let refused := ['$', '\\'] <:+: run ∨ ('\\' ∉ run ∧ run = h.cursor.unread)
    ((h.nextToken offered).1 = none ↔ refused) ∧ (refused → h.Rejects offered) ∧
    (¬ refused → '\\' ∈ run → ∃ p q, run = p ++ '\\' :: q ∧ '\\' ∉ q ∧ h.Finds offered .namespaceContent [] p) ∧
    (¬ refused → '\\' ∉ run → h.Finds offered .namespaceContent [] run) := by
  intro run refused
  have ha := asksContent_of_mem hcontent hstart hboundary hs
  have hparts : h.cursor.unread = Path.run h.cursor.unread ++ h.cursor.unread.dropWhile fun c => !isTerminator c :=
    List.takeWhile_append_dropWhile.symm
  have hrun : ∀ c ∈ Path.run h.cursor.unread, isTerminator c = false := fun c hc => not_of_mem_takeWhile hc
  have hrest := stops_dropWhile (fun c => !isTerminator c) h.cursor.unread
  have heq : Path.run h.cursor.unread = run := run_eq _
  rw [heq] at hparts hrun
  generalize h.cursor.unread.dropWhile (fun c => !isTerminator c) = rest at hparts hrest
  have hwhole : run = h.cursor.unread ↔ rest = [] := by
    refine ⟨fun he => ?_, fun he => ?_⟩
    · rw [← he] at hparts
      exact List.append_right_eq_self.1 hparts.symm
    · rw [hparts, he, List.append_nil]
  have hrejects : refused → h.Rejects offered := by
    rintro (hcut | ⟨hmem, he⟩)
    · exact rejects_cut ha hparts hrun hcut
    · exact rejects_open ha hparts hrun (fun hcut => hmem (Cut.mem hcut)) hrest hmem (hwhole.1 he)
  have hseparated : ¬ refused → '\\' ∈ run →
      ∃ p q, run = p ++ '\\' :: q ∧ '\\' ∉ q ∧ h.Finds offered .namespaceContent [] p := by
    intro hrefused hmem
    obtain ⟨p, q, he, hq⟩ := exists_last_of_mem hmem
    exact ⟨p, q, he, hq, finds_before_separator ha hparts hrun (fun hcut => hrefused (.inl hcut)) hrest hsize he hq⟩
  have hwithout : ¬ refused → '\\' ∉ run → h.Finds offered .namespaceContent [] run := by
    intro hrefused hmem
    exact finds_run ha hparts hrun (fun hcut => hrefused (.inl hcut)) hrest hsize hmem fun he =>
      hrefused (.inr ⟨hmem, hwhole.2 he⟩)
  refine ⟨⟨fun hnone => ?_, fun hrefused => (hrejects hrefused).token⟩, hrejects, hseparated, hwithout⟩
  refine Classical.byContradiction fun hrefused => ?_
  by_cases hmem : '\\' ∈ run
  · obtain ⟨p, q, -, -, hfinds⟩ := hseparated hrefused hmem
    rw [hfinds.token] at hnone
    cases hnone
  · rw [(hwithout hrefused hmem).token] at hnone
    cases hnone

/-- A dollar sign in front of an operator ends the content like any character, and in front of a separator it spoils the
separators that came before it. -/
theorem content_of_run_dollar :
    let offered := KindSet.ofList [.namespaceContent, .namespaceEnd, .keySuffix, .externalLine]
    let g := Host.ofText default "Hud$= 1".toList
    let h := Host.ofText default "Mods\\Hud$\\x = 1".toList
    g.Finds offered .namespaceContent [] "Hud$".toList ∧ h.Rejects offered := by
  intro offered g h
  obtain ⟨-, -, -, hfinds⟩ :=
    @content_of_run g offered (by decide) (by decide) (by decide) (by decide) (by decide)
  obtain ⟨-, hrejects, -⟩ :=
    @content_of_run h offered (by decide) (by decide) (by decide) (by decide) (by decide)
  exact ⟨hfinds (by decide +kernel) (by decide +kernel), hrejects (.inl (by decide +kernel))⟩

end IniScan.Path
