import IniScan.Proofs.Path.Call

/-!
# The grammar of a path

A path is a separator, its content and another separator. Where a grammar asks for these three one after the other, it is
given them exactly when they stand there and the content is `Enclosed`: no terminator in it, no variable that a separator
cuts off, and no separator later on before the path has to end, since the content goes on to the last one.

The closing separator is found out by text behind it, and the calls still leave no gap between the three tokens.

* `finds_content`, `enclosed_of_content_call`: the two directions, at the call for the content.
* `tokens_of_path`: the three calls.
-/
namespace IniScan

open Text

/-! ## Three calls -/

namespace Host

/-- The host behind the call for the opening separator. -/
def behindStart (h : Host) : Host := (h.nextToken {Kind.namespaceStart}).2

/-- The host behind the call for the content. -/
def behindContent (h : Host) : Host := (h.behindStart.nextToken {Kind.namespaceContent}).2

/-- The host behind the call for the closing separator. -/
def behindEnd (h : Host) : Host := (h.behindContent.nextToken {Kind.namespaceEnd}).2

end Host

namespace Path

/-- `p` is the content of a path, and `t` what follows the separator that closes it. -/
structure Enclosed (p t : List Char) : Prop where
  plain : ∀ c ∈ p, c ∉ terminators
  /-- No separator in the content cuts off a variable. -/
  whole : ¬ ['$', '\\'] <:+: p
  /-- Nor does the one that closes it. -/
  closed : p.getLast? ≠ some '$'
  /-- There is no separator further on. -/
  last : '\\' ∉ t.takeWhile (· ∉ terminators)

/-- A reader that tells whether there is a token of the kind has told so. -/
theorem found_of_isSome {h : Host} {offered : KindSet} {k : Kind} {r : Reading Bool}
    (hread : h.scanner.read offered h.cursor.unread = r.map fun found => if found then some k else none)
    (hsome : (h.nextToken offered).1.isSome = true) : r.outcome = true := by
  have hout := h.kind_nextToken offered
  obtain ⟨token, htoken⟩ := Option.isSome_iff_exists.1 hsome
  rw [htoken, hread, Reading.outcome_map, Option.map_some] at hout
  split at hout
  · assumption
  · cases hout

/-! ## Separators -/

theorem separator_read (u : List Char) : separatorReader.read (separator :: u) = ⟨true, [.take]⟩ := by
  have hstart : separatorReader.step separatorReader.start separator = .go .take true := rfl
  have htaken : separatorReader.readFrom true u = ⟨true, []⟩ := by cases u <;> rfl
  rw [Reader.read, Reader.readFrom_of_go u hstart, htaken]
  rfl

theorem head_of_separator_read {s : List Char} (h : (separatorReader.read s).outcome = true) :
    ∃ u, s = separator :: u := by
  cases s with
  | nil => cases h
  | cons c u =>
    by_cases hc : c = separator
    · exact ⟨u, by rw [hc]⟩
    · have hstop : separatorReader.step separatorReader.start c = .stop ⟨false, false⟩ := by
        simp [separatorReader, hc]
      rw [Reader.read, Reader.readFrom_of_stop u hstop] at h
      cases h

section

variable {h : Host} {k : Kind} (hk : k = .namespaceStart ∨ k = .namespaceEnd)

include hk

theorem read_eq_of_separator : h.scanner.read {k} h.cursor.unread =
    (separatorReader.read h.cursor.unread).map fun found => if found then some k else none := by
  rcases hk with rfl | rfl
  · rw [h.scanner.read_of_family (by decide) (show Family.of? {Kind.namespaceStart} = some .path by decide)]
    rfl
  · rw [h.scanner.read_of_family (by decide) (show Family.of? {Kind.namespaceEnd} = some .path by decide)]
    rfl

theorem finds_separator (hsize : byteSize h.cursor.source < 2 ^ 32) {u : List Char}
    (hu : h.cursor.unread = separator :: u) : h.Finds {k} k [] [separator] := by
  have hread := read_eq_of_separator (h := h) hk
  rw [hu, separator_read, ← hu] at hread
  have hparts : h.cursor.unread = [] ++ ([separator] ++ u) := hu
  refine Host.finds_of_read hsize ?_ ?_ hparts rfl rfl
  · rw [hread]
    rfl
  · rw [hread]
    exact ⟨[.take], rfl, by decide, rfl⟩

theorem head_of_isSome (hsome : (h.nextToken {k}).1.isSome = true) : ∃ u, h.cursor.unread = separator :: u :=
  head_of_separator_read (found_of_isSome (read_eq_of_separator hk) hsome)

end

/-! ## Content -/

section

variable {h : Host}

theorem finds_content {p t : List Char} (hsize : byteSize h.cursor.source < 2 ^ 32)
    (hu : h.cursor.unread = p ++ separator :: t) (he : Enclosed p t) :
    h.Finds {Kind.namespaceContent} .namespaceContent [] p := by
  have hu' : h.cursor.unread = (p ++ separator :: run t) ++ t.dropWhile fun c => !isTerminator c := by
    rw [hu, run, List.append_assoc, List.cons_append, List.takeWhile_append_dropWhile]
  have hlast : separator ∉ run t := by
    rw [run_eq]
    exact he.last
  have hrun : ∀ c ∈ p ++ separator :: run t, isTerminator c = false := by
    intro c hc
    rw [List.mem_append, List.mem_cons] at hc
    rcases hc with hc | rfl | hc
    · rw [isTerminator_eq]
      exact decide_eq_false (he.plain c hc)
    · decide
    · exact not_of_mem_takeWhile hc
  have hcut : ¬ Cut (p ++ separator :: run t) := by
    rw [cut_append]
    rintro (hc | hc | hc)
    · exact he.whole hc
    · exact he.closed hc
    · exact hlast hc.mem
  exact finds_before_separator asksContent_singleton hu' hrun hcut (stops_dropWhile _ _) hsize rfl hlast

theorem enclosed_of_run {p q rest : List Char} (hrun : ∀ c ∈ p ++ separator :: q, isTerminator c = false)
    (hcut : ¬ Cut (p ++ separator :: q)) (hrest : Stops (fun c => !isTerminator c) rest) (hq : separator ∉ q) :
    Enclosed p (q ++ rest) := by
  rw [cut_append, not_or, not_or] at hcut
  refine ⟨?_, hcut.1, hcut.2.1, ?_⟩
  · intro c hc
    have hplain := hrun c (List.mem_append_left _ hc)
    rw [isTerminator_eq] at hplain
    exact of_decide_eq_false hplain
  · have hinner : ∀ c ∈ q, (!isTerminator c) = true := fun c hc => by simp [hrun c (by simp [hc])]
    rw [← run_eq, run, takeWhile_append_of_stops hinner hrest]
    exact hq

/-- Content with a separator behind it is enclosed. -/
theorem enclosed_of_content_call {u : List Char} (hsize : byteSize h.cursor.source < 2 ^ 32)
    (hsome : (h.nextToken {Kind.namespaceContent}).1.isSome = true)
    (hu : (h.nextToken {Kind.namespaceContent}).2.cursor.unread = separator :: u) :
    ∃ p t, h.cursor.unread = p ++ separator :: t ∧ Enclosed p t := by
  have hparts : h.cursor.unread = run h.cursor.unread ++ h.cursor.unread.dropWhile fun c => !isTerminator c :=
    List.takeWhile_append_dropWhile.symm
  have hrest := stops_dropWhile (fun c => !isTerminator c) h.cursor.unread
  have hrun : ∀ c ∈ run h.cursor.unread, isTerminator c = false := fun c hc => not_of_mem_takeWhile hc
  generalize run h.cursor.unread = a at hparts hrun
  generalize h.cursor.unread.dropWhile (fun c => !isTerminator c) = rest at hparts hrest
  have hfound : ¬ h.Rejects {Kind.namespaceContent} := fun hrejects => by
    rw [hrejects.token] at hsome
    cases hsome
  have hcut : ¬ Cut a := fun hcut => hfound (rejects_cut asksContent_singleton hparts hrun hcut)
  by_cases hmem : separator ∈ a
  · obtain ⟨p, q, rfl, hq⟩ := exists_last_of_mem hmem
    refine ⟨p, q ++ rest, ?_, enclosed_of_run hrun hcut hrest hq⟩
    rw [hparts, List.append_assoc, List.cons_append]
  · -- The content is the whole run, and what closes it is no separator.
    exfalso
    have hne : rest ≠ [] := fun he =>
      hfound (rejects_open asksContent_singleton hparts hrun hcut hrest hmem he)
    have hunread := (finds_run asksContent_singleton hparts hrun hcut hrest hsize hmem hne).unread
    rw [hu, List.nil_append, hparts, List.append_cancel_left_eq] at hunread
    rw [hunread, stops_cons] at hrest
    exact absurd hrest (by decide)

end

/-! ## Paths -/

/-- The three calls find a separator, `p` and a separator, and nothing is skipped between them; `t` follows. -/
structure Spells (h : Host) (p t : List Char) : Prop where
  start : h.Finds {Kind.namespaceStart} .namespaceStart [] ['\\']
  content : h.behindStart.Finds {Kind.namespaceContent} .namespaceContent [] p
  close : h.behindContent.Finds {Kind.namespaceEnd} .namespaceEnd [] ['\\']
  adjacent : ∃ a b c, (h.nextToken {Kind.namespaceStart}).1 = some a ∧
    (h.behindStart.nextToken {Kind.namespaceContent}).1 = some b ∧
    (h.behindContent.nextToken {Kind.namespaceEnd}).1 = some c ∧ a.stop = b.start ∧ b.stop = c.start
  rest : h.behindEnd.cursor.unread = t

section

variable {h : Host} (hsize : byteSize h.cursor.source < 2 ^ 32)

include hsize

theorem unread_behindStart {u : List Char} (hu : h.cursor.unread = separator :: u) : h.behindStart.cursor.unread = u := by
  have hunread := (finds_separator (.inl rfl) hsize hu).unread
  rw [hu] at hunread
  exact (List.cons.inj hunread).2.symm

theorem spells_of_enclosed {p t : List Char} (hu : h.cursor.unread = separator :: (p ++ separator :: t))
    (he : Enclosed p t) : Spells h p t := by
  have hstart : byteSize h.behindStart.cursor.source < 2 ^ 32 := by rwa [Host.behindStart, Host.source_nextToken]
  have hcontent : byteSize h.behindContent.cursor.source < 2 ^ 32 := by
    rwa [Host.behindContent, Host.source_nextToken]
  have hopened : h.behindStart.cursor.unread = p ++ separator :: t := unread_behindStart hsize hu
  have hfirst := finds_separator (.inl rfl) hsize hu
  have hsecond := finds_content hstart hopened he
  have hfilled : h.behindContent.cursor.unread = separator :: t := by
    have hunread := hsecond.unread
    rw [hopened, List.nil_append, List.append_cancel_left_eq] at hunread
    exact hunread.symm
  have hthird := finds_separator (.inr rfl) hcontent hfilled
  refine ⟨hfirst, hsecond, hthird, ⟨_, _, _, hfirst.token, hsecond.token, hthird.token, ?_, ?_⟩, ?_⟩
  · exact congrArg UInt32.ofNat hfirst.pos.symm
  · exact congrArg UInt32.ofNat hsecond.pos.symm
  · have hunread := hthird.unread
    rw [hfilled] at hunread
    exact (List.cons.inj hunread).2.symm

theorem enclosed_of_path_calls (hfirst : (h.nextToken {Kind.namespaceStart}).1.isSome = true)
    (hsecond : (h.behindStart.nextToken {Kind.namespaceContent}).1.isSome = true)
    (hthird : (h.behindContent.nextToken {Kind.namespaceEnd}).1.isSome = true) :
    ∃ p t, h.cursor.unread = separator :: (p ++ separator :: t) ∧ Enclosed p t := by
  obtain ⟨u, hu⟩ := head_of_isSome (.inl rfl) hfirst
  obtain ⟨v, hv⟩ := head_of_isSome (.inr rfl) hthird
  have hstart : byteSize h.behindStart.cursor.source < 2 ^ 32 := by rwa [Host.behindStart, Host.source_nextToken]
  obtain ⟨p, t, he, henclosed⟩ := enclosed_of_content_call hstart hsecond hv
  rw [unread_behindStart hsize hu] at he
  exact ⟨p, t, by rw [hu, he], henclosed⟩

end

/-- **Paths.** Wherever the cursor stands in a text of less than 2 ^ 32 bytes, the calls for the opening separator, for the
content and for the closing separator are all answered with a token exactly when a path stands there. Then the tokens
are the three parts of it, one right behind the other. -/
theorem tokens_of_path (h : Host) (hsize : byteSize h.cursor.source < 2 ^ 32) :
    ((h.nextToken {Kind.namespaceStart}).1.isSome = true ∧
        (h.behindStart.nextToken {Kind.namespaceContent}).1.isSome = true ∧
        (h.behindContent.nextToken {Kind.namespaceEnd}).1.isSome = true ↔
      ∃ p t, h.cursor.unread = '\\' :: (p ++ '\\' :: t) ∧ Enclosed p t) ∧
    ∀ p t, h.cursor.unread = '\\' :: (p ++ '\\' :: t) → Enclosed p t → Spells h p t := by
  refine ⟨⟨fun ⟨hfirst, hsecond, hthird⟩ => enclosed_of_path_calls hsize hfirst hsecond hthird, ?_⟩, ?_⟩
  · rintro ⟨p, t, hu, he⟩
    have hspells := spells_of_enclosed hsize hu he
    rw [hspells.start.token, hspells.content.token, hspells.close.token]
    exact ⟨rfl, rfl, rfl⟩
  · intro p t hu he
    exact spells_of_enclosed hsize hu he

/-- A path with a separator and a dollar sign in its content, in front of an operator. -/
theorem tokens_of_path_variable :
    Spells (Host.ofText default "\\$x\\y\\ = 1".toList) "$x\\y".toList " = 1".toList := by
  have hplain : "$x\\y".toList.all (fun c => !isTerminator c) = true := rfl
  refine (tokens_of_path _ (by decide)).2 _ _ rfl ⟨?_, by decide, by decide, by decide⟩
  intro c hc
  simpa [isTerminator_eq] using List.all_eq_true.1 hplain c hc

end Path

end IniScan
