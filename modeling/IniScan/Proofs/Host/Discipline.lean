import IniScan.Proofs.Host.Edits
import IniScan.Proofs.Host.Loops
import IniScan.Proofs.Reading.Marked

/-!
# The discipline of host calls

The host here goes by its own notes and keeps a token from ending before it starts, so a call that is missing or out of
order would hardly show. Another host has only the calls to go by, and may: a scan never advances at the end of the text,
skips nothing once it has taken or marked something, makes a bounded number of calls, and marks every token but a separator.
The offsets of a token are then those of the last skip and of the last mark.

A reader keeps to the text by its form. That the scan does is said of the loops too, which might as well not.

* `Reading.Disciplined`: the calls of one reading, with `Scanner.disciplined_read` for every reading of a scanner.
* `Host.Disciplined`: the calls of one scan, at the cursor.
* `Host.Places`: how they place the token of a call for one.
* `scan_disciplined`: every scan, and every token.
-/
namespace IniScan

open Text

/-! ## Readings -/

/-- The calls keep to the text, in order and in number, and mark every token but a separator. -/
structure Reading.Disciplined (unread : List Char) (r : Reading (Option Kind)) : Prop where
  advances_le : r.advances ≤ unread.length
  spans : ∃ a b, r.Spans a b
  length_le : r.moves.length ≤ 2 * unread.length + 1
  mark_mem_iff : ∀ {k}, r.outcome = some k → (Move.mark ∈ r.moves ↔ k ≠ .namespaceStart ∧ k ≠ .namespaceEnd)

/-- Skips come before all else. -/
theorem Reading.Spans.skips_first {α : Type} {r : Reading α} {a b : Nat} (h : r.Spans a b) :
    r.moves.Pairwise fun m n => n = .skip → m = .skip := by
  obtain ⟨ms, hm, hn, -⟩ := h
  rw [hm, List.pairwise_append]
  refine ⟨?_, ?_, ?_⟩
  · exact List.pairwise_replicate.2 (Or.inr fun _ => rfl)
  · exact List.pairwise_of_forall_mem_list fun m _ n hmem hskip => absurd (hskip ▸ hmem) hn
  · intro m hmem n _ _
    exact List.eq_of_mem_replicate hmem

namespace Family

theorem length_moves_le (f : Family) (mode : MatchMode) (offered : KindSet) (unread : List Char) :
    (f.read mode offered unread).moves.length ≤ 2 * unread.length + 1 := by
  cases f with
  | boundary => exact Boundary.reader.length_moves_le _ unread
  | path =>
    exact Path.read_of_readers (P := fun read => ∀ unread, (read unread).moves.length ≤ 2 * unread.length + 1) offered
      (fun _ => Path.separatorReader.length_moves_le _) (fun _ => Path.contentReader.length_moves_le _) unread
  | subject => exact Header.Subject.reader.length_moves_le _ unread
  | regexName => exact Header.RegexName.reader.length_moves_le _ unread
  | line => exact (Line.reader mode).length_moves_le _ unread

/-- Separators are parts of paths alone. -/
theorem ne_separator_of_mem_kinds {f : Family} {k : Kind} (hf : f ≠ .path) (hk : k ∈ f.kinds) :
    k ≠ .namespaceStart ∧ k ≠ .namespaceEnd := by
  constructor <;> rintro rfl <;> cases f <;> first | exact hf rfl | exact absurd hk (by decide)

theorem mark_mem_iff {f : Family} {mode : MatchMode} {offered : KindSet} {unread : List Char} {k : Kind}
    (h : (f.read mode offered unread).outcome = some k) :
    Move.mark ∈ (f.read mode offered unread).moves ↔ k ≠ .namespaceStart ∧ k ≠ .namespaceEnd := by
  have hk := mem_kinds_of_read h
  cases f with
  | boundary => exact iff_of_true (boundary_marking.mark_mem trivial) (ne_separator_of_mem_kinds (by decide) hk)
  | subject => exact iff_of_true (subject_marking.mark_mem trivial) (ne_separator_of_mem_kinds (by decide) hk)
  | regexName => exact iff_of_true (regexName_marking.mark_mem trivial) (ne_separator_of_mem_kinds (by decide) hk)
  | line => exact iff_of_true ((line_marking mode).mark_mem trivial) (ne_separator_of_mem_kinds (by decide) hk)
  | path =>
    cases Path.found_of_read h with
    | start _ hmoves =>
      rw [show (read _ _ _ .path).moves = _ from hmoves]
      exact iff_of_false (separator_not_marked false unread) fun hne => hne.1 rfl
    | content _ hmoves hfound =>
      rw [show (read _ _ _ .path).moves = _ from hmoves]
      exact iff_of_true (content_marking.mark_mem hfound) (by decide)
    | close _ _ hmoves =>
      rw [show (read _ _ _ .path).moves = _ from hmoves]
      exact iff_of_false (separator_not_marked false unread) fun hne => hne.2 rfl

theorem disciplined_read (f : Family) (mode : MatchMode) (offered : KindSet) (unread : List Char) :
    Reading.Disciplined unread (f.read mode offered unread) := by
  obtain ⟨a, b, hspans, -, -⟩ := f.spans_read mode offered unread
  exact ⟨(f.local_read mode offered).advances_le unread, ⟨a, b, hspans⟩, f.length_moves_le mode offered unread,
    mark_mem_iff⟩

end Family

theorem Reading.disciplined_nothing (unread : List Char) : Disciplined unread ⟨none, []⟩ :=
  ⟨Nat.zero_le _, ⟨0, 0, [], rfl, List.not_mem_nil, rfl⟩, Nat.zero_le _, nofun⟩

theorem Scanner.disciplined_read (s : Scanner) (offered : KindSet) (unread : List Char) :
    Reading.Disciplined unread (s.read offered unread) :=
  s.read_of_families (P := fun read => ∀ unread, Reading.Disciplined unread (read unread)) offered
    Reading.disciplined_nothing (fun f _ => f.disciplined_read s.config.mode offered) unread

namespace Host

/-! ## Scans -/

/-- The calls that one scan makes. -/
def calls (h : Host) (offered : KindSet) : List Move := (h.scanner.call offered h.cursor.unread).1.moves

/-- What a host can rely on in the calls of one scan. -/
structure Disciplined (h : Host) (offered : KindSet) : Prop where
  /-- Nothing else moves the cursor or sets its notes. -/
  follows : (h.scan offered).2.cursor = h.cursor.follow (h.calls offered)
  /-- The loops that peek and call find the same with these calls, and none of them comes too late. -/
  loops : h.scanner.scan offered (Ledger.ofCursor h.cursor) =
    (((h.scan offered).1, (h.scan offered).2.scanner), ⟨(h.scan offered).2.cursor, h.calls offered, false⟩)
  /-- A character is there wherever a call goes past one. -/
  within : ∀ before m after, h.calls offered = before ++ m :: after → m ≠ .mark → (h.cursor.follow before).unread ≠ []
  /-- The scan goes past as many characters as calls do. -/
  goes : ∃ way, h.Goes (h.scan offered).2 way ∧ way.length = Move.distance (h.calls offered)
  /-- In front of a skip stand only skips. -/
  skips_first : (h.calls offered).Pairwise fun m n => n = .skip → m = .skip
  length_le : (h.calls offered).length ≤ 2 * h.cursor.unread.length + 1
  /-- What is found is marked, unless it is a separator. -/
  mark_mem_iff : ∀ k, (h.scan offered).1 = some k →
    (Move.mark ∈ h.calls offered ↔ k ≠ .namespaceStart ∧ k ≠ .namespaceEnd)

theorem disciplined (h : Host) (offered : KindSet) : h.Disciplined offered := by
  obtain ⟨hadvances, ⟨a, b, hspans⟩, hlength, hmark⟩ := h.scanner.disciplined_read offered h.cursor.unread
  refine ⟨rfl, h.scanner.scan_eq offered _, ?_, ?_, hspans.skips_first, hlength, fun k hk => hmark hk⟩
  · intro before m after hcalls hm
    have hle : Move.distance (before ++ m :: after) ≤ h.cursor.unread.length := by
      rw [← hcalls]
      exact hadvances
    exact h.cursor.unread_follow_ne_nil hm hle
  · exact ⟨_, h.goes_scan offered, List.length_take_of_le hadvances⟩

/-! ## Tokens -/

/-- The cursor behind the scan that a call for a token makes. -/
def pending (h : Host) (offered : KindSet) : Cursor := (scan { h with cursor := h.cursor.begin } offered).2.cursor

/-- The token is placed by the calls of the scan that finds it. -/
structure Places (h : Host) (offered : KindSet) (t : Token) : Prop where
  /-- It starts behind the last skip. -/
  start_behind : ∀ before after, h.calls offered = before ++ .skip :: after → Move.skip ∉ after →
    t.start.toNat = (h.cursor.follow (before ++ [.skip])).pos
  start_here : Move.skip ∉ h.calls offered → t.start.toNat = h.cursor.pos
  /-- It ends at the last mark. -/
  stop_marked : t.kind ≠ .namespaceStart → t.kind ≠ .namespaceEnd → ∃ before after,
    h.calls offered = before ++ .mark :: after ∧ Move.mark ∉ after ∧ t.stop.toNat = (h.cursor.follow before).pos
  /-- A separator is not marked, and ends where the scan does. -/
  stop_here : t.kind = .namespaceStart ∨ t.kind = .namespaceEnd →
    Move.mark ∉ h.calls offered ∧ t.stop.toNat = (h.scan offered).2.cursor.pos
  /-- The end is that of the pending token, which is kept from lying before its start. -/
  stop_pending : t.stop.toNat = (h.pending offered).tokenEnd
  /-- It never has to be. -/
  unclamped : (h.pending offered).tokenEnd = (h.pending offered).stop.getD (h.pending offered).pos

theorem pending_eq (h : Host) (offered : KindSet) : h.pending offered = h.cursor.begin.follow (h.calls offered) := rfl

theorem token_nextToken (h : Host) (offered : KindSet) : (h.nextToken offered).1 = (h.scan offered).1.map fun k =>
    ⟨k, UInt32.ofNat (h.pending offered).start, UInt32.ofNat (h.pending offered).tokenEnd⟩ := by
  cases hr : (h.scanner.read offered h.cursor.unread).outcome <;> simp [nextToken, pending, scan_eq, Cursor.begin, hr]

theorem tokenEnd_pending (h : Host) (offered : KindSet) :
    (h.pending offered).tokenEnd = (h.pending offered).stop.getD (h.pending offered).pos := by
  obtain ⟨-, ⟨a, b, hspans⟩, -, -⟩ := h.scanner.disciplined_read offered h.cursor.unread
  exact h.cursor.tokenEnd_begin_follow hspans

/-- The notes on a token are places on the way, so neither is cut off. -/
theorem pending_fits {h : Host} (hsize : byteSize h.cursor.source < 2 ^ 32) (offered : KindSet) :
    (h.pending offered).start < 2 ^ 32 ∧ (h.pending offered).tokenEnd < 2 ^ 32 := by
  obtain ⟨-, ⟨a, b, hspans⟩, -, -⟩ := h.scanner.disciplined_read offered h.cursor.unread
  obtain ⟨hstart, hstop⟩ := h.cursor.begin_follow hspans
  have hfits : ∀ n, (h.cursor.pass n).pos < 2 ^ 32 := fun n => by
    have := (h.cursor.pass n).pos_le_size
    rw [Cursor.source_pass] at this
    omega
  refine ⟨?_, ?_⟩
  · exact Nat.lt_of_le_of_lt (Nat.le_of_eq hstart) (hfits a)
  · exact Nat.lt_of_le_of_lt (Nat.le_of_eq ((h.tokenEnd_pending offered).trans hstop)) (hfits b)

theorem places_of_token {h : Host} {offered : KindSet} {t : Token} (hsize : byteSize h.cursor.source < 2 ^ 32)
    (ht : (h.nextToken offered).1 = some t) : h.Places offered t := by
  rw [token_nextToken] at ht
  obtain ⟨k, hk, rfl⟩ := Option.map_eq_some_iff.1 ht
  have hmark := (h.disciplined offered).mark_mem_iff k hk
  have hplace := h.cursor.abreast_begin.follow
  obtain ⟨hfits, hfits'⟩ := pending_fits hsize offered
  have hstart := UInt32.toNat_ofNat_of_lt' hfits
  have hstop := UInt32.toNat_ofNat_of_lt' hfits'
  refine ⟨?_, ?_, ?_, ?_, hstop, h.tokenEnd_pending offered⟩
  · intro before after hcalls hskip
    rw [hstart, pending_eq, hcalls, Cursor.start_follow_append_skip _ _ hskip]
    exact (hplace _).pos
  · intro hskip
    rw [hstart, pending_eq, Cursor.start_follow_of_no_skip _ hskip]
    rfl
  · intro hnotStart hnotEnd
    obtain ⟨before, after, hcalls, hafter⟩ := exists_last_of_mem (hmark.2 ⟨hnotStart, hnotEnd⟩)
    refine ⟨before, after, hcalls, hafter, ?_⟩
    rw [hstop, tokenEnd_pending, pending_eq, hcalls, Cursor.stop_follow_append_mark _ _ hafter]
    exact (hplace _).pos
  · intro hseparator
    have hunmarked : Move.mark ∉ h.calls offered := fun hmem =>
      hseparator.elim (hmark.1 hmem).1 (hmark.1 hmem).2
    refine ⟨hunmarked, ?_⟩
    rw [hstop, tokenEnd_pending, pending_eq, Cursor.stop_follow_of_no_mark _ hunmarked]
    exact (hplace _).pos

/-- **The discipline of host calls.** Whatever is configured and offered and wherever the cursor stands, a scan keeps to
the text and to the order of calls, and marks what it finds. So the calls place the token, as the host does, and its end
never has to be kept behind its start. -/
theorem scan_disciplined (h : Host) (offered : KindSet) : h.Disciplined offered ∧
    (byteSize h.cursor.source < 2 ^ 32 → ∀ t, (h.nextToken offered).1 = some t → h.Places offered t) :=
  ⟨h.disciplined offered, fun hsize _ ht => places_of_token hsize ht⟩

/-- The start of a header is placed behind the blank and in front of the bracket, although the scan goes on to the name. -/
theorem scan_disciplined_header :
    let h := Host.ofText default " [Key] x".toList
    h.calls KindSet.line = [.skip, .mark, .take, .take, .take, .take] ∧ h.Disciplined KindSet.line ∧
    h.Places KindSet.line ⟨.headerStart, 1, 1⟩ := by
  intro h
  obtain ⟨hdisciplined, hplaces⟩ := scan_disciplined h KindSet.line
  exact ⟨by decide, hdisciplined, hplaces (by decide) _ (by decide)⟩

end Host

end IniScan
