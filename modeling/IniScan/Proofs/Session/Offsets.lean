import IniScan.Proofs.Cursor.Ahead
import IniScan.Proofs.Host.Discipline
import IniScan.Proofs.Session.Insertion
import IniScan.Proofs.Session.TokenStream

/-!
# A session keeps to the text

A host may call for tokens, let a scanner read, consume text of its own and move the cursor by hand, all in any order, so the
notes of its cursor may be stale and out of order. Whatever it has done, the next step leaves the read position and the notes
between characters of the same text, never goes back, and takes no slice that is not there.

* `Host.nextTokenBytes?_eq`, `Session.stepBytes?_eq`: slices take a host to where characters do.
* `Session.within_of_reached`: the invariant of every session that is come to.
* `Session.keeps_to_text`: the step behind it.
-/
namespace IniScan

open Text

/-! ## Slices -/

namespace Cursor

theorem pass_length_take (c : Cursor) (n : Nat) : c.pass (c.unread.take n).length = c.pass n := by
  have htake : c.unread.take (c.unread.take n).length = c.unread.take n := by simp
  have hdrop : c.unread.drop (c.unread.take n).length = c.unread.drop n := by simp
  simp only [pass, htake, hdrop]

theorem advanceTo_pos_pass (c : Cursor) (n : Nat) : c.advanceTo (c.pass n).pos = c.pass n := by
  rw [pos_pass, c.advanceTo_of_append (List.take_append_drop n c.unread).symm, pass_length_take]

end Cursor

namespace Host

/-- The end of a pending token is the place behind some of the characters that were unread. -/
theorem exists_tokenEnd_eq (h : Host) (offered : KindSet) :
    ∃ n, (h.pending offered).tokenEnd = (h.cursor.pass n).pos := by
  obtain ⟨-, ⟨a, b, hspans⟩, -, -⟩ := h.scanner.disciplined_read offered h.cursor.unread
  obtain ⟨-, hstop⟩ := h.cursor.begin_follow hspans
  exact ⟨b, (h.tokenEnd_pending offered).trans hstop⟩

/-- From where the scan has led, the end of the token is found in the whole text. -/
theorem seek?_tokenEnd (h : Host) (offered : KindSet) : (h.pending offered).seek? (h.pending offered).tokenEnd =
    some ((h.cursor.advanceTo (h.pending offered).tokenEnd).noting (h.pending offered)) := by
  obtain ⟨n, hn⟩ := h.exists_tokenEnd_eq offered
  have hsource : (h.pending offered).source = (h.cursor.pass n).source := by
    rw [Cursor.source_pass]
    exact source_scan _ _
  rw [hn, Cursor.advanceTo_pos_pass]
  exact Cursor.seek?_pos hsource

theorem nextTokenBytes?_eq (h : Host) (offered : KindSet) : h.nextTokenBytes? offered = some (h.nextToken offered) := by
  have hseek := h.seek?_tokenEnd offered
  cases hk : (scan { h with cursor := h.cursor.begin } offered).1 with
  | none => simp only [nextTokenBytes?, nextToken, hk]
  | some k =>
    simp only [nextTokenBytes?, nextToken, hk]
    rw [pending] at hseek
    rw [hseek]
    rfl

end Host

theorem Session.stepBytes?_eq (s : Session) (x : Step) : s.stepBytes? x = some (s.step x) := by
  cases x with
  | nextToken offered =>
    rw [stepBytes?, Host.nextTokenBytes?_eq]
    rfl
  | bump t =>
    rw [stepBytes?, Cursor.bumpBytes?_eq]
    rfl
  | bumpIgnoreCase t =>
    rw [stepBytes?, Cursor.bumpBytesIgnoreCase?_eq]
    rfl
  | _ => rfl

/-! ## Going on -/

namespace Host

variable {h : Host} {source : List Char}

theorem ahead_scan (hw : h.cursor.Within source) (offered : KindSet) :
    Cursor.Ahead source h.cursor (h.scan offered).2.cursor := by
  rw [scan_eq]
  exact hw.ahead_follow _

/-- The scan that a call makes leaves its notes, and the call goes on to the end of the token or stays. -/
theorem ahead_nextToken (hw : h.cursor.Within source) (offered : KindSet) :
    Cursor.Ahead source h.cursor (h.nextToken offered).2.cursor := by
  have hscan := ahead_scan (h := { h with cursor := h.cursor.begin }) hw.begin offered
  cases hk : (scan { h with cursor := h.cursor.begin } offered).1 with
  | none =>
    simp only [nextToken, hk]
    exact ⟨hw.noting hscan.within, Nat.le_refl _⟩
  | some k =>
    simp only [nextToken, hk]
    have hgoes := hw.ahead_advanceTo (h.pending offered).tokenEnd
    exact ⟨hgoes.within.noting hscan.within, hgoes.pos_le⟩

theorem exists_text_of_token {offered : KindSet} {t : Token} (hsize : byteSize h.cursor.source < 2 ^ 32)
    (ht : (h.nextToken offered).1 = some t) : ∃ text, t.text? h.cursor.source = some text := by
  rcases h.finds_or_rejects offered hsize with hrejects | ⟨k, gap, text, hfinds, -⟩
  · rw [hrejects.token] at ht
    cases ht
  · obtain ⟨u, hu, -, hstart, hstop⟩ := hfinds.exists_token
    obtain rfl : t = u := Option.some.inj (ht.symm.trans hu)
    refine ⟨text, ?_⟩
    rw [Token.text?, hstart, hstop]
    exact hfinds.slice_text

end Host

namespace Session

/-- The sessions over the text that are come to by steps that go over it. Another scanner may take over at any time. -/
inductive Reached (source : List Char) : Session → Prop
  | new (scanner : Scanner) (saved : Host) : Reached source ⟨⟨scanner, Cursor.ofText source⟩, saved⟩
  | stepped {s : Session} {x : Step} : x.Reads → Reached source s → Reached source (s.step x).2
  | handed {s : Session} (scanner : Scanner) : Reached source s → Reached source (s.withScanner scanner)

variable {s : Session} {source : List Char} {x : Step}

theorem ahead_moveTo (h : s.host.cursor.Within source) {c : Option Cursor}
    (hc : ∀ d ∈ c, Cursor.Ahead source s.host.cursor d) :
    Cursor.Ahead source s.host.cursor (s.moveTo c).2.host.cursor := by
  cases c with
  | none => exact h.ahead_self
  | some d => exact hc d rfl

theorem ahead_step (h : s.host.cursor.Within source) (hx : x.Reads) :
    Cursor.Ahead source s.host.cursor (s.step x).2.host.cursor := by
  cases x, hx using Step.Reads.cases with
  | nextToken offered => exact Host.ahead_nextToken h offered
  | scan offered => exact Host.ahead_scan h offered
  | bump t => exact ahead_moveTo h fun d hd => h.ahead_bump? hd
  | bumpIgnoreCase t => exact ahead_moveTo h fun d hd => h.ahead_bumpIgnoreCase? hd
  | eatWhile p => exact h.ahead_pass _
  | move m => exact h.ahead_go m

theorem within_of_reached (h : s.Reached source) : s.host.cursor.Within source := by
  induction h with
  | new scanner saved => exact Cursor.within_ofText source
  | stepped hx _ ih => exact (ahead_step ih hx).within
  | handed scanner _ ih => exact ih

theorem moveTo_ne_token (s : Session) (c : Option Cursor) (t : Option Token) : (s.moveTo c).1 ≠ .token t := by
  cases c <;> exact nofun

/-- Only a call answers with a token. -/
theorem exists_call_of_token (hx : x.Reads) {t : Option Token} (ht : (s.step x).1 = .token t) :
    ∃ offered, x = .nextToken offered ∧ (s.host.nextToken offered).1 = t := by
  cases x, hx using Step.Reads.cases with
  | nextToken offered => exact ⟨offered, rfl, Answer.token.inj ht⟩
  | scan offered => cases ht
  | bump a => exact absurd ht (s.moveTo_ne_token _ t)
  | bumpIgnoreCase a => exact absurd ht (s.moveTo_ne_token _ t)
  | eatWhile p => cases ht
  | move m => cases ht

/-- What a step over the text leaves of it and of the cursor. -/
structure KeepsTo (source : List Char) (s : Session) (x : Step) : Prop where
  /-- No slice aborts, and by slices the host comes to where it comes to by characters. -/
  bytes : s.stepBytes? x = some (s.step x)
  source_eq : (s.step x).2.host.cursor.source = source
  forward : s.host.cursor.pos ≤ (s.step x).2.host.cursor.pos
  /-- What is unread is the text from the read position on. -/
  unread : ∃ front, splitAt? (s.step x).2.host.cursor.pos source = some (front, (s.step x).2.host.cursor.unread)
  pos : IsOffset source (s.step x).2.host.cursor.pos
  start : IsOffset source (s.step x).2.host.cursor.start
  stop : ∀ n ∈ (s.step x).2.host.cursor.stop, IsOffset source n
  within : (s.step x).2.host.cursor.pos ≤ byteSize source ∧ (s.step x).2.host.cursor.start ≤ byteSize source ∧
    ∀ n ∈ (s.step x).2.host.cursor.stop, n ≤ byteSize source
  /-- The text of a token is there, if its offsets are not cut off. -/
  text : byteSize source < 2 ^ 32 → ∀ t, (s.step x).1 = .token (some t) → ∃ text, t.text? source = some text

/-- **A host keeps to its text.** Whatever it has done in whatever order, a further step goes on or stays where it is, takes
no slice that aborts, and leaves all offsets between characters of the text, which does not change. -/
theorem keeps_to_text (h : s.Reached source) (hx : x.Reads) : s.KeepsTo source x := by
  have hbefore := within_of_reached h
  obtain ⟨hwithin, hforward⟩ := ahead_step hbefore hx
  refine ⟨s.stepBytes?_eq x, hwithin.source_eq, hforward, ⟨_, hwithin.splitAt?_pos⟩, hwithin.pos, hwithin.start,
    hwithin.stop, ⟨hwithin.pos.le, hwithin.start.le, fun n hn => (hwithin.stop n hn).le⟩, ?_⟩
  intro hsize t ht
  obtain ⟨offered, -, htoken⟩ := exists_call_of_token hx ht
  rw [← hbefore.source_eq] at hsize ⊢
  exact Host.exists_text_of_token hsize htoken

/-- A mark made by hand in front of a character of two bytes that is then skipped: the notes are out of order. -/
theorem keeps_to_text_stale :
    let s := ((ofText default "é [Key]".toList).run [.move .mark, .move .skip]).2
    s.host.cursor.start = 2 ∧ s.host.cursor.stop = some 0 ∧ s.KeepsTo "é [Key]".toList (.nextToken KindSet.line) := by
  intro s
  have hreached : s.Reached "é [Key]".toList :=
    .stepped (x := .move .skip) trivial (.stepped (x := .move .mark) trivial (.new (Scanner.ofConfig default) _))
  exact ⟨rfl, rfl, keeps_to_text hreached trivial⟩

end Session

end IniScan
