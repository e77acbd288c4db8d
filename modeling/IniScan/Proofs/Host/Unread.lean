import IniScan.Proofs.Cursor.Abreast
import IniScan.Proofs.Host.Calls

/-!
# Nothing but the unread text counts

Two hosts stand in front of the same text, each behind a text of its own. Their scanners compare names in the same way, and
that is all that they share: the words, the budgets and the notes of the cursors are any. Both go on alike. Afterwards
nothing is left of the difference between the words, unless the grammar is recovering, and then nothing has been touched.

* `Scanner.read_eq_of_mode`: of a scanner only the mode counts.
* `agree_of_read_eq`, `agree_of_takes`, `agree_of_rejects`: two hosts at one place of one text.
* `goes_scan`, `goes_of_finds`, `goes_of_rejects`: the text that a call goes past.
* `only_unread_counts`: two hosts.
-/
namespace IniScan

open Text

/-- Whatever the words hold and whatever the budgets are. -/
theorem Scanner.read_eq_of_mode {s t : Scanner} (h : s.config.mode = t.config.mode) (offered : KindSet)
    (unread : List Char) : s.read offered unread = t.read offered unread := by
  by_cases hs : Kind.errorSentinel ∈ offered
  · rw [s.read_of_recovering hs, t.read_of_recovering hs]
  cases hf : Family.of? offered with
  | none => rw [s.read_of_no_family hf, t.read_of_no_family hf]
  | some f => rw [s.read_of_family hs hf, t.read_of_family hs hf, h]

/-- Either both are missing, or both are there, of one kind and at the same distances from `p` and from `q`. -/
def Token.Shifted (p q : Nat) : Option Token → Option Token → Prop
  | none, none => True
  | some t, some u =>
    t.kind = u.kind ∧ t.start.toNat + q = u.start.toNat + p ∧ t.stop.toNat + q = u.stop.toNat + p
  | _, _ => False

/-- Tokens at the same distance from the same offset are the same. -/
theorem Token.Shifted.eq {p : Nat} {t u : Option Token} (h : Token.Shifted p p t u) : u = t := by
  cases t with
  | none =>
    cases u with
    | none => rfl
    | some u => exact h.elim
  | some t =>
    cases u with
    | none => exact h.elim
    | some u =>
      obtain ⟨kind, start, stop⟩ := t
      obtain ⟨kind', start', stop'⟩ := u
      obtain ⟨hkind, hstart, hstop⟩ := h
      simp only at hkind hstart hstop
      have hs : start' = start := UInt32.toNat_inj.1 (by omega)
      have he : stop' = stop := UInt32.toNat_inj.1 (by omega)
      rw [hkind, hs, he]

namespace Host

/-! ## Two hosts at one place -/

/-- The call gives both hosts the same token, and leaves them at one place. -/
structure Agree (g h : Host) (offered : KindSet) : Prop where
  token : (g.nextToken offered).1 = (h.nextToken offered).1
  place : (g.nextToken offered).2.cursor.Abreast (h.nextToken offered).2.cursor

section

variable {g h : Host} {offered : KindSet} (hplace : g.cursor.Abreast h.cursor)

include hplace

theorem agree_of_read_eq (hread : ∀ unread, g.scanner.read offered unread = h.scanner.read offered unread) :
    g.Agree h offered := by
  constructor <;> simp only [nextToken, scan_eq, hplace.begin_eq, hread]
  · split <;> rfl
  · split
    · exact (Cursor.abreast_noting _ _).trans ((hplace.advanceTo _).trans (Cursor.abreast_noting _ _).symm)
    · exact (Cursor.abreast_noting _ _).trans (hplace.trans (Cursor.abreast_noting _ _).symm)

theorem agree_of_takes {k : Kind} {gap text : List Char} (hg : g.Takes offered k gap text)
    (hh : h.Takes offered k gap text) : g.Agree h offered := by
  refine ⟨by rw [hg.token, hh.token, hplace.pos], by rw [hg.passed, hh.passed, hplace.passed], ?_⟩
  have hunread := hg.unread.symm.trans (hplace.unread.trans hh.unread)
  rw [List.append_cancel_left_eq, List.append_cancel_left_eq] at hunread
  exact hunread

theorem agree_of_rejects (hg : g.Rejects offered) (hh : h.Rejects offered) : g.Agree h offered :=
  ⟨by rw [hg.token, hh.token], by rw [hg.passed, hh.passed, hplace.passed],
    by rw [hg.unread, hh.unread, hplace.unread]⟩

end

/-! ## Two hosts in front of one text -/

/-- From `h` to `after` the cursor goes past `way`. -/
structure Goes (h after : Host) (way : List Char) : Prop where
  unread : h.cursor.unread = way ++ after.cursor.unread
  pos : after.cursor.pos = h.cursor.pos + byteSize way

theorem goes_scan (h : Host) (offered : KindSet) : h.Goes (h.scan offered).2
    (h.cursor.unread.take (Move.distance (h.scanner.read offered h.cursor.unread).moves)) := by
  have hplace := h.cursor.abreast_follow (h.scanner.read offered h.cursor.unread).moves
  rw [scan_eq]
  refine ⟨?_, ?_⟩
  · rw [hplace.unread, Cursor.unread_pass, List.take_append_drop]
  · rw [hplace.pos, Cursor.pos_pass]

theorem goes_of_finds {h : Host} {offered : KindSet} {k : Kind} {gap text : List Char}
    (hf : h.Finds offered k gap text) : h.Goes (h.nextToken offered).2 (gap ++ text) := by
  refine ⟨?_, ?_⟩
  · rw [List.append_assoc]
    exact hf.unread
  · rw [hf.pos, byteSize_append, Nat.add_assoc]

theorem goes_of_rejects {h : Host} {offered : KindSet} (hr : h.Rejects offered) :
    h.Goes (h.nextToken offered).2 [] := ⟨hr.unread.symm, hr.pos⟩

/-- Two tokens that are found behind gaps of one size and are of one size. -/
theorem shifted_of_finds {g h : Host} {offered : KindSet} {k : Kind} {gap text : List Char}
    (hg : g.Finds offered k gap text) (hh : h.Finds offered k gap text) :
    Token.Shifted g.cursor.pos h.cursor.pos (g.nextToken offered).1 (h.nextToken offered).1 := by
  obtain ⟨t, ht, hkind, hstart, hstop⟩ := hg.exists_token
  obtain ⟨u, hu, hkind', hstart', hstop'⟩ := hh.exists_token
  rw [ht, hu]
  exact ⟨hkind.trans hkind'.symm, by omega, by omega⟩

/-- What is left of the scanner behind a scan and behind a call for a token. -/
structure Settles (h : Host) (offered : KindSet) : Prop where
  /-- The word is empty and has dropped nothing, whether there is a token or not. -/
  emptied : Kind.errorSentinel ∉ offered →
    (h.scan offered).2.scanner = ⟨h.scanner.config, Word.empty⟩ ∧
    (h.nextToken offered).2.scanner = ⟨h.scanner.config, Word.empty⟩
  /-- During recovery the scanner is as it was, and the host has not been called. -/
  untouched : Kind.errorSentinel ∈ offered →
    (h.scanner.read offered h.cursor.unread).moves = [] ∧ h.scan offered = (none, h) ∧
    (h.nextToken offered).2.scanner = h.scanner

theorem settles (h : Host) (offered : KindSet) : h.Settles offered := by
  refine ⟨?_, ?_⟩
  · intro hs
    have hsettle : h.scanner.settle offered = ⟨h.scanner.config, Word.empty⟩ := by
      simp [Scanner.settle, Scanner.recovering, hs]
    rw [scanner_nextToken, scan_eq]
    exact ⟨hsettle, hsettle⟩
  · intro hs
    have hsettle : h.scanner.settle offered = h.scanner := by
      simp [Scanner.settle, Scanner.recovering, hs]
    rw [scanner_nextToken, scan_eq, h.scanner.read_of_recovering hs, hsettle]
    exact ⟨rfl, rfl, rfl⟩

/-- **Only the unread text counts.** Two hosts whose scanners have one mode and that stand in front of the same text, in
whatever state else they are, find the same kind by the same calls and go past the same text. The token of a call
is the same but for the offset that the text begins at. Then both words are empty, or both scanners are as they
were. -/
theorem only_unread_counts {g h : Host} (offered : KindSet) (hmode : g.scanner.config.mode = h.scanner.config.mode)
    (hunread : g.cursor.unread = h.cursor.unread) (hg : byteSize g.cursor.source < 2 ^ 32)
    (hh : byteSize h.cursor.source < 2 ^ 32) :
    ((g.scan offered).1 = (h.scan offered).1 ∧
      (g.scanner.read offered g.cursor.unread).moves = (h.scanner.read offered h.cursor.unread).moves ∧
      ∃ way, g.Goes (g.scan offered).2 way ∧ h.Goes (h.scan offered).2 way) ∧
    (Token.Shifted g.cursor.pos h.cursor.pos (g.nextToken offered).1 (h.nextToken offered).1 ∧
      ∃ way, g.Goes (g.nextToken offered).2 way ∧ h.Goes (h.nextToken offered).2 way) ∧
    g.Settles offered ∧ h.Settles offered := by
  have hread : g.scanner.read offered g.cursor.unread = h.scanner.read offered h.cursor.unread := by
    rw [Scanner.read_eq_of_mode hmode, hunread]
  refine ⟨⟨?_, by rw [hread], _, g.goes_scan offered, ?_⟩, ?_, g.settles offered, h.settles offered⟩
  · rw [scan_eq, scan_eq, hread]
  · rw [hread, hunread]
    exact h.goes_scan offered
  cases hr : (h.scanner.read offered h.cursor.unread).outcome with
  | none =>
    have hgr := rejects_of_read (hread ▸ hr : (g.scanner.read offered g.cursor.unread).outcome = none)
    have hhr := rejects_of_read hr
    rw [hgr.token, hhr.token]
    exact ⟨trivial, [], goes_of_rejects hgr, goes_of_rejects hhr⟩
  | some k =>
    obtain ⟨a, b, hspans, hlen, -⟩ := Scanner.spans_read hr
    have hgf := finds_of_spans hg (hread ▸ hr) (hread ▸ hspans) (hunread ▸ hlen)
    have hhf := finds_of_spans hh hr hspans hlen
    rw [hunread] at hgf
    exact ⟨shifted_of_finds hgf hhf, _, goes_of_finds hgf, goes_of_finds hhf⟩

/-- A part of a path and a word that has dropped a letter are left in one scanner, and nothing in the other. -/
theorem only_unread_counts_pattern :
    let word : Word := ⟨"pat".toList, 3, true⟩
    let g : Host := ⟨⟨⟨.exact, 0⟩, word⟩, ⟨"é[".toList, "A.pattern]".toList, 3, 9, some 1, rfl⟩⟩
    let h : Host := Host.ofText default "A.pattern]".toList
    g.cursor.unread = h.cursor.unread ∧ (h.nextToken KindSet.regex).1 = some ⟨.regexPattern, 0, 9⟩ ∧
    Token.Shifted 3 0 (g.nextToken KindSet.regex).1 (h.nextToken KindSet.regex).1 ∧
    (g.nextToken KindSet.regex).2.scanner.word = Word.empty := by
  intro word g h
  obtain ⟨-, ⟨hshift, -⟩, hsettles, -⟩ :=
    only_unread_counts (g := g) (h := h) KindSet.regex rfl rfl (by decide) (by decide)
  refine ⟨rfl, by decide, hshift, ?_⟩
  rw [(hsettles.emptied (by decide)).2]

end Host

end IniScan
