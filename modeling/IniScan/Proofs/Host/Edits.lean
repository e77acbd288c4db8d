import IniScan.Proofs.Family.Offered
import IniScan.Proofs.Host.Unread
import IniScan.Proofs.Line.Between
import IniScan.Proofs.Reading.Local

/-!
# Edits elsewhere in the text

A host that reads an edited text again wants to keep the tokens that the edit has not touched. Two hosts stand in front of
texts that agree as far as a scan of the first goes, and in the character behind it. Then both go on alike, whatever
follows. Unless a boundary is asked for, the scan ends in its line, and then what is edited from the first line end on cannot
be noticed.

* `Scanner.local_read`, `Scanner.withinLine_read`: how much of the text the reading of a scanner depends on.
* `echoes_of_read`: two hosts with the same reading and the same text as far as it goes.
* `finds_within_line`: no token holds a line end.
* `edits_unseen`: edits that a scan does not notice.
-/
namespace IniScan

open Text

/-! ## Families and scanners -/

/-- What holds of the readings for a separator and for content holds of those for a part of a path. -/
theorem Path.read_of_readers {P : (List Char → Reading (Option Kind)) → Prop} (offered : KindSet)
    (hseparator : ∀ f : Bool → Option Kind, P fun unread => (separatorReader.read unread).map f)
    (hcontent : ∀ f : Bool → Option Kind, P fun unread => (contentReader.read unread).map f) :
    P (Path.read offered) := by
  unfold Path.read
  split
  · exact hseparator _
  split
  · exact hcontent _
  · exact hseparator _

namespace Family

theorem local_read (f : Family) (mode : MatchMode) (offered : KindSet) :
    Reading.Local fun unread => f.read mode offered unread := by
  cases f with
  | boundary =>
    simp only [read]
    exact Boundary.reader.local_read.map _
  | path =>
    exact Path.read_of_readers offered (fun f => Path.separatorReader.local_read.map f)
      (fun f => Path.contentReader.local_read.map f)
  | subject => exact Header.Subject.reader.local_read.map _
  | regexName => exact Header.RegexName.reader.local_read.map _
  | line => exact (Line.reader mode).local_read.map _

theorem withinLine_read {f : Family} (hf : f ≠ .boundary) (mode : MatchMode) (offered : KindSet) :
    Reading.WithinLine fun unread => f.read mode offered unread := by
  cases f with
  | boundary => exact absurd rfl hf
  | path =>
    exact Path.read_of_readers offered (fun f => separator_stops.withinLine.map f)
      (fun f => content_stops.withinLine.map f)
  | subject => exact subject_stops.withinLine.map _
  | regexName => exact regexName_stops.withinLine.map _
  | line => exact (line_stops mode).withinLine.map _

/-- Only a boundary that is asked for brings the reader of boundaries in. -/
theorem ne_boundary {offered : KindSet} {f : Family} (hn : Kind.lineBoundary ∉ offered) (hf : of? offered = some f) :
    f ≠ .boundary := by
  rintro rfl
  exact hn (meets_singleton.1 (meets_of_of? hf))

end Family

namespace Scanner

/-- What holds where nothing is read and of the readings of the family that is chosen holds of those of a scanner. -/
theorem read_of_families {P : (List Char → Reading (Option Kind)) → Prop} (s : Scanner) (offered : KindSet)
    (hnothing : P fun _ => ⟨none, []⟩)
    (hfamily : ∀ f, Family.of? offered = some f → P fun unread => f.read s.config.mode offered unread) :
    P (s.read offered) := by
  by_cases hs : Kind.errorSentinel ∈ offered
  · rwa [show s.read offered = _ from funext (s.read_of_recovering hs)]
  cases hf : Family.of? offered with
  | none => rwa [show s.read offered = _ from funext (s.read_of_no_family hf)]
  | some f =>
    rw [show s.read offered = _ from funext (s.read_of_family hs hf)]
    exact hfamily f hf

theorem local_read (s : Scanner) (offered : KindSet) : Reading.Local (s.read offered) :=
  s.read_of_families offered (Reading.local_nothing none) fun f _ => f.local_read s.config.mode offered

theorem withinLine_read (s : Scanner) {offered : KindSet} (hn : Kind.lineBoundary ∉ offered) :
    Reading.WithinLine (s.read offered) :=
  s.read_of_families offered (Reading.withinLine_nothing none) fun _ hf =>
    Family.withinLine_read (Family.ne_boundary hn hf) s.config.mode offered

/-- A reading that is not after a boundary goes past nothing but the line. -/
theorem take_advances_isPrefix (s : Scanner) {offered : KindSet} (hn : Kind.lineBoundary ∉ offered)
    (unread : List Char) :
    unread.take (s.read offered unread).advances <+: unread.takeWhile fun c => !isLineEnd c := by
  have hsplit : unread = (unread.takeWhile fun c => !isLineEnd c) ++ unread.dropWhile fun c => !isLineEnd c :=
    List.takeWhile_append_dropWhile.symm
  have hstops := stops_dropWhile (fun c => !isLineEnd c) unread
  generalize (unread.takeWhile fun c => !isLineEnd c) = front at hsplit ⊢
  generalize (unread.dropWhile fun c => !isLineEnd c) = rest at hsplit hstops
  cases rest with
  | nil =>
    rw [List.append_nil] at hsplit
    rw [hsplit]
    exact List.take_prefix _ _
  | cons c cs =>
    have hc : isLineEnd c = true := of_stops_not hstops
    have hle := (s.withinLine_read hn front cs cs hc hc).1
    rw [← hsplit] at hle
    generalize (s.read offered unread).advances = n at hle ⊢
    rw [hsplit, List.take_append_of_le_length hle]
    exact List.take_prefix _ _

end Scanner

namespace Host

/-! ## Two hosts -/

/-- The hosts go on alike: a scan of either finds the same kind by the same calls and goes past the same text, and a call
for a token answers with the same token but for the offset that the text begins at. -/
structure Echoes (g h : Host) (offered : KindSet) : Prop where
  kind : (h.scan offered).1 = (g.scan offered).1
  calls : (h.scanner.read offered h.cursor.unread).moves = (g.scanner.read offered g.cursor.unread).moves
  way : ∃ way, g.Goes (g.scan offered).2 way ∧ h.Goes (h.scan offered).2 way
  shifted : Token.Shifted g.cursor.pos h.cursor.pos (g.nextToken offered).1 (h.nextToken offered).1
  token : g.cursor.pos = h.cursor.pos → (h.nextToken offered).1 = (g.nextToken offered).1

section

variable {g h : Host} {offered : KindSet}

/-- The same reading finds the same token behind the same gap, since neither goes further than what was read. -/
theorem shifted_of_read {way rest rest' : List Char} (hg : byteSize g.cursor.source < 2 ^ 32)
    (hh : byteSize h.cursor.source < 2 ^ 32) (hgu : g.cursor.unread = way ++ rest)
    (hhu : h.cursor.unread = way ++ rest')
    (hway : (g.scanner.read offered g.cursor.unread).advances = way.length)
    (hread : h.scanner.read offered h.cursor.unread = g.scanner.read offered g.cursor.unread) :
    Token.Shifted g.cursor.pos h.cursor.pos (g.nextToken offered).1 (h.nextToken offered).1 := by
  cases hr : (g.scanner.read offered g.cursor.unread).outcome with
  | none =>
    rw [(rejects_of_read hr).token, (rejects_of_read (hread ▸ hr)).token]
    trivial
  | some k =>
    obtain ⟨a, b, hspans, -, -⟩ := Scanner.spans_read hr
    have hb : b ≤ way.length := hway ▸ hspans.le_advances
    have ha : a ≤ way.length := Nat.le_trans hspans.le hb
    have hlen : ∀ tail : List Char, b ≤ (way ++ tail).length := fun tail => by
      rw [List.length_append]
      omega
    have hgap : ∀ tail : List Char, (way ++ tail).take a = way.take a := fun _ => List.take_append_of_le_length ha
    have htext : ∀ tail : List Char, ((way ++ tail).drop a).take (b - a) = (way.drop a).take (b - a) := by
      intro tail
      rw [List.drop_append_of_le_length ha, List.take_append_of_le_length (by rw [List.length_drop]; omega)]
    have hgf := finds_of_spans hg hr hspans (hgu ▸ hlen rest)
    have hhf := finds_of_spans hh (hread ▸ hr) (hread ▸ hspans) (hhu ▸ hlen rest')
    rw [hgu, hgap, htext] at hgf
    rw [hhu, hgap, htext] at hhf
    exact shifted_of_finds hgf hhf

theorem echoes_of_read {way rest rest' : List Char} (hg : byteSize g.cursor.source < 2 ^ 32)
    (hh : byteSize h.cursor.source < 2 ^ 32) (hgu : g.cursor.unread = way ++ rest)
    (hhu : h.cursor.unread = way ++ rest')
    (hway : (g.scanner.read offered g.cursor.unread).advances = way.length)
    (hread : h.scanner.read offered h.cursor.unread = g.scanner.read offered g.cursor.unread) :
    g.Echoes h offered := by
  have hshift := shifted_of_read hg hh hgu hhu hway hread
  have htake : ∀ tail : List Char, (way ++ tail).take way.length = way := fun _ => List.take_left' rfl
  refine ⟨by rw [scan_eq, scan_eq, hread], by rw [hread], ⟨way, ?_, ?_⟩, hshift, ?_⟩
  · have hgoes := g.goes_scan offered
    rw [show Move.distance _ = way.length from hway] at hgoes
    rw [hgu, htake] at hgoes
    exact hgoes
  · have hgoes := h.goes_scan offered
    rw [hread, show Move.distance _ = way.length from hway, hhu, htake] at hgoes
    exact hgoes
  · intro hpos
    rw [← hpos] at hshift
    exact hshift.eq

/-! ## Tokens and line ends -/

theorem finds_within_line {t : Token} (hsize : byteSize h.cursor.source < 2 ^ 32)
    (ht : (h.nextToken offered).1 = some t) :
    ∃ gap text, h.Finds offered t.kind gap text ∧ ∀ c ∈ text, isLineEnd c = false := by
  have hread := h.kind_nextToken offered
  rw [ht, Option.map_some] at hread
  by_cases hn : Kind.lineBoundary ∈ offered
  · -- A boundary may lie behind line ends, but it takes none of them.
    obtain ⟨gap, hfinds⟩ := Boundary.finds_of_token hsize hn ht
    exact ⟨gap, [], hfinds, fun c hc => absurd hc List.not_mem_nil⟩
  · obtain ⟨a, b, hspans, hlen, -⟩ := Scanner.spans_read hread.symm
    refine ⟨_, _, finds_of_spans hsize hread.symm hspans hlen, fun c hc => ?_⟩
    have hway : c ∈ h.cursor.unread.take b := by
      rw [← Nat.add_sub_cancel' hspans.le, List.take_add]
      exact List.mem_append_right _ hc
    have hline := (h.scanner.take_advances_isPrefix hn h.cursor.unread).subset
      (List.take_subset_take_left _ hspans.le_advances hway)
    exact not_of_mem_takeWhile hline

/-- The text that a scan goes past is as much of the unread text as it advances. -/
theorem eq_take_of_goes {way : List Char} (hway : g.Goes (g.scan offered).2 way) :
    way = g.cursor.unread.take (g.scanner.read offered g.cursor.unread).advances ∧
      (g.scanner.read offered g.cursor.unread).advances = way.length := by
  have hgoes : g.Goes (g.scan offered).2 (g.cursor.unread.take (g.scanner.read offered g.cursor.unread).advances) :=
    g.goes_scan offered
  have hsame := hway.unread.symm.trans hgoes.unread
  rw [List.append_cancel_right_eq] at hsame
  refine ⟨hsame, ?_⟩
  rw [hsame, List.length_take]
  exact (Nat.min_eq_left ((g.scanner.local_read offered).advances_le _)).symm

end

/-- **Edits elsewhere go unseen.** Two hosts, with scanners in one mode, stand in front of different texts. They go on alike if
the texts agree as far as a scan of the first host goes, and in the character behind that or in having none. Unless a
boundary is asked for, no scan goes past a line end, and the hosts also go on alike if the texts agree up to a line end of
the first and any line end follows in the second. No token holds a line end. -/
theorem edits_unseen {g h : Host} (offered : KindSet) (hmode : h.scanner.config.mode = g.scanner.config.mode)
    (hg : byteSize g.cursor.source < 2 ^ 32) (hh : byteSize h.cursor.source < 2 ^ 32) :
    (∀ way rest, g.Goes (g.scan offered).2 way → h.cursor.unread = way ++ rest →
      rest.head? = (g.scan offered).2.cursor.unread.head? → g.Echoes h offered) ∧
    (Kind.lineBoundary ∉ offered →
      (g.scan offered).2.cursor.pos ≤ g.cursor.pos + byteSize (g.cursor.unread.takeWhile fun c => !isLineEnd c) ∧
      (∀ way, g.Goes (g.scan offered).2 way → ∀ c ∈ way, isLineEnd c = false) ∧
      ∀ front c d rest rest', isLineEnd c = true → isLineEnd d = true → g.cursor.unread = front ++ c :: rest →
        h.cursor.unread = front ++ d :: rest' → g.Echoes h offered) ∧
    ∀ t, (g.nextToken offered).1 = some t →
      ∃ text, t.text? g.cursor.source = some text ∧ ∀ c ∈ text, isLineEnd c = false := by
  refine ⟨?_, fun hn => ⟨?_, ?_, ?_⟩, ?_⟩
  · intro way rest hway hrest hhead
    obtain ⟨-, hlength⟩ := eq_take_of_goes hway
    have hlocal := (g.scanner.local_read offered).congr way (hway.unread ▸ hlength) hhead
    refine echoes_of_read hg hh hway.unread hrest hlength ?_
    rw [Scanner.read_eq_of_mode hmode, hrest, hlocal, ← hway.unread]
  · obtain ⟨tail, htail⟩ := g.scanner.take_advances_isPrefix hn g.cursor.unread
    rw [(g.goes_scan offered).pos, ← htail, byteSize_append]
    exact Nat.add_le_add_left (Nat.le_add_right _ _) _
  · intro way hway c hc
    obtain ⟨htake, -⟩ := eq_take_of_goes hway
    rw [htake] at hc
    exact not_of_mem_takeWhile ((g.scanner.take_advances_isPrefix hn g.cursor.unread).subset hc)
  · intro front c d rest rest' hc hd hgu hhu
    obtain ⟨hle, heq⟩ := g.scanner.withinLine_read hn front rest rest' hc hd
    rw [← hgu] at hle heq
    -- The texts agree in front of the line end, and so far as the scan goes in particular.
    have hsplit : ∀ b, front ++ b = front.take (g.scanner.read offered g.cursor.unread).advances ++
        (front.drop (g.scanner.read offered g.cursor.unread).advances ++ b) := fun b => by
      rw [← List.append_assoc, List.take_append_drop]
    refine echoes_of_read hg hh (hgu.trans (hsplit _)) (hhu.trans (hsplit _)) ?_ ?_
    · rw [List.length_take, Nat.min_eq_left hle]
    · rw [Scanner.read_eq_of_mode hmode, hhu, heq]
  · intro t ht
    obtain ⟨gap, text, hfinds, htext⟩ := finds_within_line hg ht
    obtain ⟨u, hu, -, hstart, hstop⟩ := hfinds.exists_token
    obtain rfl : t = u := Option.some.inj (ht.symm.trans hu)
    refine ⟨text, ?_, htext⟩
    rw [Token.text?, hstart, hstop]
    exact hfinds.slice_text

/-- A line is read again after the next one has been rewritten and its line end has become a CR LF pair. -/
theorem edits_unseen_next_line :
    let g := Host.ofText default " [Monkey] = 1\nx = 2".toList
    let h := Host.ofText default " [Monkey] = 1\r\n[Key]".toList
    (g.nextToken KindSet.line).1 = some ⟨.externalLine, 1, 13⟩ ∧
    (h.nextToken KindSet.line).1 = (g.nextToken KindSet.line).1 := by
  intro g h
  obtain ⟨-, hline, -⟩ := edits_unseen (g := g) (h := h) KindSet.line rfl (by decide) (by decide)
  obtain ⟨-, -, hedit⟩ := hline (by decide)
  have hechoes : g.Echoes h KindSet.line :=
    hedit " [Monkey] = 1".toList '\n' '\r' "x = 2".toList "\n[Key]".toList rfl rfl rfl rfl
  exact ⟨by decide, hechoes.token (by decide)⟩

end Host

end IniScan
