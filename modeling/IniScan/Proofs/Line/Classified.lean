import IniScan.Proofs.Host.Edits
import IniScan.Proofs.Text.Case

/-!
# How a call resolves a line

A call that comes to the reader of lines resolves what stands at the cursor to one kind at one place. The place is counted from
where the text of the line begins, behind its blanks, and content goes up to the line end. The kind and the place do not depend
on what is offered. That decides whether they are handed out, or the call leaves the cursor where it stands.

* `resolves_shape`: the shape of the text, as a kind and two offsets.
* `pos_scan_of_content`: all that is read of content is in its token.
* `line_classified`: the four sorts of lines.
-/
namespace IniScan

open Text Header

namespace Cursor

/-- The offset of the first character that is no blank, or of the end of the text. -/
def textStart (c : Cursor) : Nat := c.pos + byteSize (Line.indent c.unread)

/-- The offset of the first line end behind `textStart`, or of the end of the text. -/
def textStop (c : Cursor) : Nat := c.textStart + byteSize (Line.text c.unread)

end Cursor

namespace Line

variable {mode : MatchMode} {u : List Char}

/-- The blanks at the start of a line are part of it. -/
theorem takeWhile_line (u : List Char) : (u.takeWhile fun c => !isLineEnd c) = indent u ++ text u := by
  have hline : ∀ c ∈ indent u ++ text u, (!isLineEnd c) = true := by
    intro c hc
    rcases List.mem_append.1 hc with hc | hc
    · rw [not_isLineEnd_of_isBlank (isBlank_of_mem_indent hc)]
      rfl
    · rw [not_isLineEnd_of_mem_text hc]
      rfl
  conv => lhs; rw [← indent_append_line u, ← List.append_assoc]
  exact takeWhile_append_of_stops hline (behind_stops u)

/-! ## The shapes of the text -/

theorem text_of_dropWhile {c : Char} {s : List Char} (hu : u.dropWhile isBlank = c :: s) (hc : isLineEnd c = false) :
    text u = c :: s.takeWhile fun c => !isLineEnd c := by
  rw [text, hu, List.takeWhile_cons_of_pos (by rw [hc]; rfl)]

theorem shape_text_comment (mode : MatchMode) (hu : (u.dropWhile isBlank).head? = some ';') :
    shape mode (text u) = (.externalLine, []) := by
  obtain ⟨s, hs⟩ := List.head?_eq_some_iff.1 hu
  rw [text_of_dropWhile hs (by decide), shape_comment]

theorem shape_text_header {s : List Char} (hu : u.dropWhile isBlank = '[' :: s) (hs : isHeader mode s = true) :
    shape mode (text u) = (.headerStart, []) := by
  rw [text_of_dropWhile hu (by decide), shape_bracket, isHeader_takeWhile, if_pos hs]

theorem shape_text_content (hne : text u ≠ []) (hcomment : (u.dropWhile isBlank).head? ≠ some ';')
    (hheader : ∀ s, u.dropWhile isBlank = '[' :: s → isHeader mode s = false) :
    shape mode (text u) = (.externalLine, text u) := by
  cases hu : u.dropWhile isBlank with
  | nil =>
    rw [text, hu] at hne
    exact absurd rfl hne
  | cons c s =>
    have hc : isLineEnd c = false := by
      cases hend : isLineEnd c with
      | false => rfl
      | true =>
        rw [text, hu, List.takeWhile_cons_of_neg (by simp [hend])] at hne
        exact absurd rfl hne
    rw [text_of_dropWhile hu hc]
    by_cases hbracket : c = '['
    · subst hbracket
      rw [shape_bracket, isHeader_takeWhile, hheader s hu, if_neg Bool.false_ne_true]
    · refine shape_content mode ?_ hbracket _
      rintro rfl
      exact hcomment (by rw [hu]; rfl)

end Line

namespace Host

/-- A call resolves to a kind at a place: it answers with that token and the cursor goes to its end if the kind is offered,
and else there is no token and the cursor stays where it is. -/
structure Resolves (h : Host) (offered : KindSet) (k : Kind) (start stop : Nat) : Prop where
  returned : k ∈ offered → ∃ t, (h.nextToken offered).1 = some t ∧ t.kind = k ∧ t.start.toNat = start ∧
    t.stop.toNat = stop ∧ (h.nextToken offered).2.cursor.pos = stop
  rejected : k ∉ offered → (h.nextToken offered).1 = none ∧ (h.nextToken offered).2.cursor.pos = h.cursor.pos

section

variable {h : Host} {offered : KindSet}

theorem resolves_shape (hsize : byteSize h.cursor.source < 2 ^ 32) (hs : Kind.errorSentinel ∉ offered)
    (hf : Family.of? offered = some .line) :
    h.Resolves offered (Line.shape h.scanner.config.mode (Line.text h.cursor.unread)).1 h.cursor.textStart
      (h.cursor.textStart + byteSize (Line.shape h.scanner.config.mode (Line.text h.cursor.unread)).2) := by
  have hu := (Line.indent_append_line h.cursor.unread).symm
  have hblank : ∀ c ∈ Line.indent h.cursor.unread, isBlank c = true := fun _ => Line.isBlank_of_mem_indent
  have htext : ∀ c ∈ Line.text h.cursor.unread, isLineEnd c = false := fun _ => Line.not_isLineEnd_of_mem_text
  refine ⟨fun hk => ?_, fun hk => ?_⟩
  · have hfinds := Line.finds_shape hsize hs hf hu hblank htext (Line.text_stops _) (Line.behind_stops _) hk
    obtain ⟨t, ht, hkind, hstart, hstop⟩ := hfinds.exists_token
    exact ⟨t, ht, hkind, hstart, hstop, hfinds.pos⟩
  · have hrejects := Line.rejects_shape hs hf hu hblank htext (Line.text_stops _) (Line.behind_stops _) hk
    exact ⟨hrejects.token, hrejects.pos⟩

/-- What is read of content, whether by a probe or behind it, is the text of the line and no more. -/
theorem pos_scan_of_content (hs : Kind.errorSentinel ∉ offered) (hf : Family.of? offered = some .line)
    (hshape : (Line.shape h.scanner.config.mode (Line.text h.cursor.unread)).2 = Line.text h.cursor.unread) :
    (h.scan offered).2.cursor.pos = h.cursor.textStop := by
  have hn : Kind.lineBoundary ∉ offered := by
    intro hmem
    rw [Family.of?_of_boundary hmem] at hf
    cases hf
  have hu := (Line.indent_append_line h.cursor.unread).symm
  have hblank : ∀ c ∈ Line.indent h.cursor.unread, isBlank c = true := fun _ => Line.isBlank_of_mem_indent
  have htext : ∀ c ∈ Line.text h.cursor.unread, isLineEnd c = false := fun _ => Line.not_isLineEnd_of_mem_text
  -- The reading gets as far as its token does, and the end of the line is as far as any reading gets.
  obtain ⟨-, hspans⟩ := Line.read_line h.scanner.config.mode hblank htext (Line.text_stops _) (Line.behind_stops _)
  have hfar : (Line.indent h.cursor.unread ++ Line.text h.cursor.unread).length ≤
      (h.scanner.read offered h.cursor.unread).advances := by
    rw [hshape] at hspans
    rw [Line.read_eq_map hs hf hu, List.length_append]
    exact hspans.le_advances
  have hprefix := h.scanner.take_advances_isPrefix hn h.cursor.unread
  rw [Line.takeWhile_line] at hprefix
  have hlength : (h.cursor.unread.take (h.scanner.read offered h.cursor.unread).advances).length =
      (h.scanner.read offered h.cursor.unread).advances := by
    rw [List.length_take]
    exact Nat.min_eq_left ((h.scanner.local_read offered).advances_le _)
  have hway := hprefix.eq_of_length_le (Nat.le_trans hfar (Nat.le_of_eq hlength.symm))
  rw [(h.goes_scan offered).pos, show Move.distance _ = (h.scanner.read offered h.cursor.unread).advances from rfl, hway,
    byteSize_append, ← Nat.add_assoc]
  rfl

/-- **Four sorts of lines.** A call that comes to the reader of lines resolves

* a line without text to content of no width,
* a comment to content of no width,
* a `[` that the probe finds a section name behind to the start of a header, of no width,
* any other text to content up to the end of the line, of which the probe, if it comes to one, has read nothing more,

each where the text of the line begins. -/
theorem line_classified {h : Host} {offered : KindSet} (hsize : byteSize h.cursor.source < 2 ^ 32)
    (hs : Kind.errorSentinel ∉ offered) (hf : Family.of? offered = some .line) :
    (h.cursor.textStart = h.cursor.textStop →
      h.Resolves offered .externalLine h.cursor.textStart h.cursor.textStart) ∧
    ((h.cursor.unread.dropWhile isBlank).head? = some ';' →
      h.Resolves offered .externalLine h.cursor.textStart h.cursor.textStart) ∧
    (∀ s, h.cursor.unread.dropWhile isBlank = '[' :: s → isHeader h.scanner.config.mode s = true →
      h.Resolves offered .headerStart h.cursor.textStart h.cursor.textStart) ∧
    (h.cursor.textStart ≠ h.cursor.textStop → (h.cursor.unread.dropWhile isBlank).head? ≠ some ';' →
      (∀ s, h.cursor.unread.dropWhile isBlank = '[' :: s → isHeader h.scanner.config.mode s = false) →
      h.Resolves offered .externalLine h.cursor.textStart h.cursor.textStop ∧
        (h.scan offered).2.cursor.pos = h.cursor.textStop) := by
  have hresolves := resolves_shape hsize hs hf
  refine ⟨fun hblank => ?_, fun hcomment => ?_, fun s hbracket hheader => ?_, fun hne hcomment hheader => ?_⟩
  · have htext : Line.text h.cursor.unread = [] := by
      apply eq_nil_of_byteSize
      rw [Cursor.textStop] at hblank
      omega
    rwa [htext] at hresolves
  · rwa [Line.shape_text_comment _ hcomment] at hresolves
  · rwa [Line.shape_text_header hbracket hheader] at hresolves
  · have htext : Line.text h.cursor.unread ≠ [] := by
      intro hnil
      rw [Cursor.textStop, hnil] at hne
      exact hne rfl
    have hshape := Line.shape_text_content htext hcomment hheader
    rw [hshape] at hresolves
    exact ⟨hresolves, pos_scan_of_content hs hf (by rw [hshape])⟩

/-- A header without a section name is content with what the probe has read of it, and a header that is not asked for is
not content instead. -/
theorem line_classified_bracket :
    let h := Host.ofText default "  [Monkey] ; x\n".toList
    let g := Host.ofText default "[Key]".toList
    h.Resolves KindSet.line .externalLine 2 14 ∧ (g.nextToken {Kind.externalLine}).1 = none := by
  intro h g
  obtain ⟨-, -, -, hcontent⟩ := @line_classified h KindSet.line (by decide) (by decide) (by decide)
  obtain ⟨-, -, hheader, -⟩ := @line_classified g {Kind.externalLine} (by decide) (by decide) (by decide)
  refine ⟨(hcontent (by decide) (by decide) ?_).1, ((hheader "Key]".toList rfl (by decide)).rejected (by decide)).1⟩
  intro s hs
  obtain rfl : "Monkey] ; x\n".toList = s := (List.cons.inj hs).2
  decide

end

end Host

end IniScan
