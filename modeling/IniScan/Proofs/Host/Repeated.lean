import IniScan.Proofs.Family.Offered
import IniScan.Proofs.Host.Unread
import IniScan.Proofs.Line.Between
import IniScan.Proofs.Line.Shape

/-!
# The same call once more

A host may ask again for what it has just been answered. A call that leaves the cursor where it is leaves the next one nothing
new to read, so it is answered in the same way for ever (`Stays`). Calls for boundaries and for lines come to that point after
one call: the second may still be answered differently, but it does not move.

* `Stays.again`: calls behind a call that does not move.
* `settlesBehind_white`: the first two calls for a boundary.
* `finds_again_of_token`: the second call for a line.
* `calls_settle`: any number of calls.
-/
namespace IniScan.Host

open Text

/-- The host behind `n` calls for a token that all offer these kinds. -/
def again (h : Host) (offered : KindSet) : Nat → Host
  | 0 => h
  | n + 1 => ((h.again offered n).nextToken offered).2

section

variable {h : Host} {offered : KindSet}

theorem again_succ (h : Host) (offered : KindSet) (n : Nat) :
    h.again offered (n + 1) = (h.nextToken offered).2.again offered n := by
  induction n with
  | zero => rfl
  | succ n ih => rw [again, ih, again]

/-! ## Calls that do not move -/

/-- A call leaves the cursor where it is. -/
def Stays (h : Host) (offered : KindSet) : Prop := (h.nextToken offered).2.cursor.Abreast h.cursor

theorem Rejects.stays (hr : h.Rejects offered) : h.Stays offered := ⟨hr.passed, hr.unread⟩

theorem Finds.stays {k : Kind} (hf : h.Finds offered k [] []) : h.Stays offered := ⟨hf.passed, hf.unread.symm⟩

/-- The next call reads the same text and does not move either. -/
theorem Stays.next (hs : h.Stays offered) : (h.nextToken offered).2.Stays offered ∧
    ((h.nextToken offered).2.nextToken offered).1 = (h.nextToken offered).1 := by
  have hmode : (h.nextToken offered).2.scanner.config.mode = h.scanner.config.mode := by rw [config_nextToken]
  have hagree : (h.nextToken offered).2.Agree h offered := agree_of_read_eq hs (Scanner.read_eq_of_mode hmode offered)
  exact ⟨hagree.place, hagree.token⟩

theorem Stays.again (hs : h.Stays offered) (n : Nat) : (h.again offered n).Stays offered ∧
    (h.again offered n).cursor.Abreast h.cursor ∧ ((h.again offered n).nextToken offered).1 = (h.nextToken offered).1 := by
  induction n with
  | zero => exact ⟨hs, Cursor.Abreast.refl _, rfl⟩
  | succ n ih =>
    obtain ⟨hstays, habreast, hanswer⟩ := ih
    obtain ⟨hnext, hsame⟩ := hstays.next
    exact ⟨hnext, Cursor.Abreast.trans hstays habreast, hsame.trans hanswer⟩

/-! ## Boundaries -/

/-- How the first two calls for a boundary are answered in front of the white space `w`. -/
structure SettlesBehind (h : Host) (offered : KindSet) (w : List Char) : Prop where
  answered : (h.nextToken offered).1.isSome = true ↔ (∃ c ∈ w, isLineEnd c = true) ∨ w = h.cursor.unread
  finds : (h.nextToken offered).1.isSome = true → h.Finds offered .lineBoundary w []
  rejects : (h.nextToken offered).1 = none → h.Rejects offered
  /-- The boundary of a text that goes on is found once. -/
  once : (h.nextToken offered).1.isSome = true → (h.nextToken offered).2.cursor.unread ≠ [] →
    (h.nextToken offered).2.Rejects offered
  /-- The boundary at the end of the text is found for ever. -/
  ever : (h.nextToken offered).2.cursor.unread = [] → (h.nextToken offered).2.Finds offered .lineBoundary [] [] ∧
    ((h.nextToken offered).2.nextToken offered).1 = (h.nextToken offered).1

/-- Behind white space a call for a boundary finds one only at the end of the text. -/
theorem call_behind_white (hsize : byteSize h.cursor.source < 2 ^ 32) (hs : Kind.errorSentinel ∉ offered)
    (ho : Kind.lineBoundary ∈ offered) (hr : Stops isWhite h.cursor.unread) :
    (h.cursor.unread ≠ [] → h.Rejects offered) ∧ (h.cursor.unread = [] → h.Finds offered .lineBoundary [] []) := by
  have hu : h.cursor.unread = [] ++ h.cursor.unread := rfl
  have hnil : ∀ c ∈ ([] : List Char), isWhite c = true := fun c hc => absurd hc List.not_mem_nil
  refine ⟨fun hne => ?_, fun he => ?_⟩
  · exact Boundary.rejects_boundary hs ho hu hnil hr (by simpa [Boundary.separates] using hne)
  · exact Boundary.finds_boundary hsize hs ho hu hnil hr (by simpa [Boundary.separates] using he)

theorem settlesBehind_white (hsize : byteSize h.cursor.source < 2 ^ 32) (hs : Kind.errorSentinel ∉ offered)
    (ho : Kind.lineBoundary ∈ offered) : h.SettlesBehind offered (h.cursor.unread.takeWhile isWhite) := by
  have hu : h.cursor.unread = h.cursor.unread.takeWhile isWhite ++ h.cursor.unread.dropWhile isWhite :=
    List.takeWhile_append_dropWhile.symm
  have hw : ∀ c ∈ h.cursor.unread.takeWhile isWhite, isWhite c = true := fun _ => of_mem_takeWhile
  have hr := stops_dropWhile isWhite h.cursor.unread
  generalize h.cursor.unread.takeWhile isWhite = w at hu hw
  generalize h.cursor.unread.dropWhile isWhite = r at hu hr
  have hwhole : w = h.cursor.unread ↔ r = [] := by rw [hu, List.self_eq_append_right]
  have hseparates : Boundary.separates w r = true ↔ (∃ c ∈ w, isLineEnd c = true) ∨ w = h.cursor.unread := by
    rw [hwhole, Boundary.separates, Bool.or_eq_true, List.any_eq_true, List.isEmpty_iff]
  cases hsep : Boundary.separates w r with
  | true =>
    have hfinds := Boundary.finds_boundary hsize hs ho hu hw hr hsep
    have hunread : (h.nextToken offered).2.cursor.unread = r := by
      have hparts := hfinds.unread
      rw [hu, List.append_cancel_left_eq] at hparts
      exact hparts.symm
    obtain ⟨hrejects, hagain⟩ := call_behind_white (h := (h.nextToken offered).2) (by rwa [source_nextToken]) hs ho
      (by rwa [hunread])
    have hsome : (h.nextToken offered).1.isSome = true := by rw [hfinds.token]; rfl
    refine ⟨⟨fun _ => hseparates.1 hsep, fun _ => hsome⟩, fun _ => hfinds, rejects_of_none, fun _ => hrejects, fun he => ?_⟩
    refine ⟨hagain he, ?_⟩
    rw [(hagain he).token, hfinds.token, hfinds.pos]
    rfl
  | false =>
    have hrejects := Boundary.rejects_boundary hs ho hu hw hr hsep
    have hnone : (h.nextToken offered).1.isSome = false := by rw [hrejects.token]; rfl
    have hneither : ¬ ((∃ c ∈ w, isLineEnd c = true) ∨ w = h.cursor.unread) := by
      rw [← hseparates, hsep]
      exact Bool.false_ne_true
    refine ⟨?_, ?_, fun _ => hrejects, ?_, fun he => ?_⟩
    · rw [hnone]
      exact ⟨fun h => absurd h Bool.false_ne_true, fun h => absurd h hneither⟩
    · exact fun h => absurd (hnone.symm.trans h) Bool.false_ne_true
    · exact fun h => absurd (hnone.symm.trans h) Bool.false_ne_true
    · -- A call that is rejected does not come to the end of the text, where it would not be.
      rw [hrejects.unread, hu, List.append_eq_nil_iff] at he
      exact absurd (.inr (hwhole.2 he.2)) hneither

/-! ## Lines -/

/-- Behind the token of a line stands the text that the token took nothing of, or what follows the text that it took. -/
theorem finds_again_of_token {t : Token} (hsize : byteSize h.cursor.source < 2 ^ 32) (hs : Kind.errorSentinel ∉ offered)
    (hf : Family.of? offered = some .line) (ht : (h.nextToken offered).1 = some t) :
    (h.nextToken offered).2.Finds offered t.kind [] [] := by
  obtain ⟨hkind, hfinds⟩ := Line.finds_of_token hsize hs hf ht
  have hmem : t.kind ∈ offered := by
    have hread := h.kind_nextToken offered
    rw [ht, Option.map_some] at hread
    exact (Scanner.admits_of_read hread.symm).mem
  have hsize' : byteSize (h.nextToken offered).2.cursor.source < 2 ^ 32 := by rwa [source_nextToken]
  have hmode : (h.nextToken offered).2.scanner.config.mode = h.scanner.config.mode := by rw [config_nextToken]
  have hblank : ∀ c ∈ ([] : List Char), isBlank c = true := fun c hc => absurd hc List.not_mem_nil
  have hparts := hfinds.unread
  conv at hparts => lhs; rw [← Line.indent_append_line h.cursor.unread]
  rw [List.append_cancel_left_eq] at hparts
  by_cases hempty : (Line.shape h.scanner.config.mode (Line.text h.cursor.unread)).2 = []
  · rw [hempty, List.nil_append] at hparts
    have hagain := Line.finds_shape hsize' hs hf (b := []) hparts.symm hblank (fun _ => Line.not_isLineEnd_of_mem_text)
      (Line.text_stops _) (Line.behind_stops _)
    rw [hmode, hempty, ← hkind] at hagain
    exact hagain hmem
  · have hall := (Line.shape_snd h.scanner.config.mode (Line.text h.cursor.unread)).resolve_left hempty
    rw [hall, List.append_cancel_left_eq] at hparts
    have hcontent := Line.shape_fst hempty
    have hagain := Line.finds_shape (t := []) hsize' hs hf (b := []) hparts.symm hblank (fun c hc => absurd hc List.not_mem_nil)
      (stops_nil _) (Line.behind_stops _)
    rw [hkind, hcontent] at hmem ⊢
    exact hagain hmem

/-- The second call is answered where the first token ends. -/
theorem token_again_of_token {t : Token} (hsize : byteSize h.cursor.source < 2 ^ 32) (hs : Kind.errorSentinel ∉ offered)
    (hf : Family.of? offered = some .line) (ht : (h.nextToken offered).1 = some t) :
    ((h.nextToken offered).2.nextToken offered).1 = some ⟨t.kind, t.stop, t.stop⟩ := by
  obtain ⟨-, hfinds⟩ := Line.finds_of_token hsize hs hf ht
  have hstop : t.stop = UInt32.ofNat (h.nextToken offered).2.cursor.pos := by
    have htoken := hfinds.token
    rw [ht, Option.some.injEq] at htoken
    rw [htoken, hfinds.pos]
  rw [(finds_again_of_token hsize hs hf ht).token, hstop]
  rfl

/-! ## Any number of calls -/

/-- After one call for a boundary or for a line the next ones stay. -/
theorem stays_behind_call (hsize : byteSize h.cursor.source < 2 ^ 32) (hs : Kind.errorSentinel ∉ offered)
    (hasked : Kind.lineBoundary ∈ offered ∨ Family.of? offered = some .line) :
    (h.nextToken offered).2.Stays offered := by
  cases ht : (h.nextToken offered).1 with
  | none => exact (rejects_of_none ht).stays.next.1
  | some t =>
    rcases hasked with ho | hf
    · have hsettles := settlesBehind_white (h := h) hsize hs ho
      by_cases he : (h.nextToken offered).2.cursor.unread = []
      · exact (hsettles.ever he).1.stays
      · exact (hsettles.once (by rw [ht]; rfl) he).stays
    · exact (finds_again_of_token hsize hs hf ht).stays

end

/-- **Calls settle.** Outside recovery a call for a boundary is answered with one, behind all white space, exactly if the white
space holds a line end or reaches the end of the text. Asked again it is rejected if text follows, and at the end of the
text it is answered in the same way. A call for a line that is answered is answered again with the kind it had, with no width and
at the end of the first token. So of any number of these calls none but the first moves the cursor, and from the second on
all are answered alike. -/
theorem calls_settle {h : Host} {offered : KindSet} (hsize : byteSize h.cursor.source < 2 ^ 32)
    (hs : Kind.errorSentinel ∉ offered) :
    (Kind.lineBoundary ∈ offered → h.SettlesBehind offered (h.cursor.unread.takeWhile isWhite)) ∧
    (Family.of? offered = some .line → ∀ t, (h.nextToken offered).1 = some t →
      (h.nextToken offered).2.Finds offered t.kind [] [] ∧
      ((h.nextToken offered).2.nextToken offered).1 = some ⟨t.kind, t.stop, t.stop⟩) ∧
    (Kind.lineBoundary ∈ offered ∨ Family.of? offered = some .line → ∀ n,
      (h.again offered (n + 1)).cursor.pos = (h.again offered 1).cursor.pos ∧
      ((h.again offered (n + 1)).nextToken offered).1 = ((h.again offered 1).nextToken offered).1) := by
  refine ⟨settlesBehind_white hsize hs, fun hf t ht => ?_, fun hasked n => ?_⟩
  · exact ⟨finds_again_of_token hsize hs hf ht, token_again_of_token hsize hs hf ht⟩
  · obtain ⟨-, habreast, hanswer⟩ := (stays_behind_call hsize hs hasked).again n
    rw [again_succ]
    exact ⟨habreast.pos, hanswer⟩

/-- Behind a line of content the call is answered at the line end, and a line end in front of blanks is a boundary once. -/
theorem calls_settle_indented :
    let h := Host.ofText default "x = 1\r\n".toList
    let g := Host.ofText default "\r \tx".toList
    ((h.again KindSet.line 7).nextToken KindSet.line).1 = some ⟨.externalLine, 5, 5⟩ ∧
    g.Finds {Kind.lineBoundary} .lineBoundary "\r \t".toList [] ∧ (g.again {Kind.lineBoundary} 7).cursor.pos = 3 := by
  intro h g
  obtain ⟨-, hline, hlines⟩ := @calls_settle h KindSet.line (by decide) (by decide)
  obtain ⟨hwhite, -, hwhites⟩ := @calls_settle g {Kind.lineBoundary} (by decide) (by decide)
  have hsettles := hwhite (by decide)
  refine ⟨?_, hsettles.finds (by decide), ?_⟩
  · rw [(hlines (.inr (by decide)) 6).2]
    exact (hline (by decide) ⟨.externalLine, 0, 5⟩ (by decide)).2
  · rw [(hwhites (.inl (by decide)) 6).1]
    decide

end IniScan.Host
