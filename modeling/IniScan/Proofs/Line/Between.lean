import IniScan.Proofs.Family.Choice
import IniScan.Proofs.Host.Found
import IniScan.Proofs.Text.Lines

/-!
# Between two lines

The reader of boundaries goes past all blanks and line ends in front of it. A call finds the boundary behind them, or
leaves blanks without a line end where they are.

* `read_white`: what is read.
* `finds_boundary`, `rejects_boundary`, `finds_of_token`: the token.
* `exists_indent`: after the call nothing but the indent of the next text is in front of that text.
-/
namespace IniScan.Boundary

open Text

/-- White space in front of `r` is a boundary. -/
def separates (w r : List Char) : Bool := w.any isLineEnd || r.isEmpty

theorem read_white {w r : List Char} (hw : ∀ c ∈ w, isWhite c = true) (hr : Stops isWhite r) (ended : Bool) :
    reader.readFrom ended (w ++ r) = ⟨ended || separates w r, List.replicate w.length .skip ++ [.mark]⟩ := by
  induction w generalizing ended with
  | nil =>
    rw [List.nil_append]
    cases r with
    | nil => cases ended <;> rfl
    | cons c cs =>
      have hc := stops_cons.1 hr
      rw [isWhite, Bool.or_eq_false_iff] at hc
      have hstep : reader.step ended c = .stop ⟨ended, true⟩ := by
        simp only [reader, step, hc.1, hc.2, if_false, Bool.false_eq_true]
      rw [Reader.readFrom_of_stop cs hstep]
      cases ended <;> rfl
  | cons c cs ih =>
    have hc := hw c List.mem_cons_self
    have hcs := ih fun d hd => hw d (List.mem_cons_of_mem _ hd)
    rw [isWhite, Bool.or_eq_true] at hc
    rw [List.cons_append]
    by_cases he : isLineEnd c = true
    · have hstep : reader.step ended c = .go .skip true := if_pos he
      rw [Reader.readFrom_of_go _ hstep, hcs]
      simp [separates, he, Advance.moves, List.replicate_succ]
    · have hblank : isBlank c = true := hc.resolve_right he
      have hstep : reader.step ended c = .go .skip ended := by
        simp only [reader, step, he, hblank, if_true, if_false, Bool.false_eq_true]
      rw [Reader.readFrom_of_go _ hstep, hcs]
      simp [separates, he, Advance.moves, List.replicate_succ]

section

variable {h : Host} {offered : KindSet} {w r : List Char}

theorem read_eq (hs : Kind.errorSentinel ∉ offered) (ho : Kind.lineBoundary ∈ offered)
    (hu : h.cursor.unread = w ++ r) (hw : ∀ c ∈ w, isWhite c = true) (hr : Stops isWhite r) :
    h.scanner.read offered h.cursor.unread =
      ⟨if separates w r then some .lineBoundary else none, List.replicate w.length .skip ++ [.mark]⟩ := by
  have hf : Family.of? offered = some .boundary := Family.of?_of_boundary ho
  have hread : reader.read (w ++ r) = _ := read_white hw hr false
  rw [Bool.false_or] at hread
  rw [hu, h.scanner.read_of_family hs hf, Family.read, hread]
  rfl

theorem finds_boundary (hsize : byteSize h.cursor.source < 2 ^ 32) (hs : Kind.errorSentinel ∉ offered)
    (ho : Kind.lineBoundary ∈ offered) (hu : h.cursor.unread = w ++ r) (hw : ∀ c ∈ w, isWhite c = true)
    (hr : Stops isWhite r) (hsep : separates w r = true) : h.Finds offered .lineBoundary w [] := by
  have hread := read_eq hs ho hu hw hr
  rw [hsep, if_pos rfl] at hread
  refine Host.finds_of_read (a := w.length) (b := w.length) hsize (by rw [hread]) ?_ hu rfl rfl
  rw [hread]
  exact ⟨[.mark], rfl, by simp, rfl⟩

theorem rejects_boundary (hs : Kind.errorSentinel ∉ offered) (ho : Kind.lineBoundary ∈ offered)
    (hu : h.cursor.unread = w ++ r) (hw : ∀ c ∈ w, isWhite c = true) (hr : Stops isWhite r)
    (hsep : separates w r = false) : h.Rejects offered := by
  apply Host.rejects_of_read
  rw [read_eq hs ho hu hw hr, hsep]
  rfl

/-- The token of a call for a boundary is one, and has no width. -/
theorem finds_of_token {t : Token} (hsize : byteSize h.cursor.source < 2 ^ 32) (ho : Kind.lineBoundary ∈ offered)
    (ht : (h.nextToken offered).1 = some t) : ∃ gap, h.Finds offered t.kind gap [] := by
  have hread := h.kind_nextToken offered
  rw [ht, Option.map_some] at hread
  obtain ⟨-, hs, -, -⟩ := Scanner.exists_family_of_read hread.symm
  have hu : h.cursor.unread = h.cursor.unread.takeWhile isWhite ++ h.cursor.unread.dropWhile isWhite :=
    List.takeWhile_append_dropWhile.symm
  have hw : ∀ c ∈ h.cursor.unread.takeWhile isWhite, isWhite c = true := fun c hc => of_mem_takeWhile hc
  have hr := stops_dropWhile isWhite h.cursor.unread
  cases hsep : separates (h.cursor.unread.takeWhile isWhite) (h.cursor.unread.dropWhile isWhite) with
  | false =>
    have hnone := (rejects_boundary hs ho hu hw hr hsep).token
    rw [ht] at hnone
    cases hnone
  | true =>
    have hfinds := finds_boundary hsize hs ho hu hw hr hsep
    have hkind : t.kind = .lineBoundary := by
      have htoken := hfinds.token
      rw [ht, Option.some.injEq] at htoken
      rw [htoken]
    exact ⟨_, hkind ▸ hfinds⟩

/-- A call for a boundary goes past all white space but the blanks that may begin the next text, and past those too if
no text follows. -/
theorem exists_indent (hsize : byteSize h.cursor.source < 2 ^ 32) (hs : Kind.errorSentinel ∉ offered)
    (ho : Kind.lineBoundary ∈ offered) (hu : h.cursor.unread = w ++ r) (hw : ∀ c ∈ w, isWhite c = true)
    (hr : Stops isWhite r) : ∃ front indent, w = front ++ indent ∧ (∀ c ∈ indent, isBlank c = true) ∧
      (r = [] → indent = []) ∧ (h.nextToken offered).2.cursor.unread = indent ++ r ∧
      (h.nextToken offered).2.cursor.passed = front.reverse ++ h.cursor.passed := by
  cases hsep : separates w r with
  | true =>
    have hf := finds_boundary hsize hs ho hu hw hr hsep
    have hunread : (h.nextToken offered).2.cursor.unread = r := by
      have := hf.unread
      rw [hu, List.nil_append] at this
      exact (List.append_cancel_left this).symm
    refine ⟨w, [], by simp, by simp, fun _ => rfl, hunread, ?_⟩
    rw [hf.passed, List.append_nil]
  | false =>
    have hf := rejects_boundary hs ho hu hw hr hsep
    rw [separates, Bool.or_eq_false_iff] at hsep
    refine ⟨[], w, rfl, ?_, ?_, by rw [hf.unread, hu], by rw [hf.passed]; rfl⟩
    · intro c hc
      have hend := List.any_eq_false.1 hsep.1 c hc
      have := hw c hc
      rw [isWhite, Bool.or_eq_true] at this
      exact this.resolve_right hend
    · intro hnil
      rw [hnil] at hsep
      cases hsep.2

end

end IniScan.Boundary
