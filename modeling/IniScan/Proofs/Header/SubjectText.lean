import IniScan.Proofs.Family.Offered
import IniScan.Proofs.Host.Calls
import IniScan.Proofs.Text.Trim

/-!
# The text of a subject

A subject goes up to a bracket, a line end or the end of the text. Its token is the subject without the blanks around
it, and where nothing is left it has no width and stands at the subject's end.

* `read_text`, `read_blanks`: what a subject is read as.
* `finds_subject`, `finds_empty`, `rejects_empty`: the token.
* `subject_trimmed`: every call that comes to the reader of subjects.
-/
namespace IniScan.Header.Subject

open Text

section

variable {s : List Char}

/-- Behind text everything is taken, and no mark is lost. -/
theorem passes_true (hs : ∀ c ∈ s, isClosing c = false) :
    ∃ ms, reader.Passes true s ms true ∧ Move.skip ∉ ms ∧ Move.distance ms = s.length := by
  induction s with
  | nil => exact ⟨[], .nil true, by simp, rfl⟩
  | cons c cs ih =>
    have hc : isClosing c = false := hs c List.mem_cons_self
    obtain ⟨ms, hpass, hskip, hdist⟩ := ih fun d hd => hs d (List.mem_cons_of_mem _ hd)
    cases hblank : isBlank c with
    | true =>
      have hstep : reader.step true c = .go .take true := by
        simp only [reader, step, hc, hblank, if_true, if_false, Bool.false_eq_true]
      refine ⟨[.take] ++ ms, .cons hstep hpass, by simpa using hskip, ?_⟩
      rw [List.singleton_append, Move.distance_take, hdist, List.length_cons]
    | false =>
      have hstep : reader.step true c = .go .takeMark true := by
        simp only [reader, step, hc, hblank, if_false, Bool.false_eq_true]
      refine ⟨[.take, .mark] ++ ms, .cons hstep hpass, by simpa using hskip, ?_⟩
      rw [List.cons_append, List.singleton_append, Move.distance_take, Move.distance_mark, hdist, List.length_cons]

/-- The first character of a text that is not indented sees to it that there is text. -/
theorem passes_false (hs : ∀ c ∈ s, isClosing c = false) (hb : Stops isBlank s) :
    ∃ ms t, reader.Passes false s ms t ∧ Move.skip ∉ ms ∧ Move.distance ms = s.length := by
  cases s with
  | nil => exact ⟨[], false, .nil false, by simp, rfl⟩
  | cons c cs =>
    have hstep : reader.step false c = .go .takeMark true := by
      simp only [reader, step, hs c List.mem_cons_self, stops_cons.1 hb, if_false, Bool.false_eq_true]
    obtain ⟨ms, hpass, hskip, hdist⟩ := passes_true fun d hd => hs d (List.mem_cons_of_mem _ hd)
    refine ⟨[.take, .mark] ++ ms, true, .cons hstep hpass, by simpa using hskip, ?_⟩
    rw [List.cons_append, List.singleton_append, Move.distance_take, Move.distance_mark, hdist, List.length_cons]

theorem isClosing_of_isBlank {c : Char} (h : isBlank c = true) : isClosing c = false := by
  simp only [isBlank, Bool.or_eq_true, decide_eq_true_eq] at h
  rcases h with rfl | rfl <;> rfl

theorem passes_blanks (hs : ∀ c ∈ s, isBlank c = true) (text : Bool) :
    reader.Passes text s (List.replicate s.length (if text then .take else .skip)) text := by
  cases text with
  | false =>
    refine Reader.passes_of_stay (show Advance.skip.moves = [.skip] from rfl) ?_
    intro c hc
    simp only [reader, step, isClosing_of_isBlank (hs c hc), hs c hc, if_true, if_false, Bool.false_eq_true]
  | true =>
    refine Reader.passes_of_stay (show Advance.take.moves = [.take] from rfl) ?_
    intro c hc
    simp only [reader, step, isClosing_of_isBlank (hs c hc), hs c hc, if_true, if_false, Bool.false_eq_true]

end

theorem readFrom_closed {rest : List Char} (hr : Stops (fun c => !isClosing c) rest) (text : Bool) :
    reader.readFrom text rest = ⟨text, if text then [] else [.mark]⟩ := by
  cases rest with
  | nil => cases text <;> rfl
  | cons c cs =>
    have hc : isClosing c = true := of_stops_not hr
    have hstep : reader.step text c = .stop ⟨text, !text⟩ := if_pos hc
    rw [Reader.readFrom_of_stop cs hstep]
    cases text <;> rfl

section

variable {s rest : List Char}

/-- Without text the reading marks the end of the subject. -/
theorem read_blanks (hs : ∀ c ∈ s, isBlank c = true) (hr : Stops (fun c => !isClosing c) rest) :
    reader.read (s ++ rest) = ⟨false, List.replicate s.length .skip ++ [.mark]⟩ := by
  have hstart : reader.start = false := rfl
  rw [Reader.read, hstart, (passes_blanks hs false).readFrom, readFrom_closed hr]
  rfl

/-- With text the last mark is behind its last character that is no blank. -/
theorem read_text (hs : ∀ c ∈ s, isClosing c = false) (ht : trim s ≠ []) (hr : Stops (fun c => !isClosing c) rest) :
    (reader.read (s ++ rest)).outcome = true ∧ (reader.read (s ++ rest)).Spans (s.takeWhile isBlank).length
      ((s.takeWhile isBlank).length + (trim s).length) := by
  obtain ⟨front, last, back, htrim, hparts, hlast, hfirst, hback⟩ := exists_back ht
  have hblank : ∀ c ∈ s.takeWhile isBlank, isBlank c = true := fun c hc => of_mem_takeWhile hc
  have hall : ∀ c ∈ front ++ [last] ++ back, isClosing c = false := fun c hc => by
    refine hs c ?_
    rw [hparts]
    exact List.mem_append_right _ hc
  generalize s.takeWhile isBlank = indent at hparts hblank ⊢
  have hfront : ∀ c ∈ front, isClosing c = false := fun c hc => hall c (by simp [hc])
  obtain ⟨ms, text, hpass, hskip, hdist⟩ := passes_false hfront (stops_of_append hfirst)
  have hstep : reader.step text last = .go .takeMark true := by
    simp only [reader, step, hall last (by simp), hlast, if_false, Bool.false_eq_true]
  have htext := (hpass.append (.cons hstep (.nil true))).append (passes_blanks hback true)
  have hread : reader.read (s ++ rest) = ⟨true, List.replicate indent.length .skip ++
      ((ms ++ ([.take, .mark] ++ [])) ++ List.replicate back.length .take)⟩ := by
    have hstart : reader.start = false := rfl
    rw [Reader.read, hstart, hparts, List.append_assoc, (passes_blanks hblank false).readFrom, htext.readFrom,
      readFrom_closed hr]
    simp [Advance.moves]
  rw [hread]
  refine ⟨rfl, _, rfl, by simp [hskip], ?_⟩
  rw [Move.markAt_append, Move.markAt_takes, htrim, List.length_append, ← hdist]
  simp [Move.markAt_append, Nat.add_comm]

end

/-! ## The token -/

section

variable {h : Host} {offered : KindSet} {s rest : List Char} {k : Kind}

theorem read_eq_map (hs : Kind.errorSentinel ∉ offered) (hf : Family.of? offered = some .subject)
    (hu : h.cursor.unread = s ++ rest) :
    h.scanner.read offered h.cursor.unread = (reader.read (s ++ rest)).map (kind? offered) := by
  rw [hu, h.scanner.read_of_family hs hf]
  rfl

theorem finds_subject (hsize : byteSize h.cursor.source < 2 ^ 32) (hs : Kind.errorSentinel ∉ offered)
    (hf : Family.of? offered = some .subject) (hu : h.cursor.unread = s ++ rest)
    (hc : ∀ c ∈ s, isClosing c = false) (hr : Stops (fun c => !isClosing c) rest) (ht : trim s ≠ [])
    (hk : kind? offered true = some k) : h.Finds offered k (s.takeWhile isBlank) (trim s) := by
  obtain ⟨hout, hspan⟩ := read_text hc ht hr
  have hread := read_eq_map hs hf hu
  obtain ⟨front, last, back, htrim, hparts, -⟩ := exists_back ht
  have hparts' : h.cursor.unread = s.takeWhile isBlank ++ (trim s ++ (back ++ rest)) := by
    rw [hu, htrim, ← List.append_assoc (front ++ [last]), ← List.append_assoc, ← hparts]
  refine Host.finds_of_read hsize ?_ ?_ hparts' rfl rfl
  · rw [hread, Reading.outcome_map, hout, hk]
  · rw [hread]
    exact hspan

theorem finds_empty (hsize : byteSize h.cursor.source < 2 ^ 32) (hs : Kind.errorSentinel ∉ offered)
    (hf : Family.of? offered = some .subject) (hu : h.cursor.unread = s ++ rest)
    (hr : Stops (fun c => !isClosing c) rest) (ht : trim s = []) (hk : Kind.includeSuffix ∈ offered) :
    h.Finds offered .includeSuffix s [] := by
  have hread := read_eq_map hs hf hu
  rw [read_blanks (trim_eq_nil_iff.1 ht) hr] at hread
  refine Host.finds_of_read hsize ?_ ?_ hu rfl rfl
  · rw [hread]
    exact if_pos hk
  · rw [hread]
    exact ⟨[.mark], rfl, by simp, rfl⟩

theorem rejects_empty (hs : Kind.errorSentinel ∉ offered) (hf : Family.of? offered = some .subject)
    (hu : h.cursor.unread = s ++ rest) (hr : Stops (fun c => !isClosing c) rest) (ht : trim s = [])
    (hk : Kind.includeSuffix ∉ offered) : h.Rejects offered := by
  apply Host.rejects_of_read
  rw [read_eq_map hs hf hu, read_blanks (trim_eq_nil_iff.1 ht) hr]
  exact if_neg hk

end

/-! ## Every call for a subject -/

/-- What a subject goes up to. -/
def closings : List Char := [']', '\n', '\r']

theorem isClosing_eq (c : Char) : isClosing c = decide (c ∈ closings) := by
  simp [isClosing, isLineEnd, closings]

/-- The kind is the first in the order of preference that is offered. -/
structure Preferred (offered : KindSet) (k : Kind) : Prop where
  mem : k ∈ offered
  first : ∃ before after, Kind.suffixed = before ++ k :: after ∧ ∀ j ∈ before, j ∉ offered

theorem exists_preferred {offered : KindSet} (hf : Family.of? offered = some .subject) :
    ∃ k, kind? offered true = some k ∧ Preferred offered k := by
  obtain ⟨k, hk⟩ := KindSet.exists_find? (Family.meets_of_of? hf)
  obtain ⟨hmem, before, after, hsplit, hbefore⟩ := List.find?_eq_some_iff_append.1 hk
  exact ⟨k, hk, by simpa using hmem, before, after, hsplit, fun j hj => by simpa using hbefore j hj⟩

/-- The call finds the subject `s` as a token of the kind without the blanks around it. Those in front of it are skipped and
those behind it are still in front of the cursor. -/
structure Trims (h : Host) (offered : KindSet) (k : Kind) (s : List Char) : Prop where
  finds : h.Finds offered k (s.takeWhile isBlank) (trim s)
  text : ∃ t, (h.nextToken offered).1 = some t ∧ t.kind = k ∧ t.text? h.cursor.source = some (trim s) ∧
    (h.nextToken offered).2.cursor.pos = t.stop.toNat
  back : ∃ back rest, h.cursor.unread = s ++ rest ∧ s = s.takeWhile isBlank ++ (trim s ++ back) ∧
    (∀ c ∈ back, isBlank c = true) ∧ (h.nextToken offered).2.cursor.unread = back ++ rest

theorem trims_of_finds {h : Host} {offered : KindSet} {k : Kind} {s rest : List Char}
    (hfinds : h.Finds offered k (s.takeWhile isBlank) (trim s)) (hu : h.cursor.unread = s ++ rest) (ht : trim s ≠ []) :
    Trims h offered k s := by
  refine ⟨hfinds, ?_, ?_⟩
  · obtain ⟨t, htoken, hkind, hstart, hstop⟩ := hfinds.exists_token
    refine ⟨t, htoken, hkind, ?_, by rw [hfinds.pos, hstop]⟩
    rw [Token.text?, hstart, hstop]
    exact hfinds.slice_text
  · obtain ⟨front, last, back, htrim, hparts, -, -, hback⟩ := exists_back ht
    rw [← htrim] at hparts
    refine ⟨back, rest, hu, hparts, hback, ?_⟩
    have hunread := hfinds.unread
    rw [hu] at hunread
    conv at hunread => lhs; rw [hparts]
    rw [List.append_assoc, List.append_assoc, List.append_cancel_left_eq, List.append_cancel_left_eq] at hunread
    exact hunread.symm

/-- **Subjects are trimmed.** A call that comes to the reader of subjects takes all in front of the next bracket or line end. If
that is more than blanks, the token is of the preferred kind among those offered and holds it without the blanks around it,
and the cursor stands right behind it. If not, the token has no width and stands at the end of the blanks if the kind that
may be empty is offered, whatever else is, and else there is none and the cursor stays. -/
theorem subject_trimmed {h : Host} {offered : KindSet} (hsize : byteSize h.cursor.source < 2 ^ 32)
    (hs : Kind.errorSentinel ∉ offered) (hf : Family.of? offered = some .subject) :
    let s := h.cursor.unread.takeWhile (· ∉ closings)
    (trim s ≠ [] → ∃ k, Preferred offered k ∧ Trims h offered k s) ∧
    (trim s = [] → Kind.includeSuffix ∈ offered → h.Finds offered .includeSuffix s []) ∧
    (trim s = [] → Kind.includeSuffix ∉ offered → h.Rejects offered) := by
  intro s
  have hu : h.cursor.unread = (h.cursor.unread.takeWhile fun c => !isClosing c) ++
      h.cursor.unread.dropWhile fun c => !isClosing c := List.takeWhile_append_dropWhile.symm
  have hc : ∀ c ∈ h.cursor.unread.takeWhile (fun c => !isClosing c), isClosing c = false := fun _ => not_of_mem_takeWhile
  have hr := stops_dropWhile (fun c => !isClosing c) h.cursor.unread
  have heq : (h.cursor.unread.takeWhile fun c => !isClosing c) = s := by simp only [isClosing_eq, ← decide_not, s]
  rw [heq] at hu hc
  refine ⟨fun ht => ?_, finds_empty hsize hs hf hu hr, rejects_empty hs hf hu hr⟩
  obtain ⟨k, hk, hpreferred⟩ := exists_preferred hf
  exact ⟨k, hpreferred, trims_of_finds (finds_subject hsize hs hf hu hc hr ht hk) hu ht⟩

/-- Blanks within a subject are kept, and the one behind it is left for the bracket. Where there are only blanks the kind that is
preferred otherwise has no say. -/
theorem subject_trimmed_inner :
    let offered := KindSet.ofList [.presetSuffix, .includeSuffix, .externalLine]
    let h := Host.ofText default "\tmy é file ]".toList
    let g := Host.ofText default " \t\n]".toList
    h.Finds offered .presetSuffix "\t".toList "my é file".toList ∧ g.Finds offered .includeSuffix " \t".toList [] := by
  intro offered h g
  obtain ⟨htext, -, -⟩ := @subject_trimmed h offered (by decide) (by decide) (by decide)
  obtain ⟨-, hblank, -⟩ := @subject_trimmed g offered (by decide) (by decide) (by decide)
  obtain ⟨k, -, htrims⟩ := htext (by decide)
  have htoken := htrims.finds.token
  rw [show (h.nextToken offered).1 = some ⟨.presetSuffix, 1, 11⟩ by decide, Option.some.injEq, Token.mk.injEq] at htoken
  obtain ⟨rfl, -, -⟩ := htoken
  exact ⟨htrims.finds, hblank (by decide) (by decide)⟩

end IniScan.Header.Subject
