import IniScan.Loops
import IniScan.Proofs.Family.Choice
import IniScan.Proofs.Header.Recognised

/-!
# The loops make the calls of the readers

A loop on a ledger looks and calls by itself. That it calls as the reader does, and never at the end of the text, comes out
call by call: each call that goes past a character stands behind a look that found one (`call_of_peek`), and a turn of
the loop is a step of the reader (`reads_of_go`, `reads_of_stop`, `reads_at_end`). Two loops are not as simple. For a path the
second look, behind a dollar sign, stands for what the reader remembers; for a line the probe runs through to its end within
one turn.

* `Boundary.scan_eq`, `Path.scan_eq`, `Header.Subject.scan_eq`, `Header.RegexName.scan_eq`, `Line.loop_eq`: the five loops.
* `Scanner.scan_eq`: one call of a scanner.
-/
namespace IniScan

open Text

/-! ## Calls in time -/

namespace Ledger

variable {σ α β : Type} {l : Ledger} {c : Char} {r : Reader σ α} {s t : σ}

/-- The ledger with these calls more, none of which came too late. -/
def after (l : Ledger) (ms : List Move) : Ledger := ⟨l.cursor.follow ms, l.calls ++ ms, l.overran⟩

/-- What a reading comes to if its calls are made in time. -/
def makes (l : Ledger) (r : Reading α) : α × Ledger := (r.outcome, l.after r.moves)

/-- What reading on from a state comes to. -/
def reads (l : Ledger) (r : Reader σ α) (s : σ) : α × Ledger := l.makes (r.readFrom s l.cursor.unread)

theorem after_nil (l : Ledger) : l.after [] = l := by
  rw [after, List.append_nil]
  rfl

theorem after_append (l : Ledger) (ms ns : List Move) : l.after (ms ++ ns) = (l.after ms).after ns := by
  simp only [after, Cursor.follow, List.foldl_append, List.append_assoc]

theorem call_mark (l : Ledger) : l.call .mark = l.after [.mark] := by
  simp [call, after, Cursor.follow]

/-- Behind a look at a character no call comes too late. -/
theorem call_of_peek (h : l.peek = some c) (m : Move) : l.call m = l.after [m] := by
  obtain ⟨cs, hunread⟩ := exists_unread_of_peek h
  simp [call, after, Cursor.follow, Cursor.isAtEnd, hunread]

theorem call_mark_take (h : l.peek = some c) : (l.call .mark).call .take = l.after [.mark, .take] := by
  have hmarked : (l.call .mark).peek = some c := h
  rw [call_of_peek hmarked, call_mark, ← after_append]
  rfl

theorem reads_of_go (hpeek : l.peek = some c) {how : Advance} (hstep : r.step s c = .go how t) :
    l.reads r s = (l.after how.moves).reads r t := by
  obtain ⟨cs, hunread⟩ := exists_unread_of_peek hpeek
  have hafter : (l.after how.moves).cursor.unread = cs := by
    cases how <;> simp [after, Advance.moves, Cursor.follow, Cursor.go, Cursor.pass, hunread]
  rw [reads, reads, hunread, hafter, Reader.readFrom_of_go cs hstep, makes, makes, after_append]

theorem reads_of_stop (hpeek : l.peek = some c) {e : Ending α} (hstep : r.step s c = .stop e) :
    l.reads r s = (e.outcome, l.after e.moves) := by
  obtain ⟨cs, hunread⟩ := exists_unread_of_peek hpeek
  rw [reads, hunread, Reader.readFrom_of_stop cs hstep, makes]

theorem reads_at_end (hpeek : l.peek = none) : l.reads r s = ((r.atEnd s).outcome, l.after (r.atEnd s).moves) := by
  have hunread : l.cursor.unread = [] := List.head?_eq_none_iff.1 (l.peek_eq.symm.trans hpeek)
  rw [reads, hunread]
  rfl

/-- States from which the next character is read alike. -/
theorem reads_congr (hstep : ∀ c, l.peek = some c → r.step s c = r.step t c)
    (hend : l.peek = none → r.atEnd s = r.atEnd t) : l.reads r s = l.reads r t := by
  cases hpeek : l.peek with
  | none => rw [reads_at_end hpeek, reads_at_end hpeek, hend hpeek]
  | some c =>
    cases h : r.step s c with
    | go how u => rw [reads_of_go hpeek h, reads_of_go hpeek ((hstep c hpeek).symm.trans h)]
    | stop e => rw [reads_of_stop hpeek h, reads_of_stop hpeek ((hstep c hpeek).symm.trans h)]

theorem reads_congr_of_peek (hpeek : l.peek = some c) (hstep : r.step s c = r.step t c) : l.reads r s = l.reads r t :=
  reads_congr (fun _ hd => Option.some.inj (hpeek.symm.trans hd) ▸ hstep) fun h => nomatch hpeek.symm.trans h

theorem makes_map (l : Ledger) (r : Reading α) (f : α → β) : l.makes (r.map f) = (l.makes r).map f id := rfl

end Ledger

open Ledger

/-! ## Boundaries -/

namespace Boundary

theorem loop_eq (l : Ledger) (ended : Bool) : (loop l ended).map id (·.call .mark) = l.reads reader ended := by
  fun_induction loop l ended with
  | case1 l ended hpeek =>
    rw [reads_at_end hpeek, Prod.map_apply, call_mark]
    rfl
  | case2 l ended c hpeek hc ih =>
    rw [reads_of_go hpeek (show reader.step ended c = .go .skip true from if_pos hc), ih, call_of_peek hpeek]
    rfl
  | case3 l ended c hpeek hc hblank ih =>
    have hstep : reader.step ended c = .go .skip ended := (if_neg hc).trans (if_pos hblank)
    rw [reads_of_go hpeek hstep, ih, call_of_peek hpeek]
    rfl
  | case4 l ended c hpeek hc hblank =>
    have hstep : reader.step ended c = .stop ⟨ended, true⟩ := (if_neg hc).trans (if_neg hblank)
    rw [reads_of_stop hpeek hstep, Prod.map_apply, call_mark]
    rfl

theorem scan_eq (l : Ledger) : scan l =
    l.makes ((reader.read l.cursor.unread).map fun found => if found then some .lineBoundary else none) := by
  rw [makes_map]
  show _ = (l.reads reader false).map _ id
  rw [← loop_eq]
  rfl

end Boundary

/-! ## Paths -/

namespace Path

theorem reads_of_taken (l : Ledger) : l.reads separatorReader true = (true, l) := by
  cases hpeek : l.peek with
  | none =>
    rw [reads_at_end hpeek]
    exact congrArg (Prod.mk true) l.after_nil
  | some c =>
    have hstep : separatorReader.step true c = .stop ⟨true, false⟩ := rfl
    rw [reads_of_stop hpeek hstep]
    exact congrArg (Prod.mk true) l.after_nil

theorem scanSeparator_eq (kind : Kind) (l : Ledger) : scanSeparator kind l =
    l.makes ((separatorReader.read l.cursor.unread).map fun found => if found then some kind else none) := by
  rw [makes_map]
  show _ = (l.reads separatorReader false).map _ id
  rw [scanSeparator]
  cases hpeek : l.peek with
  | none =>
    rw [reads_at_end hpeek, if_neg nofun]
    exact congrArg (Prod.mk none) l.after_nil.symm
  | some c =>
    by_cases hc : c = separator
    · subst hc
      have hstep : separatorReader.step false separator = .go .take true := rfl
      rw [reads_of_go hpeek hstep, if_pos rfl, call_of_peek hpeek, Advance.moves, reads_of_taken]
      rfl
    · have hstep : separatorReader.step false c = .stop ⟨false, false⟩ := if_neg (by simpa using hc)
      rw [reads_of_stop hpeek hstep, if_neg (fun h => hc (Option.some.inj h))]
      exact congrArg (Prod.mk none) l.after_nil.symm

theorem scanContent_eq (l : Ledger) (separated : Bool) : scanContent l separated =
    (l.reads contentReader ⟨separated, false⟩).map (fun found => if found then some .namespaceContent else none) id := by
  fun_induction scanContent l separated with
  | case1 l separated hpeek =>
    rw [reads_at_end hpeek]
    exact congrArg (Prod.mk _) l.after_nil.symm
  | case2 l separated hnext hpeek =>
    have hstep : contentReader.step ⟨separated, false⟩ '$' = .go .take ⟨separated, true⟩ := rfl
    have hrefused : contentReader.step ⟨separated, true⟩ separator = .stop ⟨false, false⟩ := rfl
    rw [reads_of_go hpeek hstep, Advance.moves, ← call_of_peek hpeek, reads_of_stop hnext hrefused]
    exact congrArg (Prod.mk none) (l.call .take).after_nil.symm
  | case3 l separated hnext hpeek ih =>
    have hstep : contentReader.step ⟨separated, false⟩ '$' = .go .take ⟨separated, true⟩ := rfl
    -- only in front of a separator does it count where the reader comes from
    have hforgets : (l.call .take).reads contentReader ⟨separated, true⟩ =
        (l.call .take).reads contentReader ⟨separated, false⟩ := by
      refine reads_congr (fun d hd => ?_) fun _ => rfl
      have hne : d ≠ separator := fun h => hnext (h ▸ hd)
      simp only [contentReader, step, if_neg hne]
    rw [reads_of_go hpeek hstep, Advance.moves, ← call_of_peek hpeek, hforgets, ih]
  | case4 l separated hpeek hdollar ih =>
    have hstep : contentReader.step ⟨separated, false⟩ separator = .go .markTake ⟨true, false⟩ := rfl
    rw [reads_of_go hpeek hstep, Advance.moves, ← call_mark_take hpeek, ih]
  | case5 l separated c hpeek hdollar hc hterminator =>
    have hstep : contentReader.step ⟨separated, false⟩ c = .stop ⟨true, !separated⟩ := by
      simp only [contentReader, step, if_neg hc, if_pos hterminator]
    rw [reads_of_stop hpeek hstep]
    cases separated
    · exact congrArg (Prod.mk _) l.call_mark
    · exact congrArg (Prod.mk _) l.after_nil.symm
  | case6 l separated c hpeek hdollar hc hterminator ih =>
    have hstep : contentReader.step ⟨separated, false⟩ c = .go .take ⟨separated, false⟩ := by
      simp only [contentReader, step, if_neg hc, if_neg hterminator, hdollar, decide_false]
    rw [reads_of_go hpeek hstep, Advance.moves, ← call_of_peek hpeek, ih]

theorem scan_eq (offered : KindSet) (l : Ledger) : scan offered l = l.makes (read offered l.cursor.unread) := by
  unfold scan read
  split
  · exact scanSeparator_eq _ l
  split
  · rw [scanContent_eq]
    rfl
  · exact scanSeparator_eq _ l

end Path

/-! ## Subjects -/

namespace Header.Subject

theorem loop_eq (l : Ledger) (text : Bool) :
    ((loop l text).1, if (loop l text).1 then (loop l text).2 else (loop l text).2.call .mark) = l.reads reader text := by
  fun_induction loop l text with
  | case1 l text hpeek =>
    rw [reads_at_end hpeek]
    cases text
    · exact congrArg (Prod.mk false) l.call_mark
    · exact congrArg (Prod.mk true) l.after_nil.symm
  | case2 l text c hpeek hc =>
    rw [reads_of_stop hpeek (show reader.step text c = .stop ⟨text, !text⟩ from if_pos hc)]
    cases text
    · exact congrArg (Prod.mk false) l.call_mark
    · exact congrArg (Prod.mk true) l.after_nil.symm
  | case3 l c hpeek hc hblank ih =>
    have hstep : reader.step true c = .go .take true := (if_neg hc).trans (if_pos hblank)
    rw [reads_of_go hpeek hstep, ih, call_of_peek hpeek]
    rfl
  | case4 l text c hpeek hc hblank htext ih =>
    obtain rfl : text = false := Bool.eq_false_iff.2 htext
    have hstep : reader.step false c = .go .skip false := (if_neg hc).trans (if_pos hblank)
    rw [reads_of_go hpeek hstep, ih, call_of_peek hpeek]
    rfl
  | case5 l text c hpeek hc hblank ih =>
    have hstep : reader.step text c = .go .takeMark true := (if_neg hc).trans (if_neg hblank)
    rw [reads_of_go hpeek hstep, ih, call_mark, call_of_peek hpeek, ← after_append]
    rfl

theorem scan_eq (offered : KindSet) (l : Ledger) :
    scan offered l = l.makes ((reader.read l.cursor.unread).map (kind? offered)) := by
  rw [makes_map]
  show _ = (l.reads reader false).map _ id
  rw [← loop_eq]
  rfl

end Header.Subject

/-! ## Names of regex headers -/

namespace Header.RegexName

theorem loop_eq (start : Word) (l : Ledger) (search : Search) (word : Word) :
    (loop l search word).map id (·.call .mark) = l.reads (collector start) (search, word) := by
  fun_induction loop l search word with
  | case1 l search word hpeek =>
    rw [reads_at_end hpeek, Prod.map_apply, call_mark]
    rfl
  | case2 l search word c hpeek hc =>
    have hstep : (collector start).step (search, word) c = .stop ⟨(search.kind word, word), true⟩ := if_pos hc
    rw [reads_of_stop hpeek hstep, Prod.map_apply, call_mark]
    rfl
  | case3 l search word c hpeek hc ih =>
    have hstep : (collector start).step (search, word) c = .go .take (search.next c word) := if_neg hc
    rw [reads_of_go hpeek hstep, ih, call_of_peek hpeek]
    rfl

theorem scan_eq (offered : KindSet) (word : Word) (l : Ledger) : scan offered word l =
    l.makes (((collector word).read l.cursor.unread).map fun p => (offered.find? p.1, p.2)) := by
  rw [makes_map]
  show _ = (l.reads (collector word) (.outside, word.reset)).map _ id
  rw [← loop_eq]
  rfl

end Header.RegexName

/-! ## Lines -/

namespace Line

open Header

section

variable (mode : MatchMode) (start : Word)

/-- The blanks behind a `[` are read, and then none comes. -/
theorem blanks_eq (word : Word) (l : Ledger) :
    l.reads (collector mode start) (.bracket, word) = (blanks l).reads (collector mode start) (.bracket, word) ∧
      ∀ c, (blanks l).peek = some c → ¬ isBlank c = true := by
  fun_induction blanks l with
  | case1 l hpeek => exact ⟨rfl, fun c hc => nomatch hpeek.symm.trans hc⟩
  | case2 l c hpeek hc ih =>
    have hstep : (collector mode start).step (.bracket, word) c = .go .take (.bracket, word) := if_pos hc
    rw [reads_of_go hpeek hstep, Advance.moves, ← call_of_peek hpeek]
    exact ih
  | case3 l c hpeek hc =>
    exact ⟨rfl, fun d hd => Option.some.inj (hpeek.symm.trans hd) ▸ hc⟩

/-- The letters of a name are read, and then no letter comes or there are enough of them. -/
theorem letters_eq (l : Ledger) (window : Nat) (word : Word) :
    l.reads (collector mode start) (.name window, word) =
        (letters l window word).2.reads (collector mode start) (.name window, (letters l window word).1) ∧
      ∀ c, (letters l window word).2.peek = some c →
        ¬ (c.isAlpha && decide ((letters l window word).1.length < window)) = true := by
  fun_induction letters l window word with
  | case1 l word hroom hpeek => exact ⟨rfl, fun c hc => nomatch hpeek.symm.trans hc⟩
  | case2 l word hroom c hpeek hc ih =>
    have hstep : (collector mode start).step (.name window, word) c = .go .take (.name window, word.push c) :=
      if_pos (by rw [hc, decide_eq_true hroom]; rfl)
    rw [reads_of_go hpeek hstep, Advance.moves, ← call_of_peek hpeek]
    exact ih
  | case3 l word hroom c hpeek hc =>
    refine ⟨rfl, fun d hd => ?_⟩
    obtain rfl := Option.some.inj (hpeek.symm.trans hd)
    simp [hc]
  | case4 l word hroom => exact ⟨rfl, fun c _ => by simp [hroom]⟩

end

variable {mode : MatchMode} {start word : Word}

theorem letters_of_peek {l : Ledger} {c : Char} {window : Nat} (hpeek : l.peek = some c) (hc : c.isAlpha = true)
    (hroom : word.length < window) : letters l window word = letters (l.call .take) window (word.push c) := by
  rw [letters, if_pos hroom]
  split
  · rename_i hnone
    exact absurd (hpeek.symm.trans hnone) (Option.some_ne_none c)
  · rename_i d hd
    obtain rfl := Option.some.inj (hpeek.symm.trans hd)
    exact if_pos hc

/-- Behind a name that is read to its end the line is a header, or goes on as content. -/
theorem reads_of_name {l : Ledger} {window : Nat}
    (hend : ∀ c, l.peek = some c → ¬ (c.isAlpha && decide (word.length < window)) = true) :
    l.reads (collector mode start) (.name window, word) =
      if (Section.ofWord? mode word).isSome then ((.headerStart, word.reset), l)
      else l.reads (collector mode start) (.content, word.reset) := by
  cases hpeek : l.peek with
  | none =>
    rw [reads_at_end hpeek, reads_at_end hpeek]
    simp only [collector, collectAtEnd]
    split
    · exact congrArg (Prod.mk _) l.after_nil
    · rfl
  | some c =>
    have hstep : (collector mode start).step (.name window, word) c =
        if (Section.ofWord? mode word).isSome then .stop ⟨(.headerStart, word.reset), false⟩
        else collectContent word.reset c := if_neg (hend c hpeek)
    split
    · rename_i hfound
      rw [if_pos hfound] at hstep
      rw [reads_of_stop hpeek hstep]
      exact congrArg (Prod.mk _) l.after_nil
    · rename_i hfound
      rw [if_neg hfound] at hstep
      exact reads_congr_of_peek hpeek hstep

/-- The probe stands for all that is read behind a `[` until it is clear what the line is. -/
theorem probe_eq (l : Ledger) (word : Word) : l.reads (collector mode start) (.bracket, word) =
    if (probe mode l word).1.1 then ((.headerStart, (probe mode l word).1.2), (probe mode l word).2)
    else (probe mode l word).2.reads (collector mode start) (.content, (probe mode l word).1.2) := by
  obtain ⟨hblanks, hstops⟩ := blanks_eq mode start word l
  rw [hblanks]
  simp only [probe]
  cases hpeek : (blanks l).peek with
  | none => exact reads_congr (fun c hc => nomatch hpeek.symm.trans hc) fun _ => rfl
  | some c =>
    have hblank := hstops c hpeek
    by_cases hzero : Probe.window mode c = 0
    · simp only [hzero, if_true, Bool.false_eq_true, if_false]
      exact reads_congr_of_peek hpeek ((if_neg hblank).trans (if_pos hzero))
    · have hstep : (collector mode start).step (.bracket, word) c =
          .go .take (.name (Probe.window mode c), word.reset.push c) := (if_neg hblank).trans (if_neg hzero)
      -- the reader takes the first letter without asking, since it would not have a window if it were none
      have hfirst : letters (blanks l) (Probe.window mode c) word.reset =
          letters ((blanks l).call .take) (Probe.window mode c) (word.reset.push c) :=
        letters_of_peek hpeek (Probe.isAlpha_of_window hzero) (Nat.pos_of_ne_zero hzero)
      obtain ⟨hletters, hend⟩ :=
        letters_eq mode start ((blanks l).call .take) (Probe.window mode c) (word.reset.push c)
      simp only [hzero, if_false, hfirst]
      rw [reads_of_go hpeek hstep, Advance.moves, ← call_of_peek hpeek, hletters, reads_of_name hend]

/-- Where the reader stands: in the content once there is text. -/
def placeOf (text : Bool) : Place := if text then .content else .start

theorem collectStep_of_isLineEnd {c : Char} (hc : isLineEnd c = true) (text : Bool) :
    collectStep mode (placeOf text) word c = .stop ⟨(.externalLine, word), true⟩ := by
  have hcontent : collectContent word c = .stop ⟨(.externalLine, word), true⟩ := if_pos hc
  cases text with
  | true => exact hcontent
  | false =>
    have hstart : collectStep mode .start word c = collectContent word c := by
      simp only [isLineEnd, Bool.or_eq_true, decide_eq_true_eq] at hc
      obtain rfl | rfl := hc <;> rfl
    exact hstart.trans hcontent

theorem loop_eq (offered : KindSet) (l : Ledger) (text : Bool) (word : Word) : loop mode offered l text word =
    (l.reads (collector mode start) (placeOf text, word)).map (fun p => (offered.find? p.1, p.2)) id := by
  fun_induction loop mode offered l text word with
  | case1 l text word hpeek =>
    rw [reads_at_end hpeek]
    cases text <;> exact congrArg (Prod.mk _) l.call_mark
  | case2 l text word c hpeek hc =>
    rw [reads_of_stop hpeek (collectStep_of_isLineEnd hc text)]
    exact congrArg (Prod.mk _) l.call_mark
  | case3 l word c hpeek hc ih =>
    have hstep : collectStep mode .content word c = .go .take (.content, word) := if_neg hc
    rw [reads_of_go hpeek hstep, ih, call_of_peek hpeek]
    rfl
  | case4 l text word c hpeek hc htext hblank ih =>
    obtain rfl : text = false := Bool.eq_false_iff.2 htext
    have hstep : collectStep mode .start word c = .go .skip (.start, word) := if_pos hblank
    rw [reads_of_go hpeek hstep, ih, call_of_peek hpeek]
    rfl
  | case5 l text word htext hpeek hc hblank =>
    obtain rfl : text = false := Bool.eq_false_iff.2 htext
    have hstep : collectStep mode .start word ';' = .stop ⟨(.externalLine, word), true⟩ := rfl
    rw [reads_of_stop hpeek hstep]
    exact congrArg (Prod.mk _) l.call_mark
  | case6 l text word htext word' l' hpeek hc hblank hcomment hprobe =>
    obtain rfl : text = false := Bool.eq_false_iff.2 htext
    have hstep : collectStep mode .start word '[' = .go .markTake (.bracket, word) := rfl
    rw [reads_of_go hpeek hstep, Advance.moves, ← call_mark_take hpeek, probe_eq, hprobe]
    rfl
  | case7 l text word htext found word' l' hprobe hfound hpeek hc hblank hcomment ih =>
    obtain rfl : text = false := Bool.eq_false_iff.2 htext
    have hstep : collectStep mode .start word '[' = .go .markTake (.bracket, word) := rfl
    rw [reads_of_go hpeek hstep, Advance.moves, ← call_mark_take hpeek, probe_eq, hprobe, if_neg hfound, ih]
    rfl
  | case8 l text word c hpeek hc htext hblank hcomment hbracket ih =>
    obtain rfl : text = false := Bool.eq_false_iff.2 htext
    have hstep : collectStep mode .start word c = .go .take (.content, word) :=
      (if_neg hblank).trans ((if_neg hcomment).trans ((if_neg hbracket).trans (if_neg hc)))
    rw [reads_of_go hpeek hstep, ih, call_of_peek hpeek]
    rfl

end Line

/-! ## One call -/

/-- The loop for the family that is chosen collects what the family does. -/
theorem Scanner.scan_eq (s : Scanner) (offered : KindSet) (l : Ledger) : s.scan offered l =
    (((s.call offered l.cursor.unread).1.outcome, (s.call offered l.cursor.unread).2),
      l.after (s.call offered l.cursor.unread).1.moves) := by
  unfold scan call
  by_cases hrecovering : recovering offered = true
  · rw [if_pos hrecovering, if_pos hrecovering, after_nil]
  · rw [if_neg hrecovering, if_neg hrecovering, Family.of?_eq]
    by_cases hboundary : Kind.lineBoundary ∈ offered
    · rw [if_pos hboundary, if_pos hboundary, Boundary.scan_eq]
      rfl
    rw [if_neg hboundary, if_neg hboundary]
    by_cases hpath : offered.meets KindSet.path = true
    · rw [if_pos hpath, if_pos hpath, Path.scan_eq]
      rfl
    rw [if_neg hpath, if_neg hpath]
    by_cases hsubject : offered.meets KindSet.suffixed = true
    · rw [if_pos hsubject, if_pos hsubject, Header.Subject.scan_eq]
      rfl
    rw [if_neg hsubject, if_neg hsubject]
    by_cases hregex : offered.meets KindSet.regex = true
    · rw [if_pos hregex, if_pos hregex, Header.RegexName.scan_eq]
      rfl
    rw [if_neg hregex, if_neg hregex]
    by_cases hline : offered.meets KindSet.line = true
    · rw [if_pos hline, if_pos hline, Line.loop_eq]
      rfl
    rw [if_neg hline, if_neg hline, after_nil]

end IniScan
