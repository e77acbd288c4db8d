import IniScan.Session
import IniScan.Proofs.Host.Unread
import IniScan.Proofs.Scanner.Storing

/-!
# Steps that leave no trace

Between the steps of a session a host may store the scanner, restore it from any bytes, replace it by a new one that gets
what the old one stored, and make calls that are rejected. Such a step may change the word of the scanner and the notes
of the cursor. It changes neither the configuration nor the place in the text, and these are all that the steps
that go over the text depend on (`Tracks`).

* `step_of_restores`: restoring changes nothing but the word, to one of the right size.
* `tracks_step`: sessions that track each other answer alike and go on to track each other.
* `tracks_unseen`: a step that is put in between is tracked by its absence.
* `watch_eq_trace`: a run with insertions.
* `insertions_unseen`: every session, from every place that one can come to.
-/
namespace IniScan

open Text

namespace Host

section

variable {g h : Host}

/-- From one place hosts with one configuration find the same kind and come to one place. -/
theorem scan_of_abreast (hconfig : g.scanner.config = h.scanner.config) (hcursor : g.cursor.Abreast h.cursor)
    (offered : KindSet) : (g.scan offered).1 = (h.scan offered).1 ∧
      (g.scan offered).2.cursor.Abreast (h.scan offered).2.cursor := by
  have hread : g.scanner.read offered g.cursor.unread = h.scanner.read offered h.cursor.unread := by
    rw [hcursor.unread]
    exact Scanner.read_eq_of_mode (congrArg Config.mode hconfig) offered _
  rw [scan_eq, scan_eq, hread]
  exact ⟨rfl, hcursor.follow _⟩

/-- From one place hosts with one configuration find the same token and come to one place. -/
theorem nextToken_of_abreast (hconfig : g.scanner.config = h.scanner.config) (hcursor : g.cursor.Abreast h.cursor)
    (offered : KindSet) : (g.nextToken offered).1 = (h.nextToken offered).1 ∧
      (g.nextToken offered).2.cursor.Abreast (h.nextToken offered).2.cursor := by
  have hagree : g.Agree h offered :=
    agree_of_read_eq hcursor (Scanner.read_eq_of_mode (congrArg Config.mode hconfig) offered)
  exact ⟨hagree.token, hagree.place⟩

end

/-- A call that finds no token stays at its place. -/
theorem abreast_nextToken_of_none {h : Host} {offered : KindSet} (hn : (h.nextToken offered).1 = none) :
    (h.nextToken offered).2.cursor.Abreast h.cursor := by
  have hrejects := rejects_of_none hn
  exact ⟨hrejects.passed, hrejects.unread⟩

end Host

namespace Session

/-! ## Runs with insertions -/

/-- The steps that go over the text. -/
def Step.Reads : Step → Prop
  | .nextToken _ | .scan _ | .bump _ | .bumpIgnoreCase _ | .eatWhile _ | .move _ => True
  | _ => False

/-- A step that goes over the text is one of six. -/
theorem Step.Reads.cases {motive : (x : Step) → x.Reads → Prop} (nextToken : ∀ offered, motive (.nextToken offered) trivial)
    (scan : ∀ offered, motive (.scan offered) trivial) (bump : ∀ t, motive (.bump t) trivial)
    (bumpIgnoreCase : ∀ t, motive (.bumpIgnoreCase t) trivial) (eatWhile : ∀ p, motive (.eatWhile p) trivial)
    (move : ∀ m, motive (.move m) trivial) (x : Step) (hx : x.Reads) : motive x hx := by
  cases x with
  | nextToken offered => exact nextToken offered
  | scan offered => exact scan offered
  | bump t => exact bump t
  | bumpIgnoreCase t => exact bumpIgnoreCase t
  | eatWhile p => exact eatWhile p
  | move m => exact move m
  | store buffer => exact hx.elim
  | restore bytes => exact hx.elim
  | reinstate bytes => exact hx.elim
  | reload buffer => exact hx.elim
  | save => exact hx.elim
  | load => exact hx.elim

/-- The steps that restore what bytes store. -/
def Step.Restores : Step → Prop
  | .restore _ | .reinstate _ | .reload _ => True
  | _ => False

/-- The steps that may be put in between here: those on the scanner, and a call for a token that is rejected. -/
def Unseen (s : Session) : Step → Prop
  | .store _ | .restore _ | .reinstate _ | .reload _ => True
  | .nextToken offered => (s.host.nextToken offered).1 = none
  | _ => False

/-- A step of the session, or one that is put in between. -/
inductive Event where
  | own (x : Step)
  | put (x : Step)

def Event.own? : Event → Option Step
  | .own x => some x
  | .put _ => none

/-- The session's own steps go over the text, and the others may be put where they stand. -/
def Admits (s : Session) : List Event → Prop
  | [] => True
  | .own x :: es => x.Reads ∧ (s.step x).2.Admits es
  | .put x :: es => s.Unseen x ∧ (s.step x).2.Admits es

/-- The answers to the steps, each with the read position behind it. -/
def trace (s : Session) : List Step → List (Answer × Nat)
  | [] => []
  | x :: xs => ((s.step x).1, (s.step x).2.host.cursor.pos) :: (s.step x).2.trace xs

/-- What the session's own steps come to when the others are put in between. -/
def watch (s : Session) : List Event → List (Answer × Nat)
  | [] => []
  | .own x :: es => ((s.step x).1, (s.step x).2.host.cursor.pos) :: (s.step x).2.watch es
  | .put x :: es => (s.step x).2.watch es

/-! ## Another word -/

theorem restored_cases (s : Session) {t : Scanner} (ht : t.config = s.host.scanner.config) {bytes : List UInt8}
    {x : Scanner} (hx : t.restore bytes = .ok x) :
    ∃ w, w.Sound ∧ s.withScanner x = s.withScanner ⟨s.host.scanner.config, w⟩ := by
  obtain ⟨w, hw, rfl⟩ := Scanner.restore_eq_ok_iff.1 hx
  exact ⟨w, Word.sound_ofBytes hw, by rw [ht]⟩

/-- A step that restores gives the scanner another word, of the right size, or is refused and does nothing. -/
theorem step_of_restores (s : Session) {x : Step} (hx : x.Restores) : (s.step x).2 = s ∨
    ∃ w, w.Sound ∧ (s.step x).2 = s.withScanner ⟨s.host.scanner.config, w⟩ := by
  cases x with
  | restore bytes =>
    simp only [step]
    split
    · rename_i y hy
      exact Or.inr (restored_cases s rfl hy)
    · exact Or.inl rfl
  | reinstate bytes =>
    simp only [step]
    split
    · rename_i y hy
      exact Or.inr (restored_cases s rfl (Scanner.reinstate_eq_ok_iff.1 hy))
    · exact Or.inl rfl
  | reload buffer =>
    simp only [step]
    split
    · rename_i y hy
      exact Or.inr (restored_cases s rfl (Scanner.reinstate_eq_ok_iff.1 hy))
    · exact Or.inl rfl
  | nextToken offered => exact hx.elim
  | scan offered => exact hx.elim
  | bump a => exact hx.elim
  | bumpIgnoreCase a => exact hx.elim
  | eatWhile p => exact hx.elim
  | move m => exact hx.elim
  | store buffer => exact hx.elim
  | save => exact hx.elim
  | load => exact hx.elim

/-! ## Tracking -/

/-- The sessions are at one place of one text, with one configuration. -/
structure Tracks (s t : Session) : Prop where
  config : s.host.scanner.config = t.host.scanner.config
  cursor : s.host.cursor.Abreast t.host.cursor

theorem Tracks.refl (s : Session) : s.Tracks s := ⟨rfl, Cursor.Abreast.refl _⟩

theorem Tracks.trans {s t u : Session} (h : s.Tracks t) (h' : t.Tracks u) : s.Tracks u :=
  ⟨h.config.trans h'.config, h.cursor.trans h'.cursor⟩

section

variable {s t : Session}

theorem tracks_moveTo (h : s.Tracks t) {c d : Option Cursor} (hcd : Cursor.AbreastIf c d) :
    (s.moveTo c).1 = (t.moveTo d).1 ∧ (s.moveTo c).2.Tracks (t.moveTo d).2 := by
  rcases hcd with ⟨rfl, rfl⟩ | ⟨x, y, rfl, rfl, hxy⟩
  · exact ⟨rfl, h⟩
  · exact ⟨rfl, h.config, hxy⟩

theorem tracks_step (h : s.Tracks t) {x : Step} (hx : x.Reads) :
    (s.step x).1 = (t.step x).1 ∧ (s.step x).2.Tracks (t.step x).2 := by
  cases x, hx using Step.Reads.cases with
  | nextToken offered =>
    obtain ⟨htoken, hcursor⟩ := Host.nextToken_of_abreast h.config h.cursor offered
    refine ⟨congrArg Answer.token htoken, ?_, hcursor⟩
    exact (s.host.config_nextToken offered).trans (h.config.trans (t.host.config_nextToken offered).symm)
  | scan offered =>
    obtain ⟨hkind, hcursor⟩ := Host.scan_of_abreast h.config h.cursor offered
    refine ⟨congrArg Answer.kind hkind, ?_, hcursor⟩
    exact (s.host.config_scan offered).trans (h.config.trans (t.host.config_scan offered).symm)
  | bump a => exact tracks_moveTo h (h.cursor.bump? a)
  | bumpIgnoreCase a => exact tracks_moveTo h (h.cursor.bumpIgnoreCase? a)
  | eatWhile p => exact ⟨rfl, h.config, h.cursor.eatWhile p⟩
  | move m => exact ⟨rfl, h.config, h.cursor.go m⟩

theorem tracks_of_restores {x : Step} (hx : x.Restores) : (s.step x).2.Tracks s := by
  rcases s.step_of_restores hx with hstep | ⟨w, -, hstep⟩
  · rw [hstep]
    exact Tracks.refl s
  · rw [hstep]
    exact ⟨rfl, Cursor.Abreast.refl _⟩

theorem tracks_unseen {x : Step} (hx : s.Unseen x) : (s.step x).2.Tracks s := by
  cases x with
  | nextToken offered => exact ⟨s.host.config_nextToken offered, Host.abreast_nextToken_of_none hx⟩
  | scan offered => exact hx.elim
  | bump a => exact hx.elim
  | bumpIgnoreCase a => exact hx.elim
  | eatWhile p => exact hx.elim
  | move m => exact hx.elim
  | store buffer => exact Tracks.refl s
  | restore bytes => exact tracks_of_restores trivial
  | reinstate bytes => exact tracks_of_restores trivial
  | reload buffer => exact tracks_of_restores trivial
  | save => exact hx.elim
  | load => exact hx.elim

theorem watch_eq_trace (h : s.Tracks t) {events : List Event} (hadmits : s.Admits events) :
    s.watch events = t.trace (events.filterMap Event.own?) := by
  induction events generalizing s t with
  | nil => rfl
  | cons e es ih =>
    cases e with
    | own x =>
      obtain ⟨hx, hes⟩ := hadmits
      obtain ⟨hanswer, hnext⟩ := tracks_step h hx
      rw [List.filterMap_cons, watch, ih hnext hes, hanswer, hnext.cursor.pos]
      rfl
    | put x =>
      obtain ⟨hx, hes⟩ := hadmits
      rw [List.filterMap_cons, watch]
      exact ih ((tracks_unseen hx).trans h) hes

end

/-! ## Words of a session -/

/-- The words of the host and of its copy have the right size. -/
def Sound (s : Session) : Prop := s.host.scanner.word.Sound ∧ s.saved.scanner.word.Sound

theorem sound_moveTo {s : Session} (h : s.Sound) (c : Option Cursor) : (s.moveTo c).2.Sound := by
  cases c <;> exact h

theorem sound_of_restores {s : Session} (h : s.Sound) {x : Step} (hx : x.Restores) : (s.step x).2.Sound := by
  rcases s.step_of_restores hx with hstep | ⟨w, hw, hstep⟩
  · rw [hstep]
    exact h
  · rw [hstep]
    exact ⟨hw, h.2⟩

theorem sound_step {s : Session} (h : s.Sound) (x : Step) : (s.step x).2.Sound := by
  cases x with
  | nextToken offered =>
    refine ⟨?_, h.2⟩
    exact s.host.scanner_nextToken offered ▸ Scanner.sound_settle h.1 offered
  | scan offered =>
    refine ⟨?_, h.2⟩
    exact s.host.scanner_scan offered ▸ Scanner.sound_settle h.1 offered
  | bump t => exact sound_moveTo h _
  | bumpIgnoreCase t => exact sound_moveTo h _
  | eatWhile p => exact h
  | move m => exact h
  | store buffer => exact h
  | restore bytes => exact sound_of_restores h trivial
  | reinstate bytes => exact sound_of_restores h trivial
  | reload buffer => exact sound_of_restores h trivial
  | save => exact ⟨h.1, h.1⟩
  | load => exact ⟨h.2, h.2⟩

theorem sound_run {s : Session} (h : s.Sound) (steps : List Step) : (s.run steps).2.Sound := by
  induction steps generalizing s with
  | nil => exact h
  | cons x xs ih => exact ih (sound_step h x)

theorem sound_ofText (config : Config) (source : List Char) : (ofText config source).Sound :=
  ⟨Word.sound_empty, Word.sound_empty⟩

theorem reload_of_sound {s : Session} (h : s.Sound) (buffer : List UInt8) : (s.step (.reload buffer)).1 = .done := by
  obtain ⟨w, hw, -⟩ := Scanner.restore_store h.1 buffer (Scanner.ofConfig s.host.scanner.config)
  simp only [step, Scanner.reinstate_eq_ok_iff.2 hw]

/-- **Insertions are unseen.** Wherever a session has come to, its steps over the text have the same answers and the same
read positions when the scanner is stored, restored from any bytes and replaced by a new one between them, and when
calls that are rejected are made between them. A new scanner never refuses what the old one stored. -/
theorem insertions_unseen (config : Config) (source : List Char) (before : List Step) :
    let s := ((ofText config source).run before).2
    (∀ events, s.Admits events → s.watch events = s.trace (events.filterMap Event.own?)) ∧
    ∀ buffer, (s.step (.reload buffer)).1 = .done := by
  intro s
  exact ⟨fun events hadmits => watch_eq_trace (Tracks.refl s) hadmits,
    reload_of_sound (sound_run (sound_ofText config source) before)⟩

/-- A header with a part of a word restored in front of each of its tokens. -/
theorem insertions_unseen_header :
    (ofText default "[Key a]".toList).watch
      [.put (.restore [3, 112, 97, 116]), .own (.nextToken KindSet.line), .put (.nextToken KindSet.path),
        .own (.bump ['[']), .put (.reload []), .own (.bumpIgnoreCase "key".toList), .put (.reinstate [9]),
        .own (.nextToken {Kind.keySuffix})] =
      [(.token (some ⟨.headerStart, 0, 0⟩), 0), (.consumed true, 1), (.consumed true, 4),
        (.token (some ⟨.keySuffix, 5, 6⟩), 6)] := by
  have hadmits : (ofText default "[Key a]".toList).Admits
      [.put (.restore [3, 112, 97, 116]), .own (.nextToken KindSet.line), .put (.nextToken KindSet.path),
        .own (.bump ['[']), .put (.reload []), .own (.bumpIgnoreCase "key".toList), .put (.reinstate [9]),
        .own (.nextToken {Kind.keySuffix})] :=
    ⟨trivial, trivial, rfl, trivial, trivial, trivial, trivial, trivial, trivial⟩
  exact ((insertions_unseen default "[Key a]".toList []).1 _ hadmits).trans rfl

end Session

end IniScan
