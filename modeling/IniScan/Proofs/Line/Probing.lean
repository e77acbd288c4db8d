import IniScan.Proofs.Family.Collect
import IniScan.Proofs.Header.Recognised
import IniScan.Proofs.Line.Shape

/-!
# Probing with the word of a scanner

What runs behind a `[` is the collector of the line, with the letters that the word of the scanner holds from before. It
empties the word at the first letter of a name and pushes no more letters than fit, so at every point of the name the word is
that name as far as it has been read (`Gathered`). So the collector takes a text for a header by what the text is, though
it filters by the first letter, reads no further than a window and looks names up in a buffer of bytes.

* `gathered_step`, `gathered_of_passes`: what one step keeps and what a run keeps.
* `probes_iff_isHeader`: the letters from before do not count.
* `probe_finds_names`: which texts the probe recognises, and that it drops no letter of them.
-/
namespace IniScan.Line

open Text Header

/-- Behind a `[` the collector takes this text for a header, where the word is what the scanner has left. -/
def Probes (mode : MatchMode) (word : Word) (u : List Char) : Prop :=
  ((collector mode word).readFrom (.bracket, word) u).outcome.1 = .headerStart

instance (mode : MatchMode) (word : Word) (u : List Char) : Decidable (Probes mode word u) :=
  inferInstanceAs (Decidable (_ = _))

/-- Wherever the collector is in a name that it reads from this text, the word holds all letters of the name up to there. -/
def Keeps (mode : MatchMode) (word : Word) (u : List Char) : Prop :=
  ∀ ⦃way ms window w⦄, way <+: u → (collector mode word).Passes (.bracket, word) way ms (.name window, w) →
    w.chars = way.dropWhile isBlank ∧ w.saturated = false

/-! ## What the word holds -/

/-- The letters of a name of which no more than `window` are collected, and the word that they are collected in. -/
structure Named (name : List Char) (window : Nat) (word : Word) : Prop where
  isAlpha : ∀ c ∈ name, c.isAlpha = true
  length_le : name.length ≤ window
  window_le : window ≤ Word.capacity
  word_eq : word = Word.ofText name

section

variable {name : List Char} {window : Nat} {word : Word}

theorem Named.byteSize_le (h : Named name window word) : byteSize name ≤ Word.capacity := by
  rw [byteSize_of_isAlpha h.isAlpha]
  exact Nat.le_trans h.length_le h.window_le

theorem Named.chars (h : Named name window word) : word.chars = name := by
  rw [h.word_eq, Word.chars_ofText h.byteSize_le]

/-- No letter was dropped: a letter takes one byte and the window is no wider than a word. -/
theorem Named.saturated (h : Named name window word) : word.saturated = false := by
  have hfits : Word.empty.size + byteSize name ≤ Word.capacity := by
    rw [show Word.empty.size = 0 from rfl, Nat.zero_add]
    exact h.byteSize_le
  rw [h.word_eq, Word.ofText, Word.pushAll_of_le hfits]
  rfl

theorem named_first {mode : MatchMode} {c : Char} (hc : Probe.window mode c ≠ 0) :
    Named [c] (Probe.window mode c) (word.reset.push c) where
  isAlpha := by
    intro d hd
    rw [List.mem_singleton.1 hd]
    exact Probe.isAlpha_of_window hc
  length_le := Nat.one_le_iff_ne_zero.2 hc
  window_le := Probe.window_le mode c
  word_eq := rfl

theorem Named.push (h : Named name window word) {c : Char} (hc : c.isAlpha = true) (hroom : word.length < window) :
    Named (name ++ [c]) window (word.push c) where
  isAlpha := by
    intro d hd
    rcases List.mem_append.1 hd with hd | hd
    · exact h.isAlpha d hd
    · rw [List.mem_singleton.1 hd]
      exact hc
  length_le := by
    rw [Word.length, h.chars] at hroom
    rw [List.length_append, List.length_singleton]
    exact hroom
  window_le := h.window_le
  word_eq := by rw [h.word_eq, Word.push_ofText]

end

/-- Where the collector is when it has gone past `way` behind a `[`. In a name the word holds all of it. -/
def Gathered (way : List Char) : Place × Word → Prop
  | (.start, _) => False
  | (.bracket, _) => ∀ c ∈ way, isBlank c = true
  | (.name window, word) => ∃ b name, way = b ++ name ∧ (∀ c ∈ b, isBlank c = true) ∧ Named name window word
  | (.content, _) => True

section

variable {mode : MatchMode} {way : List Char}

theorem gathered_content {word : Word} {c : Char} {how : Advance} {next : Place × Word}
    (hstep : collectContent word c = .go how next) : Gathered (way ++ [c]) next := by
  unfold collectContent at hstep
  split at hstep
  · cases hstep
  · cases hstep
    trivial

theorem gathered_step {p : Place × Word} (h : Gathered way p) {c : Char} {how : Advance} {next : Place × Word}
    (hstep : collectStep mode p.1 p.2 c = .go how next) : Gathered (way ++ [c]) next := by
  obtain ⟨place, word⟩ := p
  cases place with
  | start => exact h.elim
  | bracket =>
    simp only [collectStep] at hstep
    split at hstep
    · rename_i hblank
      cases hstep
      intro d hd
      rcases List.mem_append.1 hd with hd | hd
      · exact h d hd
      · rw [List.mem_singleton.1 hd]
        exact hblank
    split at hstep
    · exact gathered_content hstep
    · rename_i hwindow
      cases hstep
      exact ⟨way, [c], rfl, h, named_first hwindow⟩
  | name window =>
    obtain ⟨b, name, rfl, hb, hname⟩ := h
    simp only [collectStep] at hstep
    split at hstep
    · rename_i hgo
      simp only [Bool.and_eq_true, decide_eq_true_eq] at hgo
      cases hstep
      exact ⟨b, name ++ [c], List.append_assoc b name [c], hb, hname.push hgo.1 hgo.2⟩
    split at hstep
    · cases hstep
    · exact gathered_content hstep
  | content => exact gathered_content hstep

theorem gathered_of_passes {word : Word} {p q : Place × Word} {a : List Char} {ms : List Move}
    (h : (collector mode word).Passes p a ms q) (hp : Gathered way p) : Gathered (way ++ a) q := by
  induction h generalizing way with
  | nil => rwa [List.append_nil]
  | cons hstep _ ih =>
    have hnext := ih (gathered_step hp hstep)
    rwa [List.append_assoc] at hnext

theorem keeps (mode : MatchMode) (word : Word) (u : List Char) : Keeps mode word u := by
  intro way ms window w _ hpasses
  have hbracket : Gathered [] (.bracket, word) := fun c hc => by cases hc
  obtain ⟨b, name, rfl, hb, hname⟩ := gathered_of_passes hpasses hbracket
  have hstops : Stops isBlank name := fun c hc => not_isBlank_of_isAlpha (hname.isAlpha c (List.mem_of_head? hc))
  rw [dropWhile_append_of_stops hb hstops]
  exact ⟨hname.chars, hname.saturated⟩

end

/-! ## The verdict -/

/-- Nothing else in a line is the start of a header. -/
theorem outcome_readFrom_header (mode : MatchMode) (u : List Char) :
    ((reader mode).readFrom (.header .blanks) u).outcome = if isHeader mode u then .headerStart else .externalLine := by
  have hends : ∀ c ∈ u.takeWhile (fun c => !isLineEnd c), isLineEnd c = false := fun _ => not_of_mem_takeWhile
  obtain ⟨hyes, hno⟩ := readFrom_header mode hends (stops_dropWhile (fun c => !isLineEnd c) u) .blanks
  rw [List.takeWhile_append_dropWhile] at hyes hno
  rw [← isHeader_takeWhile]
  cases hv : isHeader mode (u.takeWhile fun c => !isLineEnd c) with
  | true =>
    obtain ⟨n, hn⟩ := hyes hv
    rw [hn, if_pos rfl]
  | false => rw [hno hv, if_neg Bool.false_ne_true]

theorem probes_iff_isHeader {mode : MatchMode} {word : Word} {u : List Char} :
    Probes mode word u ↔ isHeader mode u = true := by
  have halike := (collector_alike mode word).readFrom (show Stands (.bracket, word) (.header .blanks) from rfl) u
  have hkind := outcome_readFrom_header mode u
  rw [halike, Reading.outcome_map] at hkind
  rw [Probes, hkind]
  split
  · rename_i h
    exact iff_of_true rfl h
  · rename_i h
    exact iff_of_false Kind.noConfusion h

/-- Whatever the word holds from before, in exact mode the probe tells whether a section name comes first behind the blanks,
and in substring mode whether one stands among the first letters there. It drops none of the letters that it reads. -/
theorem probe_finds_names (word : Word) (u : List Char) :
    (Probes .exact word u ↔ ∃ k : Section, k.letters <+: lower (u.dropWhile isBlank)) ∧
    (Probes .substring word u ↔
      ∃ k : Section, k.letters <:+: lower (((u.dropWhile isBlank).takeWhile Char.isAlpha).take 255)) ∧
    ∀ mode, Keeps mode word u :=
  ⟨probes_iff_isHeader.trans Probe.isHeader_exact_iff, probes_iff_isHeader.trans Probe.isHeader_substring_iff,
    fun mode => keeps mode word u⟩

/-- In exact mode blanks, capitals and what follows the name do not count, and neither does what another name has left. -/
example : Probes .exact (Word.ofText "Logg".toList) " kEy1]".toList := by decide

end IniScan.Line
