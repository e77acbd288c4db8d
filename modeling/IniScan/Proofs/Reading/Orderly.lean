import IniScan.Boundary
import IniScan.Header.RegexName
import IniScan.Header.Subject
import IniScan.Path
import IniScan.Proofs.Line.Steps
import IniScan.Proofs.Reading.Span

/-!
# Skips come first

A reader skips only at its beginning, before it has taken or marked anything, and only characters of one class.
`Orderly` says this of single steps: `fresh` are the states in which nothing has been taken or marked, a skip starts in
one of them, and every other way to go on leaves them for good.

* `Orderly.spans`: the reading of an orderly reader has a span, and what it skips in front of it is of the class.
* `boundary_orderly`, `subject_orderly`, `line_orderly`, `regexName_orderly`, `separator_orderly`,
  `content_orderly`: the readers are.
-/
namespace IniScan

open Text

namespace Reader

variable {σ α : Type}

/-- A reader that skips only in fresh states and only characters of the class, and is not fresh once it has gone on
otherwise. -/
structure Orderly (r : Reader σ α) (fresh : σ → Prop) (skips : Char → Bool) : Prop where
  skip : ∀ {s t : σ} {c : Char}, r.step s c = .go .skip t → fresh s ∧ skips c = true
  leave : ∀ {s t : σ} {c : Char} {how : Advance}, r.step s c = .go how t → how ≠ .skip → ¬ fresh t

theorem Ending.skip_not_mem_moves (e : Ending α) : Move.skip ∉ e.moves := by
  unfold Ending.moves
  split <;> simp

theorem Orderly.moves_readFrom {r : Reader σ α} {fresh : σ → Prop} {skips : Char → Bool} (h : r.Orderly fresh skips)
    (s : σ) (cs : List Char) : ∃ a ms, (r.readFrom s cs).moves = List.replicate a .skip ++ ms ∧ Move.skip ∉ ms ∧
      (∀ c ∈ cs.take a, skips c = true) ∧ (¬ fresh s → a = 0) := by
  induction cs generalizing s with
  | nil => exact ⟨0, _, rfl, Ending.skip_not_mem_moves _, by simp, fun _ => rfl⟩
  | cons c cs ih =>
    cases hstep : r.step s c with
    | stop e =>
      rw [readFrom_of_stop cs hstep]
      exact ⟨0, _, rfl, Ending.skip_not_mem_moves _, by simp, fun _ => rfl⟩
    | go how t =>
      rw [moves_readFrom_cons cs hstep]
      obtain ⟨a, ms, hm, hn, hc, hf⟩ := ih t
      by_cases hskip : how = .skip
      · subst hskip
        obtain ⟨hs, hcs⟩ := h.skip hstep
        refine ⟨a + 1, ms, by rw [hm]; rfl, hn, ?_, fun hs' => absurd hs hs'⟩
        intro d hd
        rw [List.take_succ_cons, List.mem_cons] at hd
        rcases hd with rfl | hd
        · exact hcs
        · exact hc d hd
      · have ha : a = 0 := hf (h.leave hstep hskip)
        subst ha
        refine ⟨0, how.moves ++ ms, by rw [hm]; rfl, ?_, by simp, fun _ => rfl⟩
        rw [List.mem_append, not_or]
        refine ⟨?_, hn⟩
        cases how with
        | skip => exact absurd rfl hskip
        | take => simp [Advance.moves]
        | markTake => simp [Advance.moves]
        | takeMark => simp [Advance.moves]

theorem Orderly.spans {r : Reader σ α} {fresh : σ → Prop} {skips : Char → Bool} (h : r.Orderly fresh skips)
    (cs : List Char) : ∃ a b, (r.read cs).Spans a b ∧ b ≤ cs.length ∧ ∀ c ∈ cs.take a, skips c = true := by
  obtain ⟨a, ms, hm, hn, hc, -⟩ := h.moves_readFrom r.start cs
  have hs : (r.read cs).Spans a _ := ⟨ms, hm, hn, rfl⟩
  exact ⟨a, _, hs, Nat.le_trans hs.le_advances (r.advances_le r.start cs), hc⟩

end Reader

/-! ## The readers -/

theorem boundary_orderly : Boundary.reader.Orderly (fun _ => True) (fun c => isBlank c || isLineEnd c) := by
  refine ⟨?_, ?_⟩
  · intro s t c h
    simp only [Boundary.reader, Boundary.step] at h
    split at h
    · rename_i hc
      exact ⟨trivial, by rw [hc, Bool.or_true]⟩
    · split at h
      · rename_i hc
        exact ⟨trivial, by rw [hc, Bool.true_or]⟩
      · cases h
  · intro s t c how h hn
    simp only [Boundary.reader, Boundary.step] at h
    split at h
    · cases h; exact absurd rfl hn
    · split at h
      · cases h; exact absurd rfl hn
      · cases h

theorem subject_orderly : Header.Subject.reader.Orderly (fun text => text = false) isBlank := by
  refine ⟨?_, ?_⟩
  · intro s t c h
    simp only [Header.Subject.reader, Header.Subject.step] at h
    split at h
    · cases h
    · split at h
      · rename_i hc
        cases s
        · exact ⟨rfl, hc⟩
        · cases h
      · cases h
  · intro s t c how h hn
    simp only [Header.Subject.reader, Header.Subject.step] at h
    split at h
    · cases h
    · split at h
      · cases s
        · cases h; exact absurd rfl hn
        · cases h; simp
      · cases h; simp

theorem line_orderly (mode : MatchMode) : (Line.reader mode).Orderly (fun s => s = .start) isBlank := by
  refine ⟨?_, ?_⟩
  · intro s t c h
    cases Line.goes_of_step h with
    | blank hc => exact ⟨rfl, hc⟩
  · intro s t c how h hn
    cases Line.goes_of_step h with
    | blank => exact absurd rfl hn
    | bracket => exact nofun
    | probe => exact nofun
    | content => exact nofun

theorem regexName_orderly : Header.RegexName.reader.Orderly (fun _ => False) (fun _ => false) := by
  refine ⟨?_, ?_⟩
  · intro s t c h
    simp only [Header.RegexName.reader] at h
    split at h <;> cases h
  · intro s t c how _ _ hf
    exact hf

theorem separator_orderly : Path.separatorReader.Orderly (fun _ => False) (fun _ => false) := by
  refine ⟨?_, ?_⟩
  · intro s t c h
    simp only [Path.separatorReader] at h
    split at h <;> cases h
  · intro s t c how _ _ hf
    exact hf

theorem content_orderly : Path.contentReader.Orderly (fun _ => False) (fun _ => false) := by
  refine ⟨?_, ?_⟩
  · intro s t c h
    simp only [Path.contentReader, Path.step] at h
    split at h
    · split at h <;> cases h
    · split at h <;> cases h
  · intro s t c how _ _ hf
    exact hf

end IniScan
