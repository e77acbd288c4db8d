import IniScan.Proofs.Family.Choice
import IniScan.Proofs.Host.Found
import IniScan.Proofs.Text.Runs

/-!
# Every call for a token

Whatever is offered and wherever the cursor stands, a call finds a token or rejects, and what it skips in front of a token
is of the class that the token's kind allows. A token that is found lies between two offsets of the text.

* `finds_of_spans`: what a reading with a span finds.
* `finds_or_rejects`: the two ways for a call to end are all.
* `Finds.slice_gap`, `Finds.slice_text`: the gap and the token are slices of the text.
-/
namespace IniScan.Host

open Text

theorem finds_of_spans {h : Host} {offered : KindSet} {k : Kind} {a b : Nat} (hb : byteSize h.cursor.source < 2 ^ 32)
    (hr : (h.scanner.read offered h.cursor.unread).outcome = some k)
    (hs : (h.scanner.read offered h.cursor.unread).Spans a b) (hlen : b ≤ h.cursor.unread.length) :
    h.Finds offered k (h.cursor.unread.take a) ((h.cursor.unread.drop a).take (b - a)) := by
  have hab := hs.le
  have hrest : h.cursor.unread = h.cursor.unread.take a ++
      ((h.cursor.unread.drop a).take (b - a) ++ h.cursor.unread.drop b) := by
    have hd : h.cursor.unread.drop b = (h.cursor.unread.drop a).drop (b - a) := by
      rw [List.drop_drop, Nat.add_sub_cancel' hab]
    rw [hd, List.take_append_drop, List.take_append_drop]
  refine finds_of_read hb hr hs hrest ?_ ?_
  · rw [List.length_take]; omega
  · rw [List.length_take, List.length_drop]; omega

theorem finds_or_rejects (h : Host) (offered : KindSet) (hb : byteSize h.cursor.source < 2 ^ 32) :
    h.Rejects offered ∨ ∃ k gap text, h.Finds offered k gap text ∧ ∀ c ∈ gap, k.skips c = true := by
  cases hr : (h.scanner.read offered h.cursor.unread).outcome with
  | none => exact Or.inl (rejects_of_read hr)
  | some k =>
    right
    obtain ⟨a, b, hs, hlen, hc⟩ := Scanner.spans_read hr
    exact ⟨k, _, _, finds_of_spans hb hr hs hlen, hc⟩

section

variable {h : Host} {offered : KindSet} {k : Kind} {gap text : List Char}

/-- The token of a call that finds one. -/
theorem Finds.exists_token (hf : h.Finds offered k gap text) : ∃ t, (h.nextToken offered).1 = some t ∧ t.kind = k ∧
    t.start.toNat = h.cursor.pos + byteSize gap ∧ t.stop.toNat = h.cursor.pos + byteSize gap + byteSize text := by
  have := hf.fits
  refine ⟨_, hf.token, rfl, ?_, ?_⟩
  · exact UInt32.toNat_ofNat_of_lt' (by show _ < 2 ^ 32; omega)
  · exact UInt32.toNat_ofNat_of_lt' hf.fits

theorem Finds.pos (hf : h.Finds offered k gap text) :
    (h.nextToken offered).2.cursor.pos = h.cursor.pos + byteSize gap + byteSize text := by
  rw [(h.nextToken offered).2.cursor.pos_eq, hf.passed, h.cursor.pos_eq]
  simp only [byteSize_append, byteSize_reverse]
  omega

/-- The text parted in front of the gap, of the token and of the rest. -/
theorem Finds.source (hf : h.Finds offered k gap text) : h.cursor.source =
    h.cursor.passed.reverse ++ (gap ++ (text ++ (h.nextToken offered).2.cursor.unread)) := by
  rw [Cursor.source, ← hf.unread]

theorem Finds.slice_gap (hf : h.Finds offered k gap text) :
    slice? h.cursor.source h.cursor.pos (h.cursor.pos + byteSize gap) = some gap := by
  have hp : h.cursor.pos = byteSize h.cursor.passed.reverse := by rw [byteSize_reverse, h.cursor.pos_eq]
  rw [hf.source, hp]
  exact slice?_of_append _ _ _

theorem Finds.slice_text (hf : h.Finds offered k gap text) :
    slice? h.cursor.source (h.cursor.pos + byteSize gap) (h.cursor.pos + byteSize gap + byteSize text) =
      some text := by
  have hp : h.cursor.pos + byteSize gap = byteSize (h.cursor.passed.reverse ++ gap) := by
    rw [byteSize_append, byteSize_reverse, h.cursor.pos_eq]
  rw [hf.source, hp, ← List.append_assoc]
  exact slice?_of_append _ _ _

end

theorem Rejects.pos {h : Host} {offered : KindSet} (hr : h.Rejects offered) :
    (h.nextToken offered).2.cursor.pos = h.cursor.pos := by
  rw [(h.nextToken offered).2.cursor.pos_eq, hr.passed, h.cursor.pos_eq]

end IniScan.Host
