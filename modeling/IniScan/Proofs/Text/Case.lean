import IniScan.Text.Basic

/-!
# Letter case and sizes

Folding the case of a text changes no size, so two texts that agree up to case have one length and take the same
number of bytes.

* `byteSize_lower`: the text in lower case takes as many bytes.
* `lower_eq_iff_zip`: texts of one size agree up to case when the pairs of their characters do.
-/
namespace IniScan.Text

/-- A capital is followed at a distance of 32 by its small letter, and no other character changes. -/
theorem toNat_toLower (c : Char) :
    c.toLower.toNat = if 0x41 ≤ c.toNat ∧ c.toNat ≤ 0x5A then c.toNat + 32 else c.toNat := by
  have hiff : (c.val ≥ 'A'.val ∧ c.val ≤ 'Z'.val) ↔ 0x41 ≤ c.toNat ∧ c.toNat ≤ 0x5A := by
    rw [ge_iff_le, UInt32.le_iff_toNat_le, UInt32.le_iff_toNat_le]
    rfl
  unfold Char.toLower
  split
  · rename_i h
    rw [if_pos (hiff.1 h)]
    have hle := (hiff.1 h).2
    have hadd : (c.val + ('a'.val - 'A'.val)).toNat = (c.toNat + 32) % 2 ^ 32 := UInt32.toNat_add _ _
    show (c.val + ('a'.val - 'A'.val)).toNat = c.toNat + 32
    omega
  · rename_i h
    rw [if_neg (fun h' => h (hiff.2 h'))]

theorem utf8Size_eq_one_iff {c : Char} : c.utf8Size = 1 ↔ c.toNat < 0x80 := by
  rw [Char.utf8Size_eq_one_iff, UInt32.le_iff_toNat_le]
  exact Nat.lt_succ_iff.symm

theorem utf8Size_toLower (c : Char) : c.toLower.utf8Size = c.utf8Size := by
  have hlower := toNat_toLower c
  split at hlower
  · rw [utf8Size_eq_one_iff.2 (show c.toNat < 0x80 by omega), utf8Size_eq_one_iff]
    omega
  · rw [Char.toNat_inj.1 hlower]

/-- A letter in lower case comes from itself or from its capital. -/
theorem eq_or_of_toLower {c d : Char} (h : c.toLower = d) : c = d ∨ c = Char.ofNat (d.toNat - 32) := by
  subst h
  have hlower := toNat_toLower c
  split at hlower
  · right
    rw [hlower, Nat.add_sub_cancel, Char.ofNat_toNat]
  · left
    exact (Char.toNat_inj.1 hlower).symm

/-! ## Letters -/

theorem isAlpha_of_toLower {c : Char} (h : c.toLower.isAlpha = true) : c.isAlpha = true := by
  unfold Char.toLower at h
  split at h
  · rename_i hc
    have hu : c.isUpper = true := decide_eq_true hc
    show (c.isUpper || c.isLower) = true
    rw [hu, Bool.true_or]
  · exact h

theorem not_isBlank_of_isAlpha {c : Char} (h : c.isAlpha = true) : isBlank c = false := by
  cases hb : isBlank c with
  | false => rfl
  | true =>
    simp only [isBlank, Bool.or_eq_true, decide_eq_true_eq] at hb
    rcases hb with rfl | rfl <;> exact absurd h (by decide)

theorem utf8Size_of_isAlpha {c : Char} (h : c.isAlpha = true) : c.utf8Size = 1 := by
  refine Char.utf8Size_eq_one_iff.2 (UInt32.le_iff_toNat_le.2 ?_)
  show c.val.toNat ≤ 127
  have hcase : c.isUpper = true ∨ c.isLower = true := (Bool.or_eq_true _ _).mp h
  rcases hcase with hupper | hlower
  · have hrange : 'A'.val ≤ c.val ∧ c.val ≤ 'Z'.val := of_decide_eq_true hupper
    have : c.val.toNat ≤ 90 := UInt32.le_iff_toNat_le.1 hrange.2
    omega
  · have hle : c.val ≤ 'z'.val := of_decide_eq_true ((Bool.and_eq_true _ _).mp hlower).2
    have : c.val.toNat ≤ 122 := UInt32.le_iff_toNat_le.1 hle
    omega

theorem byteSize_of_isAlpha {s : List Char} (h : ∀ c ∈ s, c.isAlpha = true) : byteSize s = s.length := by
  induction s with
  | nil => rfl
  | cons c cs ih =>
    rw [byteSize_cons, utf8Size_of_isAlpha (h c List.mem_cons_self), ih fun d hd => h d (List.mem_cons_of_mem _ hd),
      List.length_cons, Nat.add_comm]

/-! ## Texts -/

@[simp] theorem lower_cons (c : Char) (cs : List Char) : lower (c :: cs) = c.toLower :: lower cs := rfl

@[simp] theorem lower_append (s t : List Char) : lower (s ++ t) = lower s ++ lower t := List.map_append

@[simp] theorem length_lower (s : List Char) : (lower s).length = s.length := List.length_map _

@[simp] theorem byteSize_lower (s : List Char) : byteSize (lower s) = byteSize s := by
  induction s with
  | nil => rfl
  | cons c cs ih => rw [lower_cons, byteSize_cons, byteSize_cons, ih, utf8Size_toLower]

theorem eq_nil_of_byteSize {s : List Char} (h : byteSize s = 0) : s = [] := by
  cases s with
  | nil => rfl
  | cons c cs => have := c.utf8Size_pos; rw [byteSize_cons] at h; omega

theorem eqIgnoreCase_iff {s t : List Char} : eqIgnoreCase s t = true ↔ lower s = lower t := by simp [eqIgnoreCase]

/-- For texts of one size it is enough to compare as far as the shorter one goes. -/
theorem lower_eq_iff_zip {s t : List Char} :
    (byteSize s = byteSize t ∧ ∀ p ∈ s.zip t, p.1.toLower = p.2.toLower) ↔ lower s = lower t := by
  refine ⟨?_, ?_⟩
  · induction s generalizing t with
    | nil =>
      intro hb
      obtain ⟨h, -⟩ := hb
      rw [eq_nil_of_byteSize h.symm]
    | cons c cs ih =>
      intro hb
      obtain ⟨h, hz⟩ := hb
      cases t with
      | nil => exact absurd (eq_nil_of_byteSize h) (by simp)
      | cons d ds =>
        have hcd : c.toLower = d.toLower := hz (c, d) (by simp)
        have hsz : c.utf8Size = d.utf8Size := by rw [← utf8Size_toLower c, hcd, utf8Size_toLower]
        rw [byteSize_cons, byteSize_cons] at h
        have hcs : lower cs = lower ds := ih ⟨by omega, fun p hp => hz p (by simp [hp])⟩
        rw [lower_cons, lower_cons, hcd, hcs]
  · intro h
    refine ⟨by rw [← byteSize_lower s, h, byteSize_lower], ?_⟩
    induction s generalizing t with
    | nil => simp
    | cons c cs ih =>
      cases t with
      | nil => simp
      | cons d ds =>
        rw [lower_cons, lower_cons, List.cons.injEq] at h
        intro p hp
        rw [List.zip_cons_cons, List.mem_cons] at hp
        rcases hp with rfl | hp
        · exact h.1
        · exact ih h.2 p hp

/-- One text begins with the other up to case when the pairs of their characters agree as far as that goes. -/
theorem isPrefix_lower_iff_zip {s t : List Char} :
    lower s <+: lower t ↔ s.length ≤ t.length ∧ ∀ p ∈ s.zip t, p.1.toLower = p.2.toLower := by
  induction s generalizing t with
  | nil => simp [lower]
  | cons c cs ih =>
    cases t with
    | nil => simp [lower]
    | cons d ds =>
      rw [lower_cons, lower_cons, List.cons_prefix_cons, ih, List.zip_cons_cons, List.forall_mem_cons, List.length_cons,
        List.length_cons, Nat.succ_le_succ_iff, and_left_comm]

end IniScan.Text
