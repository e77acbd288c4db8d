import IniScan.Proofs.Text.Utf8

/-!
# Bytes that are the form of a text

The reader refuses a byte as soon as no character goes on with it. So a character that is open when a byte is accepted
can be closed by any bytes within the ranges that are left, and is then one that is written so (`Opened.Has`).
This is the converse of reading what was written: what is read was written, and where reading
stops no character begins.

* `explains_decodeFrom`: what the reader says of bytes, from any state of it.
* `decode_eq_ok_iff`: the bytes that are read as a text are those that it is written as.
* `isValidUTF8_iff`: these are the well-formed bytes of the standard library.
* `describes_of_decode`: where other bytes stop to be a text, and how far the character goes that they stop in.
-/
namespace IniScan.Text.Utf8

/-! ## Characters by number -/

theorem toNat_charOfNat {n : Nat} (h : n.isValidChar) : (Char.ofNat n).toNat = n := by
  rw [Char.ofNat, dif_pos h]
  rfl

theorem encodeChar_ofNat {n : Nat} (h : n.isValidChar) : String.utf8EncodeChar (Char.ofNat n) =
    if n ≤ 0x7F then [UInt8.ofNat n]
    else if n ≤ 0x7FF then [UInt8.ofNat (n / 64 % 32 + 192), UInt8.ofNat (n % 64 + 128)]
    else if n ≤ 0xFFFF then
      [UInt8.ofNat (n / 4096 % 16 + 224), UInt8.ofNat (n / 64 % 64 + 128), UInt8.ofNat (n % 64 + 128)]
    else
      [UInt8.ofNat (n / 262144 % 8 + 240), UInt8.ofNat (n / 4096 % 64 + 128), UInt8.ofNat (n / 64 % 64 + 128),
        UInt8.ofNat (n % 64 + 128)] := by
  have hval : (Char.ofNat n).val.toNat = n := toNat_charOfNat h
  simp only [String.utf8EncodeChar, hval]

theorem ofNat_eq {n : Nat} {b : UInt8} (h : n = b.toNat) : UInt8.ofNat n = b := by rw [h, UInt8.ofNat_toNat]

/-! ## What closes an open character -/

/-- The bytes may end the open character: one in its range, and then as many following ones as are left. -/
def Opened.Closes (o : Opened) : List UInt8 → Prop
  | [] => False
  | b :: bs => (o.low ≤ b ∧ b ≤ o.high) ∧ bs.length = o.left ∧ ∀ d ∈ bs, 0x80 ≤ d ∧ d ≤ 0xBF

/-- The number of the character when these bytes end it. -/
def Opened.numberWith (o : Opened) (bs : List UInt8) : Nat := bs.foldl (fun n b => n * 64 + b.toNat % 64) o.bits

/-- The open character has been opened by `front`: the reader gets there by these bytes, and whatever may end the
character makes one that is written so. -/
structure Opened.Has (o : Opened) (front : List UInt8) : Prop where
  length : front.length = o.read
  range : o.low ≤ o.high
  reaches : ∀ valid bs, decodeFrom valid none (front ++ bs) = decodeFrom valid (some o) bs
  closes : ∀ tail, o.Closes tail → String.utf8EncodeChar (Char.ofNat (o.numberWith tail)) = front ++ tail

theorem tail_toNat {b : UInt8} (h : 0x80 ≤ b ∧ b ≤ 0xBF) : 128 ≤ b.toNat ∧ b.toNat ≤ 191 :=
  ⟨UInt8.le_iff_toNat_le.1 h.1, UInt8.le_iff_toNat_le.1 h.2⟩

theorem isValidChar_of_lt {n : Nat} (h : n < 0xD800) : n.isValidChar := Or.inl h

theorem isValidChar_of_gt {n : Nat} (h : 0xDFFF < n) (h' : n < 0x110000) : n.isValidChar := Or.inr ⟨h, h'⟩

section

variable {b : UInt8} {o : Opened}

theorem has_two (hlead : lead b = .opens o) (ho : o = ⟨1, 0, 0x80, 0xBF, b.toNat % 32⟩) (h : 0xC2 ≤ b.toNat)
    (h' : b.toNat < 0xE0) : o.Has [b] := by
  refine ⟨by rw [ho]; rfl, by rw [ho]; exact (by decide : (0x80 : UInt8) ≤ 0xBF),
    fun valid bs => decodeFrom_opens bs hlead, ?_⟩
  intro tail htail
  subst ho
  obtain _ | ⟨x, tail⟩ := tail
  · exact htail.elim
  obtain ⟨hx, hlength, -⟩ := htail
  obtain rfl := List.length_eq_zero_iff.1 hlength
  obtain ⟨hx1, hx2⟩ := tail_toNat hx
  have hn : Opened.numberWith ⟨1, 0, 0x80, 0xBF, b.toNat % 32⟩ [x] = b.toNat % 32 * 64 + x.toNat % 64 := rfl
  rw [hn, encodeChar_ofNat (isValidChar_of_lt (by omega)), if_neg (by omega), if_pos (by omega),
    ofNat_eq (b := b) (by omega), ofNat_eq (b := x) (by omega)]
  rfl

theorem has_three (hlead : lead b = .opens o) {low high : UInt8} (ho : o = ⟨1, 1, low, high, b.toNat % 16⟩)
    (h : 0xE0 ≤ b.toNat) (h' : b.toNat < 0xF0) (hlow : low.toNat = if b.toNat = 0xE0 then 0xA0 else 0x80)
    (hhigh : high.toNat = if b.toNat = 0xED then 0x9F else 0xBF) : o.Has [b] := by
  have hrange : low.toNat ≤ high.toNat := by rw [hlow, hhigh]; split <;> split <;> omega
  refine ⟨by rw [ho]; rfl, by rw [ho]; exact UInt8.le_iff_toNat_le.2 hrange,
    fun valid bs => decodeFrom_opens bs hlead, ?_⟩
  intro tail htail
  subst ho
  obtain _ | ⟨x, tail⟩ := tail
  · exact htail.elim
  obtain ⟨⟨hx1, hx2⟩, hlength, htail⟩ := htail
  obtain ⟨y, rfl⟩ := List.length_eq_one_iff.1 hlength
  obtain ⟨hy1, hy2⟩ := tail_toNat (htail y List.mem_cons_self)
  have hx3 : low.toNat ≤ x.toNat := UInt8.le_iff_toNat_le.1 hx1
  have hx4 : x.toNat ≤ high.toNat := UInt8.le_iff_toNat_le.1 hx2
  have hn : Opened.numberWith ⟨1, 1, low, high, b.toNat % 16⟩ [x, y] =
      (b.toNat % 16 * 64 + x.toNat % 64) * 64 + y.toNat % 64 := rfl
  -- the second byte keeps the number above the shorter forms and away from the surrogates
  have hvalid : Nat.isValidChar ((b.toNat % 16 * 64 + x.toNat % 64) * 64 + y.toNat % 64) := by
    by_cases hd : b.toNat ≤ 0xED
    · refine isValidChar_of_lt ?_
      split at hhigh <;> split at hlow <;> omega
    · refine isValidChar_of_gt ?_ ?_ <;> split at hhigh <;> split at hlow <;> omega
  rw [hn, encodeChar_ofNat hvalid]
  split at hhigh <;> split at hlow <;>
    rw [if_neg (by omega), if_neg (by omega), if_pos (by omega), ofNat_eq (b := b) (by omega),
      ofNat_eq (b := x) (by omega), ofNat_eq (b := y) (by omega)] <;> rfl

theorem has_four (hlead : lead b = .opens o) {low high : UInt8} (ho : o = ⟨1, 2, low, high, b.toNat % 8⟩)
    (h : 0xF0 ≤ b.toNat) (h' : b.toNat ≤ 0xF4) (hlow : low.toNat = if b.toNat = 0xF0 then 0x90 else 0x80)
    (hhigh : high.toNat = if b.toNat = 0xF4 then 0x8F else 0xBF) : o.Has [b] := by
  have hrange : low.toNat ≤ high.toNat := by rw [hlow, hhigh]; split <;> split <;> omega
  refine ⟨by rw [ho]; rfl, by rw [ho]; exact UInt8.le_iff_toNat_le.2 hrange,
    fun valid bs => decodeFrom_opens bs hlead, ?_⟩
  intro tail htail
  subst ho
  obtain _ | ⟨x, tail⟩ := tail
  · exact htail.elim
  obtain ⟨⟨hx1, hx2⟩, hlength, htail⟩ := htail
  obtain ⟨y, tail, rfl⟩ := List.exists_cons_of_length_eq_add_one hlength
  obtain ⟨z, rfl⟩ := List.length_eq_one_iff.1 (Nat.succ.inj hlength)
  obtain ⟨hy1, hy2⟩ := tail_toNat (htail y List.mem_cons_self)
  obtain ⟨hz1, hz2⟩ := tail_toNat (htail z (List.mem_cons_of_mem _ List.mem_cons_self))
  have hx3 : low.toNat ≤ x.toNat := UInt8.le_iff_toNat_le.1 hx1
  have hx4 : x.toNat ≤ high.toNat := UInt8.le_iff_toNat_le.1 hx2
  have hn : Opened.numberWith ⟨1, 2, low, high, b.toNat % 8⟩ [x, y, z] =
      ((b.toNat % 8 * 64 + x.toNat % 64) * 64 + y.toNat % 64) * 64 + z.toNat % 64 := rfl
  -- the second byte keeps the number above the shorter forms and below the last character
  have hvalid : Nat.isValidChar (((b.toNat % 8 * 64 + x.toNat % 64) * 64 + y.toNat % 64) * 64 + z.toNat % 64) := by
    refine isValidChar_of_gt ?_ ?_ <;> split at hhigh <;> split at hlow <;> omega
  rw [hn, encodeChar_ofNat hvalid]
  split at hhigh <;> split at hlow <;>
    rw [if_neg (by omega), if_neg (by omega), if_neg (by omega), ofNat_eq (b := b) (by omega),
      ofNat_eq (b := x) (by omega), ofNat_eq (b := y) (by omega), ofNat_eq (b := z) (by omega)] <;> rfl

/-- The table of first bytes opens only what can be closed. -/
theorem has_lead (hlead : lead b = .opens o) : o.Has [b] := by
  have hb : UInt8.ofNat b.toNat = b := UInt8.ofNat_toNat
  have htable := lead_ofNat b.toNat_lt
  rw [hb, hlead] at htable
  by_cases h1 : b.toNat < 0x80
  · rw [if_pos h1] at htable
    cases htable
  by_cases h2 : b.toNat < 0xC2
  · rw [if_neg h1, if_pos h2] at htable
    cases htable
  by_cases h3 : b.toNat < 0xE0
  · rw [if_neg h1, if_neg h2, if_pos h3] at htable
    cases htable
    exact has_two hlead rfl (by omega) h3
  by_cases h4 : b.toNat < 0xF0
  · obtain ⟨low, high, hopens, hlow, hhigh⟩ := lead_three (n := b.toNat) (by omega) h4
    rw [hb, hlead] at hopens
    cases hopens
    exact has_three hlead rfl (by omega) h4 hlow hhigh
  by_cases h5 : b.toNat ≤ 0xF4
  · obtain ⟨low, high, hopens, hlow, hhigh⟩ := lead_four (n := b.toNat) (by omega) h5
    rw [hb, hlead] at hopens
    cases hopens
    exact has_four hlead rfl (by omega) h5 hlow hhigh
  · simp (disch := omega) only [if_neg] at htable
    cases htable

end

theorem encodeChar_of_whole {b : UInt8} {c : Char} (hlead : lead b = .whole c) : String.utf8EncodeChar c = [b] := by
  have htable := lead_ofNat b.toNat_lt
  rw [UInt8.ofNat_toNat, hlead] at htable
  by_cases h : b.toNat < 0x80
  · rw [if_pos h] at htable
    cases htable
    rw [encodeChar_ofNat (isValidChar_of_lt (by omega)), if_pos (by omega), UInt8.ofNat_toNat]
  · rw [if_neg h] at htable
    repeat' split at htable
    all_goals cases htable

/-! ## One byte more -/

/-- Some character is written with these bytes first. -/
def Begins (front : List UInt8) : Prop := ∃ c, front <+: String.utf8EncodeChar c

section

variable {o : Opened} {front : List UInt8} {b : UInt8}

theorem Opened.Has.ne_nil (h : o.Has front) : front ≠ [] := by
  rintro rfl
  cases h.reaches 0 []

theorem Opened.Has.last (h : o.Has front) (hleft : o.left = 0) (hb : o.low ≤ b ∧ b ≤ o.high) :
    String.utf8EncodeChar (Char.ofNat (o.bitsWith b)) = front ++ [b] :=
  h.closes [b] ⟨hb, hleft.symm, by simp⟩

theorem Opened.Has.more {left : Nat} (h : o.Has front) (hleft : o.left = left + 1) (hb : o.low ≤ b ∧ b ≤ o.high) :
    Opened.Has ⟨o.read + 1, left, 0x80, 0xBF, o.bitsWith b⟩ (front ++ [b]) := by
  refine ⟨by rw [List.length_append, h.length]; rfl, (by decide : (0x80 : UInt8) ≤ 0xBF), ?_, ?_⟩
  · intro valid bs
    rw [List.append_assoc, h.reaches, List.singleton_append, decodeFrom, if_pos hb, hleft]
  · intro tail htail
    obtain _ | ⟨x, xs⟩ := tail
    · exact htail.elim
    obtain ⟨hx, hlength, hxs⟩ := htail
    have hcloses : o.Closes (b :: x :: xs) := by
      refine ⟨hb, by rw [List.length_cons, hlength, hleft], ?_⟩
      intro d hd
      rcases List.mem_cons.1 hd with rfl | hd
      · exact hx
      · exact hxs d hd
    rw [List.append_assoc]
    exact h.closes _ hcloses

theorem Opened.Has.begins (h : o.Has front) : Begins front := by
  have hcloses : o.Closes (o.low :: List.replicate o.left 0x80) := by
    refine ⟨⟨UInt8.le_refl _, h.range⟩, List.length_replicate, ?_⟩
    intro d hd
    rw [List.eq_of_mem_replicate hd]
    decide
  exact ⟨_, _, (h.closes _ hcloses).symm⟩

/-- What begins a character is read without an error as far as it goes. -/
theorem not_begins_of_error (h : ∀ tail, ∃ cause, decodeFrom 0 none (front ++ tail) = .error cause) :
    ¬ Begins front := by
  rintro ⟨c, tail, hc⟩
  obtain ⟨cause, herror⟩ := h tail
  have hread := decodeFrom_encode [c] 0
  rw [encode_cons, encode_nil, List.append_nil, ← hc, herror] at hread
  cases hread

theorem Opened.Has.not_begins (h : o.Has front) (hb : ¬ (o.low ≤ b ∧ b ≤ o.high)) : ¬ Begins (front ++ [b]) := by
  refine not_begins_of_error fun tail => ⟨.invalid 0 o.read, ?_⟩
  rw [List.append_assoc, h.reaches, List.singleton_append, decodeFrom, if_neg hb]

theorem not_begins_of_nothing (hlead : lead b = .nothing) : ¬ Begins [b] := by
  refine not_begins_of_error fun tail => ⟨.invalid 0 1, ?_⟩
  rw [List.singleton_append, decodeFrom, hlead]

end

/-! ## What the reader says of bytes -/

/-- The bytes that have been read of the character that is open, if one is. -/
def Reads : Option Opened → List UInt8 → Prop
  | none, front => front = []
  | some o, front => o.Has front

/-- The number of bytes in front of the place where the bytes go wrong. -/
def Malformed.valid : Malformed → Nat
  | truncated valid | invalid valid _ => valid

/-- How the bytes go wrong, from that place on: they end inside a character, or `n` of them are all that begins one. -/
def Malformed.Names (rest : List UInt8) : Malformed → Prop
  | truncated _ => rest ≠ [] ∧ Begins rest
  | invalid _ width => ∃ n, n < rest.length ∧ Begins (rest.take n) ∧ ¬ Begins (rest.take (n + 1)) ∧ width = max 1 n

/-- The answer is right for the bytes behind `valid` others: they are the form of the text, or else of a text and of bytes
which no character stands in front of. -/
def Explains (valid : Nat) (bytes : List UInt8) : Except Malformed (List Char) → Prop
  | .ok s => bytes = encode s
  | .error cause => ∃ s rest, bytes = encode s ++ rest ∧ cause.valid = valid + byteSize s ∧
      (∀ c, ¬ String.utf8EncodeChar c <+: rest) ∧ cause.Names rest

theorem error_of_map {ε α β : Type} {f : α → β} {r : Except ε α} {e : ε} (h : r.map f = .error e) : r = .error e := by
  cases r with
  | ok a => cases h
  | error e' => cases h; rfl

theorem le_valid {valid : Nat} {o : Option Opened} {bs : List UInt8} {cause : Malformed}
    (h : decodeFrom valid o bs = .error cause) : valid ≤ cause.valid := by
  fun_induction decodeFrom valid o bs with
  | case1 => cases h
  | case2 valid o => cases h; exact Nat.le_refl _
  | case3 valid b bs c hlead ih => exact Nat.le_of_succ_le (ih (error_of_map h))
  | case4 valid b bs o hlead ih => exact ih h
  | case5 valid b bs hlead => cases h; exact Nat.le_refl _
  | case6 valid o b bs hb hleft ih =>
    have := ih (error_of_map h)
    omega
  | case7 valid o b bs hb left hleft ih => exact ih h
  | case8 valid o b bs hb => cases h; exact Nat.le_refl _

section

variable {valid : Nat} {cause : Malformed} {bs rest : List UInt8}

/-- A reader that has not gone past a character has none in front of it. -/
theorem explains_of_error (h : decodeFrom valid none rest = .error cause) (hvalid : cause.valid = valid)
    (hnames : cause.Names rest) : Explains valid rest (.error cause) := by
  refine ⟨[], rest, rfl, hvalid, ?_, hnames⟩
  rintro c ⟨tail, rfl⟩
  rw [decodeFrom_encodeChar] at h
  have hle := le_valid (error_of_map h)
  have := c.utf8Size_pos
  omega

theorem Explains.cons {c : Char} {front : List UInt8} {n : Nat} {r : Except Malformed (List Char)}
    (hc : String.utf8EncodeChar c = front) (hn : front.length = n) (h : Explains (valid + n) bs r) :
    Explains valid (front ++ bs) (r.map (c :: ·)) := by
  cases r with
  | ok s =>
    rw [show bs = encode s from h, ← hc]
    rfl
  | error cause =>
    obtain ⟨s, rest, rfl, hvalid, hnone, hnames⟩ := h
    refine ⟨c :: s, rest, by rw [encode_cons, hc, List.append_assoc], ?_, hnone, hnames⟩
    rw [hvalid, byteSize_cons, ← String.length_utf8EncodeChar, hc, hn, Nat.add_assoc]

theorem names_of_not_begins {front tail : List UInt8} {b : UInt8} (h : Begins front) (hb : ¬ Begins (front ++ [b])) :
    (Malformed.invalid valid (max 1 front.length)).Names (front ++ b :: tail) := by
  refine ⟨front.length, by simp, ?_, ?_, rfl⟩
  · rwa [List.take_left' rfl]
  · have happend : front ++ b :: tail = (front ++ [b]) ++ tail := by rw [List.append_assoc]; rfl
    rwa [happend, List.take_left' (by simp)]

/-- By the recursion of the reader: whatever it has read of a character is what the open character has. -/
theorem explains_decodeFrom {o : Option Opened} {front : List UInt8} (h : Reads o front) :
    Explains valid (front ++ bs) (decodeFrom valid o bs) := by
  fun_induction decodeFrom valid o bs generalizing front with
  | case1 valid =>
    obtain rfl : front = [] := h
    exact rfl
  | case2 valid o =>
    have hhas : o.Has front := h
    have hread : decodeFrom valid none (front ++ []) = .error (.truncated valid) := hhas.reaches valid []
    refine explains_of_error hread rfl ?_
    rw [List.append_nil]
    exact ⟨hhas.ne_nil, hhas.begins⟩
  | case3 valid b bs c hlead ih =>
    obtain rfl : front = [] := h
    have hnext : Explains (valid + 1) bs _ := ih (show Reads none [] from rfl)
    have hcons := hnext.cons (encodeChar_of_whole hlead) rfl
    exact hcons
  | case4 valid b bs o hlead ih =>
    obtain rfl : front = [] := h
    have hopen : Reads (some o) [b] := has_lead hlead
    exact ih hopen
  | case5 valid b bs hlead =>
    obtain rfl : front = [] := h
    have hread : decodeFrom valid none (b :: bs) = .error (.invalid valid 1) := by rw [decodeFrom, hlead]
    have hnil : Begins [] := ⟨'a', List.nil_prefix⟩
    have hnames : (Malformed.invalid valid 1).Names (b :: bs) := names_of_not_begins hnil (not_begins_of_nothing hlead)
    exact explains_of_error hread rfl hnames
  | case6 valid o b bs hb hleft ih =>
    have hhas : o.Has front := h
    have hlength : (front ++ [b]).length = o.read + 1 := by rw [List.length_append, hhas.length]; rfl
    have hnext : Explains (valid + (o.read + 1)) bs _ := ih (show Reads none [] from rfl)
    have hcons := hnext.cons (hhas.last hleft hb) hlength
    rwa [List.append_assoc] at hcons
  | case7 valid o b bs hb left hleft ih =>
    have hhas : o.Has front := h
    have hopen : Reads (some _) (front ++ [b]) := hhas.more hleft hb
    have hnext := ih hopen
    rwa [List.append_assoc] at hnext
  | case8 valid o b bs hb =>
    have hhas : o.Has front := h
    have hread : decodeFrom valid none (front ++ b :: bs) = .error (.invalid valid o.read) := by
      rw [hhas.reaches, decodeFrom, if_neg hb]
    have hwidth : o.read = max 1 front.length := by
      have := List.length_pos_iff.2 hhas.ne_nil
      rw [← hhas.length]
      omega
    refine explains_of_error hread rfl ?_
    rw [hwidth]
    exact names_of_not_begins hhas.begins (hhas.not_begins hb)

/-! ## Bytes and texts -/

theorem explains_decode (bytes : List UInt8) : Explains 0 bytes (decode bytes) :=
  explains_decodeFrom (show Reads none [] from rfl)

theorem decode_eq_ok_iff {s : List Char} : decode bs = .ok s ↔ bs = encode s := by
  refine ⟨fun h => ?_, fun h => h ▸ decode_encode s⟩
  have hexplains := explains_decode bs
  rwa [h] at hexplains

/-- Well-formed bytes, as the standard library has them. -/
theorem isValidUTF8_iff : bs.toByteArray.IsValidUTF8 ↔ ∃ s, bs = encode s := by
  refine ⟨?_, ?_⟩
  · rintro ⟨s, hs⟩
    refine ⟨s, ?_⟩
    have hdata := congrArg ByteArray.data hs
    rw [List.utf8Encode, List.data_toByteArray, List.data_toByteArray] at hdata
    exact List.toArray_inj hdata
  · rintro ⟨s, rfl⟩
    exact ⟨s, rfl⟩

/-! ## The longest text in front -/

theorem eq_of_isPrefix_encodeChar {c d : Char} (h : String.utf8EncodeChar c <+: String.utf8EncodeChar d) : c = d := by
  obtain ⟨tail, htail⟩ := h
  have hread := decodeFrom_encode [d] 0
  rw [encode_cons, encode_nil, List.append_nil, ← htail, decodeFrom_encodeChar] at hread
  cases hrest : decodeFrom (0 + c.utf8Size) none tail with
  | error cause =>
    rw [hrest] at hread
    cases hread
  | ok s =>
    rw [hrest] at hread
    cases hread
    rfl

/-- No text in front of the bytes goes further than the one behind which no character stands. -/
theorem isPrefix_of_encode {s t : List Char} (hnone : ∀ c, ¬ String.utf8EncodeChar c <+: rest)
    (h : encode t <+: encode s ++ rest) : t <+: s := by
  induction s generalizing t with
  | nil =>
    cases t with
    | nil => exact List.nil_prefix
    | cons d ds => exact absurd ((List.prefix_append _ _).trans h) (hnone d)
  | cons c cs ih =>
    cases t with
    | nil => exact List.nil_prefix
    | cons d ds =>
      rw [encode_cons, encode_cons, List.append_assoc] at h
      have hd : String.utf8EncodeChar d <+: String.utf8EncodeChar c ++ (encode cs ++ rest) :=
        (List.prefix_append _ _).trans h
      have hdc : d = c := by
        rcases List.prefix_or_prefix_of_prefix hd (List.prefix_append _ _) with hdc | hdc
        · exact eq_of_isPrefix_encodeChar hdc
        · exact (eq_of_isPrefix_encodeChar hdc).symm
      subst hdc
      exact List.cons_prefix_cons.2 ⟨rfl, ih ((List.prefix_append_right_inj _).1 h)⟩

/-- The cause tells the place behind the longest text in front of the bytes, and how they go wrong there. -/
def Malformed.Describes (bytes : List UInt8) (cause : Malformed) : Prop :=
  ∃ s rest, bytes = encode s ++ rest ∧ (∀ t, encode t <+: bytes → t <+: s) ∧ cause.valid = byteSize s ∧
    cause.Names rest

theorem describes_of_decode (h : decode bs = .error cause) : cause.Describes bs := by
  have hexplains := explains_decode bs
  rw [h] at hexplains
  obtain ⟨s, rest, rfl, hvalid, hnone, hnames⟩ := hexplains
  rw [Nat.zero_add] at hvalid
  exact ⟨s, rest, rfl, fun t ht => isPrefix_of_encode hnone ht, hvalid, hnames⟩

end

end IniScan.Text.Utf8
