/-!
# Characters and texts

A text is a `List Char`. Its offsets are counted in bytes of its UTF-8 form (`byteSize`), so a cut at an
offset (`splitAt?`) exists only at a character boundary. Letter case is folded for the ASCII letters alone:
`Char.toLower` and `Char.isAlpha` leave every other character as it is.

* `byteSize_append`: sizes add up.
* `splitAt?_eq_some_iff`: a cut at `n` gives exactly the two parts whose first has size `n`.
* `occursIn_iff`: the substring test is the infix relation.
-/
namespace IniScan.Text

/-- Space and tab: the characters that separate words within a line. -/
def isBlank (c : Char) : Bool := c = ' ' || c = '\t'

/-- Line feed and carriage return. Each ends a line on its own, so neither end of a CR LF pair is content. -/
def isLineEnd (c : Char) : Bool := c = '\n' || c = '\r'

/-! ## Letter case -/

/-- The text with its ASCII letters in lower case. -/
def lower (s : List Char) : List Char := s.map Char.toLower

/-- The texts are equal up to the case of ASCII letters. -/
def eqIgnoreCase (s t : List Char) : Bool := lower s = lower t

/-! ## Substrings -/

/-- `needle` stands somewhere in the text. -/
def occursIn (needle : List Char) : List Char → Bool
  | [] => needle.isEmpty
  | c :: cs => needle.isPrefixOf (c :: cs) || occursIn needle cs

theorem occursIn_iff {needle s : List Char} : occursIn needle s = true ↔ needle <:+: s := by
  induction s with
  | nil => simp [occursIn]
  | cons c cs ih => simp [occursIn, ih, List.infix_cons_iff]

/-! ## Byte offsets -/

/-- Length of the UTF-8 form. -/
def byteSize : List Char → Nat
  | [] => 0
  | c :: cs => c.utf8Size + byteSize cs

@[simp] theorem byteSize_nil : byteSize [] = 0 := rfl

@[simp] theorem byteSize_cons (c : Char) (cs : List Char) : byteSize (c :: cs) = c.utf8Size + byteSize cs := rfl

@[simp] theorem byteSize_append (s t : List Char) : byteSize (s ++ t) = byteSize s + byteSize t := by
  induction s with
  | nil => simp
  | cons c cs ih => simp [ih, Nat.add_assoc]

@[simp] theorem byteSize_reverse (s : List Char) : byteSize s.reverse = byteSize s := by
  induction s with
  | nil => rfl
  | cons c cs ih => simp [ih, Nat.add_comm]

/-- Cuts the text after its first `n` bytes. There is no such cut past the end or inside a character. -/
def splitAt? : Nat → List Char → Option (List Char × List Char)
  | 0, s => some ([], s)
  | _ + 1, [] => none
  | n + 1, c :: cs =>
    if c.utf8Size ≤ n + 1 then (splitAt? (n + 1 - c.utf8Size) cs).map fun p => (c :: p.1, p.2) else none

@[simp] theorem splitAt?_zero (s : List Char) : splitAt? 0 s = some ([], s) := by cases s <;> rfl

theorem splitAt?_byteSize (s t : List Char) : splitAt? (byteSize s) (s ++ t) = some (s, t) := by
  induction s with
  | nil => simp
  | cons c cs ih =>
    obtain ⟨m, hm⟩ := Nat.exists_eq_add_of_lt c.utf8Size_pos
    have hs : byteSize (c :: cs) = (m + byteSize cs) + 1 := by simp only [byteSize_cons]; omega
    rw [hs, List.cons_append, splitAt?, if_pos (by omega),
      show m + byteSize cs + 1 - c.utf8Size = byteSize cs by omega, ih]
    rfl

theorem splitAt?_eq_some_iff {n : Nat} {u s t : List Char} :
    splitAt? n u = some (s, t) ↔ u = s ++ t ∧ byteSize s = n := by
  refine ⟨fun h => ?_, fun ⟨hu, hn⟩ => hu ▸ hn ▸ splitAt?_byteSize s t⟩
  induction u generalizing n s with
  | nil =>
    cases n with
    | zero =>
      simp only [splitAt?, Option.some.injEq, Prod.mk.injEq] at h
      obtain ⟨rfl, rfl⟩ := h
      exact ⟨rfl, rfl⟩
    | succ n => cases h
  | cons c cs ih =>
    cases n with
    | zero =>
      simp only [splitAt?, Option.some.injEq, Prod.mk.injEq] at h
      obtain ⟨rfl, rfl⟩ := h
      exact ⟨rfl, rfl⟩
    | succ n =>
      rw [splitAt?] at h
      split at h
      · obtain ⟨⟨a, b⟩, hab, he⟩ := Option.map_eq_some_iff.1 h
        simp only [Prod.mk.injEq] at he
        obtain ⟨rfl, rfl⟩ := he
        obtain ⟨rfl, hn⟩ := ih hab
        exact ⟨rfl, by simp only [byteSize_cons]; omega⟩
      · cases h

/-- The text between two byte offsets; none if they are out of order, out of range or inside a character. -/
def slice? (s : List Char) (start stop : Nat) : Option (List Char) := do
  guard (start ≤ stop)
  let (_, tail) ← splitAt? start s
  let (middle, _) ← splitAt? (stop - start) tail
  return middle

end IniScan.Text
