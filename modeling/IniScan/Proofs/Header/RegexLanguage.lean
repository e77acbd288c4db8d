import IniScan.Proofs.Family.Choice
import IniScan.Proofs.Host.Found
import IniScan.Proofs.Reading.Stretch
import IniScan.Proofs.Text.Runs
import IniScan.Proofs.Word.Compare

/-!
# The language of the regex headers

The reader of a regex header's name goes by five states and a word. Here the names are described without either. A
name is parted into blocks: what a block ends in, the reader has given up on, and it is in the name again
(`SkipBlock`). What follows the last block decides the kind: `.insertdeclarations`, `.pattern` or `.pattern.replace`
in any case, and anything else is a command list.

`Reached q s` says what has been read when the reader is in `q`: the blocks, the dot that may follow them, and the
characters behind the dot that the word of `q` collects.

* `reached_after`: every state says so, for every text.
* `after_of_skipped`: behind blocks the reader is in the name.
* `kind_after_eq_insertDeclarations_iff`, `kind_after_eq_pattern_iff`, `kind_after_eq_patternReplace_iff`: the three kinds
  that are told by what a name ends in.
* `finds_name`, `rejects_name`: the token is the whole name, and its kind is that of the name.
-/
namespace IniScan.Header.RegexName

open Text

/-! ## Names -/

/-- A part of a name behind which the search for a known part begins anew. -/
inductive SkipBlock : List Char → Prop
  | plain (c : Char) : c ≠ '.' → SkipBlock [c]
  /-- The character behind the dot may be a dot itself, which then begins nothing. -/
  | other (c : Char) : c ∉ ['i', 'I', 'p', 'P'] → SkipBlock ['.', c]
  | insert (c : Char) (w : List Char) : c ∈ ['i', 'I'] → '.' ∉ w → SkipBlock ('.' :: c :: w ++ ['.'])
  | pattern (c : Char) (w : List Char) : c ∈ ['p', 'P'] → '.' ∉ w →
      eqIgnoreCase (c :: w) RegexName.pattern = false → SkipBlock ('.' :: c :: w ++ ['.'])
  | replace (p w : List Char) : eqIgnoreCase p RegexName.pattern = true → '.' ∉ w →
      SkipBlock ('.' :: p ++ '.' :: w ++ ['.'])

/-- A sequence of blocks. -/
def Skipped (s : List Char) : Prop := ∃ blocks : List (List Char), (∀ b ∈ blocks, SkipBlock b) ∧ s = blocks.flatten

/-- Blocks, and then a dot and the text, in any case. -/
def EndsIn (name part : List Char) : Prop := ∃ u v, Skipped u ∧ name = u ++ '.' :: v ∧ eqIgnoreCase v part = true

theorem skipped_nil : Skipped [] := ⟨[], by simp, rfl⟩

theorem Skipped.append {u b : List Char} (hu : Skipped u) (hb : SkipBlock b) : Skipped (u ++ b) := by
  obtain ⟨blocks, h, rfl⟩ := hu
  refine ⟨blocks ++ [b], ?_, by simp⟩
  intro x hx
  rcases List.mem_append.1 hx with hx | hx
  · exact h x hx
  · rw [List.mem_singleton.1 hx]; exact hb

/-! ## From the states to the names -/

/-- The state behind a text. -/
def after (s : List Char) : State := s.foldl (fun q c => q.next c) .outside

theorem after_append (s t : List Char) : after (s ++ t) = t.foldl (fun q c => q.next c) (after s) :=
  List.foldl_append

/-- What has been read when the reader is in the state. -/
def Reached : State → List Char → Prop
  | .outside, s => Skipped s
  | .dot, s => ∃ u, Skipped u ∧ s = u ++ ['.']
  | .insert part, s => ∃ u c w, Skipped u ∧ c ∈ ['i', 'I'] ∧ '.' ∉ w ∧ s = u ++ '.' :: c :: w ∧
      part = Word.ofText (c :: w)
  | .pattern part, s => ∃ u c w, Skipped u ∧ c ∈ ['p', 'P'] ∧ '.' ∉ w ∧ s = u ++ '.' :: c :: w ∧
      part = Word.ofText (c :: w)
  | .replace part, s => ∃ u p w, Skipped u ∧ eqIgnoreCase p RegexName.pattern = true ∧ '.' ∉ w ∧
      s = u ++ ('.' :: p ++ '.' :: w) ∧ part = Word.ofText w

theorem not_mem_append_singleton {w : List Char} {c : Char} (hw : '.' ∉ w) (hc : c ≠ '.') : '.' ∉ w ++ [c] := by
  intro h
  rcases List.mem_append.1 h with h | h
  · exact hw h
  · exact hc (List.mem_singleton.1 h).symm

/-- A word collected from a text is compared with a known part as the text is. -/
theorem part_eqIgnoreCase {k : List Char} (hk : byteSize k < 252) (s : List Char) :
    (Word.ofText s).eqIgnoreCase k = eqIgnoreCase s k := by
  rw [Bool.eq_iff_iff, Word.eqIgnoreCase_ofText hk, eqIgnoreCase_iff]

theorem reached_next {q : State} {s : List Char} (h : Reached q s) (c : Char) : Reached (q.next c) (s ++ [c]) := by
  cases q with
  | outside =>
    by_cases hc : c = '.'
    · subst hc
      exact ⟨s, h, rfl⟩
    · rw [State.next, if_neg hc]
      exact Skipped.append h (.plain c hc)
  | dot =>
    obtain ⟨u, hu, rfl⟩ := h
    have hs : u ++ ['.'] ++ [c] = u ++ ['.', c] := by simp
    rw [hs]
    by_cases hi : c = 'i' ∨ c = 'I'
    · rw [State.next, if_pos hi]
      exact ⟨u, c, [], hu, by simpa using hi, by simp, rfl, rfl⟩
    by_cases hp : c = 'p' ∨ c = 'P'
    · rw [State.next, if_neg hi, if_pos hp]
      exact ⟨u, c, [], hu, by simpa using hp, by simp, rfl, rfl⟩
    · rw [State.next, if_neg hi, if_neg hp]
      refine Skipped.append hu (.other c ?_)
      simp only [List.mem_cons, List.not_mem_nil, or_false]
      intro hm
      rcases hm with h | h | h | h
      · exact hi (.inl h)
      · exact hi (.inr h)
      · exact hp (.inl h)
      · exact hp (.inr h)
  | insert part =>
    obtain ⟨u, d, w, hu, hd, hw, rfl, rfl⟩ := h
    have hs : u ++ '.' :: d :: w ++ [c] = u ++ ('.' :: d :: w ++ [c]) := by simp
    rw [hs]
    by_cases hc : c = '.'
    · subst hc
      exact Skipped.append hu (.insert d w hd hw)
    · rw [State.next, if_neg hc, Word.push_ofText]
      exact ⟨u, d, w ++ [c], hu, hd, not_mem_append_singleton hw hc, by simp, rfl⟩
  | pattern part =>
    obtain ⟨u, d, w, hu, hd, hw, rfl, rfl⟩ := h
    have hs : u ++ '.' :: d :: w ++ [c] = u ++ ('.' :: d :: w ++ [c]) := by simp
    rw [hs]
    by_cases hc : c = '.'
    · subst hc
      rw [State.next, if_pos rfl, part_eqIgnoreCase (by decide)]
      by_cases hp : eqIgnoreCase (d :: w) RegexName.pattern = true
      · rw [if_pos hp]
        exact ⟨u, d :: w, [], hu, hp, by simp, by simp, rfl⟩
      · rw [if_neg hp]
        exact Skipped.append hu (.pattern d w hd hw (by simpa using hp))
    · rw [State.next, if_neg hc, Word.push_ofText]
      exact ⟨u, d, w ++ [c], hu, hd, not_mem_append_singleton hw hc, by simp, rfl⟩
  | replace part =>
    obtain ⟨u, p, w, hu, hp, hw, rfl, rfl⟩ := h
    have hs : u ++ ('.' :: p ++ '.' :: w) ++ [c] = u ++ ('.' :: p ++ '.' :: w ++ [c]) := by simp
    rw [hs]
    by_cases hc : c = '.'
    · subst hc
      exact Skipped.append hu (.replace p w hp hw)
    · rw [State.next, if_neg hc, Word.push_ofText]
      exact ⟨u, p, w ++ [c], hu, hp, not_mem_append_singleton hw hc, by simp, rfl⟩

theorem reached_foldl {q : State} {s : List Char} (h : Reached q s) (t : List Char) :
    Reached (t.foldl (fun q c => q.next c) q) (s ++ t) := by
  induction t generalizing q s with
  | nil => simpa using h
  | cons c cs ih =>
    have := ih (reached_next h c)
    rwa [List.append_assoc] at this

theorem reached_after (s : List Char) : Reached (after s) s := reached_foldl (show Reached .outside [] from skipped_nil) s

/-! ## From the names to the states -/

theorem next_insert {c : Char} (hc : c ≠ '.') (part : Word) : (State.insert part).next c = .insert (part.push c) :=
  if_neg hc

theorem next_pattern {c : Char} (hc : c ≠ '.') (part : Word) : (State.pattern part).next c = .pattern (part.push c) :=
  if_neg hc

theorem next_replace {c : Char} (hc : c ≠ '.') (part : Word) : (State.replace part).next c = .replace (part.push c) :=
  if_neg hc

/-- A state that collects a word takes in a text without a dot as a whole. -/
theorem foldl_part {mk : Word → State} (hmk : ∀ {c : Char}, c ≠ '.' → ∀ part, (mk part).next c = mk (part.push c))
    {w : List Char} (hw : '.' ∉ w) (part : Word) :
    w.foldl (fun q c => q.next c) (mk part) = mk (part.pushAll w) := by
  induction w generalizing part with
  | nil => rfl
  | cons c cs ih =>
    rw [List.mem_cons, not_or] at hw
    rw [List.foldl_cons, hmk (Ne.symm hw.1), ih hw.2]
    rfl

theorem after_insert {c : Char} {w : List Char} (hc : c ∈ ['i', 'I']) (hw : '.' ∉ w) :
    after ('.' :: c :: w) = .insert (Word.ofText (c :: w)) := by
  have h1 : State.next c .dot = .insert (Word.empty.push c) := if_pos (by simpa using hc)
  show w.foldl (fun q c => q.next c) (State.next c .dot) = _
  rw [h1, foldl_part next_insert hw]
  rfl

theorem after_pattern {c : Char} {w : List Char} (hc : c ∈ ['p', 'P']) (hw : '.' ∉ w) :
    after ('.' :: c :: w) = .pattern (Word.ofText (c :: w)) := by
  have hi : ¬ (c = 'i' ∨ c = 'I') := by
    simp only [List.mem_cons, List.not_mem_nil, or_false] at hc
    rcases hc with rfl | rfl <;> decide
  have h1 : State.next c .dot = .pattern (Word.empty.push c) := by
    rw [State.next, if_neg hi, if_pos (by simpa using hc)]
  show w.foldl (fun q c => q.next c) (State.next c .dot) = _
  rw [h1, foldl_part next_pattern hw]
  rfl

/-- A text that is a known part up to case has no dot, and its first character is the part's up to case. -/
theorem exists_cons_of_eqIgnoreCase {v k : List Char} {d : Char} (h : eqIgnoreCase v (d :: k) = true)
    (hk : '.' ∉ lower (d :: k)) : ∃ c w, v = c :: w ∧ c.toLower = d.toLower ∧ '.' ∉ c :: w := by
  rw [eqIgnoreCase_iff] at h
  have hv : '.' ∉ v := by
    intro hm
    have : Char.toLower '.' ∈ lower v := List.mem_map_of_mem hm
    rw [h] at this
    exact hk this
  cases v with
  | nil => cases h
  | cons c w =>
    rw [lower_cons, lower_cons, List.cons.injEq] at h
    exact ⟨c, w, rfl, h.1, hv⟩

theorem exists_cons_of_insertDeclarations {v : List Char} (h : eqIgnoreCase v insertDeclarations = true) :
    ∃ c w, v = c :: w ∧ c ∈ ['i', 'I'] ∧ '.' ∉ w := by
  obtain ⟨c, w, rfl, hc, hd⟩ := exists_cons_of_eqIgnoreCase h (by decide)
  have hi : c.toLower = 'i' := hc
  refine ⟨c, w, rfl, ?_, fun hm => hd (List.mem_cons_of_mem _ hm)⟩
  rcases eq_or_of_toLower hi with rfl | rfl <;> decide

theorem exists_cons_of_pattern {v : List Char} (h : eqIgnoreCase v RegexName.pattern = true) :
    ∃ c w, v = c :: w ∧ c ∈ ['p', 'P'] ∧ '.' ∉ w := by
  obtain ⟨c, w, rfl, hc, hd⟩ := exists_cons_of_eqIgnoreCase h (by decide)
  have hp : c.toLower = 'p' := hc
  refine ⟨c, w, rfl, ?_, fun hm => hd (List.mem_cons_of_mem _ hm)⟩
  rcases eq_or_of_toLower hp with rfl | rfl <;> decide

theorem after_replace {p w : List Char} (hp : eqIgnoreCase p RegexName.pattern = true) (hw : '.' ∉ w) :
    after ('.' :: p ++ '.' :: w) = .replace (Word.ofText w) := by
  obtain ⟨c, v, rfl, hc, hv⟩ := exists_cons_of_pattern hp
  have h1 : (State.pattern (Word.ofText (c :: v))).next '.' = .replace Word.empty := by
    rw [State.next, if_pos rfl, part_eqIgnoreCase (by decide), if_pos hp]
  rw [after_append, after_pattern hc hv, List.foldl_cons, h1, foldl_part next_replace hw]
  rfl

theorem after_skipBlock {b : List Char} (h : SkipBlock b) : after b = .outside := by
  cases h with
  | plain c hc => exact if_neg hc
  | other c hc =>
    simp only [List.mem_cons, List.not_mem_nil, or_false, not_or] at hc
    obtain ⟨h1, h2, h3, h4⟩ := hc
    show State.next c .dot = .outside
    rw [State.next, if_neg (by simp [h1, h2]), if_neg (by simp [h3, h4])]
  | insert c w hc hw => rw [after_append, after_insert hc hw]; rfl
  | pattern c w hc hw hp =>
    rw [after_append, after_pattern hc hw]
    show State.next '.' (.pattern (Word.ofText (c :: w))) = .outside
    rw [State.next, if_pos rfl, part_eqIgnoreCase (by decide), hp]
    rfl
  | replace p w hp hw => rw [after_append, after_replace hp hw]; rfl

theorem after_of_skipped {u : List Char} (h : Skipped u) : after u = .outside := by
  obtain ⟨blocks, hb, rfl⟩ := h
  induction blocks with
  | nil => rfl
  | cons b bs ih =>
    have hbs : after bs.flatten = .outside := ih fun x hx => hb x (List.mem_cons_of_mem _ hx)
    rw [List.flatten_cons, after_append, after_skipBlock (hb b List.mem_cons_self)]
    exact hbs

theorem after_skipped_append {u : List Char} (h : Skipped u) (s : List Char) : after (u ++ s) = after s := by
  rw [after_append, after_of_skipped h]
  rfl

/-! ## Kinds -/

theorem kind_eq_insertDeclarations_iff {q : State} : q.kind = .regexInsertDeclarations ↔
    ∃ part, q = .insert part ∧ part.eqIgnoreCase insertDeclarations = true := by
  cases q <;> simp [State.kind]
  all_goals split <;> simp

theorem kind_eq_pattern_iff {q : State} : q.kind = .regexPattern ↔
    ∃ part, q = .pattern part ∧ part.eqIgnoreCase RegexName.pattern = true := by
  cases q <;> simp [State.kind]
  all_goals split <;> simp

theorem kind_eq_patternReplace_iff {q : State} : q.kind = .regexPatternReplace ↔
    ∃ part, q = .replace part ∧ part.eqIgnoreCase RegexName.replace = true := by
  cases q <;> simp [State.kind]
  all_goals split <;> simp

theorem kind_after_eq_insertDeclarations_iff {n : List Char} :
    (after n).kind = .regexInsertDeclarations ↔ EndsIn n insertDeclarations := by
  rw [kind_eq_insertDeclarations_iff]
  refine ⟨?_, ?_⟩
  · intro hn
    obtain ⟨part, hq, hpart⟩ := hn
    have hr := reached_after n
    rw [hq] at hr
    obtain ⟨u, c, w, hu, -, -, rfl, rfl⟩ := hr
    rw [part_eqIgnoreCase (by decide)] at hpart
    exact ⟨u, c :: w, hu, rfl, hpart⟩
  · intro hn
    obtain ⟨u, v, hu, rfl, hv⟩ := hn
    obtain ⟨c, w, rfl, hc, hw⟩ := exists_cons_of_insertDeclarations hv
    refine ⟨_, by rw [after_skipped_append hu, after_insert hc hw], ?_⟩
    rw [part_eqIgnoreCase (by decide), hv]

theorem kind_after_eq_pattern_iff {n : List Char} :
    (after n).kind = .regexPattern ↔ EndsIn n RegexName.pattern := by
  rw [kind_eq_pattern_iff]
  refine ⟨?_, ?_⟩
  · intro hn
    obtain ⟨part, hq, hpart⟩ := hn
    have hr := reached_after n
    rw [hq] at hr
    obtain ⟨u, c, w, hu, -, -, rfl, rfl⟩ := hr
    rw [part_eqIgnoreCase (by decide)] at hpart
    exact ⟨u, c :: w, hu, rfl, hpart⟩
  · intro hn
    obtain ⟨u, v, hu, rfl, hv⟩ := hn
    obtain ⟨c, w, rfl, hc, hw⟩ := exists_cons_of_pattern hv
    refine ⟨_, by rw [after_skipped_append hu, after_pattern hc hw], ?_⟩
    rw [part_eqIgnoreCase (by decide), hv]

/-- The two parts behind `.pattern.` and in front of it are told apart by the one dot of `pattern.replace`. -/
theorem eqIgnoreCase_patternReplace_iff {v : List Char} :
    eqIgnoreCase v (RegexName.pattern ++ '.' :: RegexName.replace) = true ↔
      ∃ p w, v = p ++ '.' :: w ∧ eqIgnoreCase p RegexName.pattern = true ∧ eqIgnoreCase w RegexName.replace = true := by
  refine ⟨?_, ?_⟩
  · intro h
    rw [eqIgnoreCase_iff, lower_append, lower_cons] at h
    obtain ⟨p, t, rfl, hp, ht⟩ := List.map_eq_append_iff.1 h
    obtain ⟨c, w, rfl, hc, hw⟩ := List.map_eq_cons_iff.1 ht
    have hdot : c = '.' := by
      rcases eq_or_of_toLower hc with h | h
      · exact h
      · rw [h] at hc
        exact absurd hc (by decide)
    exact ⟨p, w, by rw [hdot], eqIgnoreCase_iff.2 hp, eqIgnoreCase_iff.2 hw⟩
  · intro hn
    obtain ⟨p, w, rfl, hp, hw⟩ := hn
    rw [eqIgnoreCase_iff] at hp hw ⊢
    rw [lower_append, lower_append, lower_cons, lower_cons, hp, hw]

theorem kind_after_eq_patternReplace_iff {n : List Char} :
    (after n).kind = .regexPatternReplace ↔ EndsIn n (RegexName.pattern ++ '.' :: RegexName.replace) := by
  rw [kind_eq_patternReplace_iff]
  refine ⟨?_, ?_⟩
  · intro hn
    obtain ⟨part, hq, hpart⟩ := hn
    have hr := reached_after n
    rw [hq] at hr
    obtain ⟨u, p, w, hu, hp, -, rfl, rfl⟩ := hr
    rw [part_eqIgnoreCase (by decide)] at hpart
    exact ⟨u, p ++ '.' :: w, hu, rfl, eqIgnoreCase_patternReplace_iff.2 ⟨p, w, rfl, hp, hpart⟩⟩
  · intro hn
    obtain ⟨u, v, hu, rfl, hv⟩ := hn
    obtain ⟨p, w, rfl, hp, hw⟩ := eqIgnoreCase_patternReplace_iff.1 hv
    obtain ⟨c, r, rfl, -, hd⟩ := exists_cons_of_eqIgnoreCase hw (by decide)
    refine ⟨_, by rw [after_skipped_append hu]; exact after_replace hp hd, ?_⟩
    rw [part_eqIgnoreCase (by decide), hw]

/-! ## The token -/

theorem passes_name {n : List Char} (hn : ∀ c ∈ n, Subject.isClosing c = false) (q : State) :
    reader.Passes q n (List.replicate n.length .take) (n.foldl (fun q c => q.next c) q) := by
  induction n generalizing q with
  | nil => exact .nil q
  | cons c cs ih =>
    have hc : reader.step q c = .go .take (q.next c) := by
      simp only [reader]
      rw [hn c List.mem_cons_self]
      rfl
    exact .cons hc (ih (fun d hd => hn d (List.mem_cons_of_mem _ hd)) _)

/-- The name goes up to what closes the header, and a text that ends without that is a command list. -/
theorem read_eq (n rest : List Char) (hn : ∀ c ∈ n, Subject.isClosing c = false)
    (hr : Stops (fun c => !Subject.isClosing c) rest) :
    reader.read (n ++ rest) = ⟨if rest = [] then .regexCommandList else (after n).kind,
      List.replicate n.length .take ++ [.mark]⟩ := by
  rw [Reader.read, (passes_name hn reader.start).readFrom]
  cases rest with
  | nil => rfl
  | cons c cs =>
    have hc : Subject.isClosing c = true := of_stops_not hr
    have hstop : reader.step (after n) c = .stop ⟨(after n).kind, true⟩ := by
      simp only [reader]
      rw [hc]
      rfl
    rw [show (n.foldl (fun q c => q.next c) reader.start) = after n from rfl, Reader.readFrom_of_stop cs hstop]
    rfl

/-- The characters of a name: all up to a bracket or a line end. -/
def nameOf (s : List Char) : List Char := s.takeWhile fun c => !Subject.isClosing c

/-- The kind that a name resolves to. -/
def kindOf (s : List Char) : Kind := if nameOf s = s then .regexCommandList else (after (nameOf s)).kind

theorem eq_nameOf_append (s : List Char) : s = nameOf s ++ s.dropWhile fun c => !Subject.isClosing c :=
  List.takeWhile_append_dropWhile.symm

theorem not_isClosing_of_mem_nameOf {s : List Char} : ∀ c ∈ nameOf s, Subject.isClosing c = false := by
  intro c hc
  exact not_of_mem_takeWhile hc

theorem read_eq_kindOf (s : List Char) :
    reader.read s = ⟨kindOf s, List.replicate (nameOf s).length .take ++ [.mark]⟩ := by
  have hs := eq_nameOf_append s
  have hnil : (s.dropWhile fun c => !Subject.isClosing c) = [] ↔ nameOf s = s := by
    refine ⟨?_, ?_⟩
    · intro h
      rw [h, List.append_nil] at hs
      exact hs.symm
    · intro h
      rw [h] at hs
      simpa using hs
  have := read_eq (nameOf s) _ not_isClosing_of_mem_nameOf (stops_dropWhile _ s)
  rw [← hs] at this
  simp only [this, hnil, kindOf]

theorem kindOf_mem_regex (s : List Char) : kindOf s ∈ KindSet.regex := by
  unfold kindOf
  split
  · decide
  · exact Family.regexName_kind_mem _

theorem read_name (h : Host) {offered : KindSet} (hs : Kind.errorSentinel ∉ offered)
    (hf : Family.of? offered = some .regexName) : h.scanner.read offered h.cursor.unread =
      ⟨offered.find? (kindOf h.cursor.unread), List.replicate (nameOf h.cursor.unread).length .take ++ [.mark]⟩ := by
  rw [h.scanner.read_of_family hs hf, Family.read, read_eq_kindOf]
  rfl

/-- A regex header's token is its whole name, if its kind is offered. -/
theorem finds_name {h : Host} {offered : KindSet} (hb : byteSize h.cursor.source < 2 ^ 32)
    (hs : Kind.errorSentinel ∉ offered) (hf : Family.of? offered = some .regexName)
    (hk : kindOf h.cursor.unread ∈ offered) :
    h.Finds offered (kindOf h.cursor.unread) [] (nameOf h.cursor.unread) := by
  have hread := read_name h hs hf
  have hu : h.cursor.unread = [] ++ (nameOf h.cursor.unread ++
      h.cursor.unread.dropWhile fun c => !Subject.isClosing c) := eq_nameOf_append h.cursor.unread
  refine Host.finds_of_read hb ?_ ?_ hu rfl (Nat.zero_add _)
  · rw [hread]
    exact if_pos hk
  · rw [hread]
    exact Reading.spans_of_takes rfl

theorem rejects_name {h : Host} {offered : KindSet} (hs : Kind.errorSentinel ∉ offered)
    (hf : Family.of? offered = some .regexName) (hk : kindOf h.cursor.unread ∉ offered) : h.Rejects offered := by
  apply Host.rejects_of_read
  rw [read_name h hs hf]
  exact if_neg hk

/-- **The four regex headers.** When regex headers are what is read, the name up to the bracket or line end resolves to
one of four kinds. The call finds the name as a token of that kind if the kind is offered, and rejects otherwise. A name that
runs to the end of the text is a command list. Any other name is told by what follows its blocks. -/
theorem regexName_language (h : Host) (offered : KindSet) (hb : byteSize h.cursor.source < 2 ^ 32)
    (hs : Kind.errorSentinel ∉ offered) (hboundary : Kind.lineBoundary ∉ offered)
    (hpath : offered.meets KindSet.path = false) (hsuffixed : offered.meets KindSet.suffixed = false)
    (hregex : offered.meets KindSet.regex = true) :
    ∃ k ∈ KindSet.regex,
      (k ∈ offered → h.Finds offered k [] (nameOf h.cursor.unread)) ∧
      (k ∉ offered → h.Rejects offered) ∧
      (nameOf h.cursor.unread = h.cursor.unread → k = .regexCommandList) ∧
      (nameOf h.cursor.unread ≠ h.cursor.unread →
        (k = .regexInsertDeclarations ↔ EndsIn (nameOf h.cursor.unread) "insertdeclarations".toList) ∧
        (k = .regexPattern ↔ EndsIn (nameOf h.cursor.unread) "pattern".toList) ∧
        (k = .regexPatternReplace ↔ EndsIn (nameOf h.cursor.unread) "pattern.replace".toList) ∧
        (k = .regexCommandList ↔ ¬ EndsIn (nameOf h.cursor.unread) "insertdeclarations".toList ∧
          ¬ EndsIn (nameOf h.cursor.unread) "pattern".toList ∧
          ¬ EndsIn (nameOf h.cursor.unread) "pattern.replace".toList)) := by
  have hf : Family.of? offered = some .regexName :=
    Family.of?_of_regexName hboundary hpath hsuffixed hregex
  have hdot : "pattern.replace".toList = RegexName.pattern ++ '.' :: RegexName.replace := by decide
  refine ⟨kindOf h.cursor.unread, kindOf_mem_regex _, finds_name hb hs hf, rejects_name hs hf, ?_, ?_⟩
  · intro hn
    rw [kindOf, if_pos hn]
  · intro hn
    have hk : kindOf h.cursor.unread = (after (nameOf h.cursor.unread)).kind := if_neg hn
    have hi := kind_after_eq_insertDeclarations_iff (n := nameOf h.cursor.unread)
    have hp := kind_after_eq_pattern_iff (n := nameOf h.cursor.unread)
    have hr := kind_after_eq_patternReplace_iff (n := nameOf h.cursor.unread)
    rw [hdot, hk]
    refine ⟨hi, hp, hr, ?_⟩
    rw [show "insertdeclarations".toList = insertDeclarations from rfl,
      show "pattern".toList = RegexName.pattern from rfl, ← hi, ← hp, ← hr]
    have hmem := Family.regexName_kind_mem (after (nameOf h.cursor.unread))
    generalize (after (nameOf h.cursor.unread)).kind = k at hmem
    cases k <;> revert hmem <;> decide

/-- A dotted part that is none of the known ones is a block, and the known part behind it counts in any case. -/
theorem regexName_language_dotted :
    (Host.ofText default ".x.PATTERN]".toList).Finds KindSet.regex .regexPattern [] ".x.PATTERN".toList := by
  obtain ⟨k, -, hfind, -, -, hlang⟩ := regexName_language (Host.ofText default ".x.PATTERN]".toList)
    KindSet.regex (by decide) (by decide) (by decide) (by decide) (by decide) (by decide)
  have hname : nameOf (Host.ofText default ".x.PATTERN]".toList).cursor.unread = ".x.PATTERN".toList := by decide
  have hends : EndsIn ".x.PATTERN".toList "pattern".toList := by
    refine ⟨".x".toList, "PATTERN".toList, ⟨[".x".toList], ?_, by decide⟩, by decide, by decide⟩
    intro b hb
    rw [List.mem_singleton.1 hb]
    exact .other 'x' (by decide)
  rw [hname] at hfind hlang
  have hk : k = .regexPattern := (hlang (by decide)).2.1.2 hends
  subst hk
  exact hfind (by decide)

end IniScan.Header.RegexName
