import IniScan.Proofs.Family.Choice
import IniScan.Proofs.Host.Found
import IniScan.Proofs.Text.Runs

/-!
# What the reader of lines makes of a line

The text of a line is what remains of it behind the blanks at its start. It alone decides the kind and the text of the
token (`shape`): nothing behind the line end is looked at.

* `readFrom_header`: behind a `[` the probe decides between a header's start and content.
* `read_text`, `read_line`: what a line is read as.
* `takes_shape`, `finds_shape`, `rejects_shape`: the token.
* `exists_header`: where the start of a header is found.
-/
namespace IniScan.Line

open Text Header

/-- The kind of a line with this text, and what the token takes of the text. -/
def shape (mode : MatchMode) : List Char → Kind × List Char
  | ';' :: _ => (.externalLine, [])
  | '[' :: s => if isHeader mode s then (.headerStart, []) else (.externalLine, '[' :: s)
  | t => (.externalLine, t)

theorem shape_comment (mode : MatchMode) (s : List Char) : shape mode (';' :: s) = (.externalLine, []) := rfl

theorem shape_bracket (mode : MatchMode) (s : List Char) :
    shape mode ('[' :: s) = if isHeader mode s then (.headerStart, []) else (.externalLine, '[' :: s) := rfl

theorem shape_content (mode : MatchMode) {c : Char} (h1 : c ≠ ';') (h2 : c ≠ '[') (s : List Char) :
    shape mode (c :: s) = (.externalLine, c :: s) := by
  unfold shape
  split
  · rename_i h; cases h; exact absurd rfl h1
  · rename_i h; cases h; exact absurd rfl h2
  · rfl

theorem shape_mem_line (mode : MatchMode) (t : List Char) : (shape mode t).1 ∈ KindSet.line := by
  have hcontent : Kind.externalLine ∈ KindSet.line := by decide
  unfold shape
  split
  · exact hcontent
  · split
    · decide
    · exact hcontent
  · exact hcontent

/-- The token takes nothing of the text or all of it. -/
theorem shape_snd (mode : MatchMode) (t : List Char) : (shape mode t).2 = [] ∨ (shape mode t).2 = t := by
  unfold shape
  split
  · exact Or.inl rfl
  · split
    · exact Or.inl rfl
    · exact Or.inr rfl
  · exact Or.inr rfl

/-- What takes text is content. -/
theorem shape_fst {mode : MatchMode} {t : List Char} (h : (shape mode t).2 ≠ []) : (shape mode t).1 = .externalLine := by
  unfold shape at h ⊢
  split at h
  · rfl
  · split at h
    · exact absurd rfl h
    · rename_i hs
      rw [if_neg hs]
  · rfl

/-! ## Reading on behind the first character -/

section

variable (mode : MatchMode) {s rest : List Char}

theorem contentStep_of_not_isLineEnd {c : Char} (h : isLineEnd c = false) : contentStep c = .go .take .content := by
  rw [contentStep, h]
  rfl

/-- At a line end, or the end of the text, content stops. -/
theorem readFrom_content (hs : ∀ c ∈ s, isLineEnd c = false) (hr : Stops (fun c => !isLineEnd c) rest) :
    (reader mode).readFrom .content (s ++ rest) = ⟨.externalLine, List.replicate s.length .take ++ [.mark]⟩ := by
  have hpass : (reader mode).Passes .content s (List.replicate s.length .take) .content :=
    Reader.passes_of_stay rfl fun c hc => contentStep_of_not_isLineEnd (hs c hc)
  rw [hpass.readFrom]
  cases rest with
  | nil => rfl
  | cons c cs =>
    have hc : isLineEnd c = true := of_stops_not hr
    have hstop : (reader mode).step .content c = .stop ⟨.externalLine, true⟩ := if_pos hc
    rw [Reader.readFrom_of_stop cs hstop]
    rfl

/-- A line end is no part of a section name. -/
theorem next_of_isLineEnd {c : Char} (h : isLineEnd c = true) (p : Probe) : p.next mode c = none := by
  simp only [isLineEnd, Bool.or_eq_true, decide_eq_true_eq] at h
  cases p with
  | blanks => rcases h with rfl | rfl <;> cases mode <;> rfl
  | letters word window =>
    have ha : c.isAlpha = false := by rcases h with rfl | rfl <;> decide
    simp [Probe.next, ha]

/-- The probe looks no further than the line. -/
theorem recognises_append (hs : ∀ c ∈ s, isLineEnd c = false) (hr : Stops (fun c => !isLineEnd c) rest) (p : Probe) :
    p.recognises mode (s ++ rest) = p.recognises mode s := by
  induction s generalizing p with
  | nil =>
    cases rest with
    | nil => rfl
    | cons c cs =>
      have hc : isLineEnd c = true := of_stops_not hr
      simp only [List.nil_append, Probe.recognises, next_of_isLineEnd mode hc]
  | cons c cs ih =>
    have ih' := ih fun d hd => hs d (List.mem_cons_of_mem _ hd)
    rw [List.cons_append, Probe.recognises, Probe.recognises]
    cases p.next mode c with
    | none => rfl
    | some q => exact ih' q

theorem isHeader_append (hs : ∀ c ∈ s, isLineEnd c = false) (hr : Stops (fun c => !isLineEnd c) rest) :
    isHeader mode (s ++ rest) = isHeader mode s := recognises_append mode hs hr .blanks

theorem isHeader_takeWhile (u : List Char) : isHeader mode (u.takeWhile fun c => !isLineEnd c) = isHeader mode u := by
  have hends : ∀ c ∈ u.takeWhile (fun c => !isLineEnd c), isLineEnd c = false := fun _ => not_of_mem_takeWhile
  have happend := isHeader_append mode hends (stops_dropWhile (fun c => !isLineEnd c) u)
  rw [List.takeWhile_append_dropWhile] at happend
  exact happend.symm

/-- Where the probe does not go on its verdict decides, and what is no header is content up to the line end. -/
theorem readFrom_decided (hs : ∀ c ∈ s, isLineEnd c = false) (hr : Stops (fun c => !isLineEnd c) rest) {p : Probe}
    (hp : ∀ c ∈ (s ++ rest).head?, p.next mode c = none) : (reader mode).readFrom (.header p) (s ++ rest) =
      if p.verdict mode then ⟨.headerStart, []⟩ else ⟨.externalLine, List.replicate s.length .take ++ [.mark]⟩ := by
  have hstep : ∀ c ∈ (s ++ rest).head?, (reader mode).step (.header p) c =
      if p.verdict mode then .stop ⟨.headerStart, false⟩ else contentStep c := by
    intro c hc
    simp only [reader, step, hp c hc]
  cases s with
  | nil =>
    cases rest with
    | nil =>
      simp only [List.nil_append, Reader.readFrom, reader, atEnd]
      split <;> rfl
    | cons c cs =>
      have hc : contentStep c = .stop ⟨.externalLine, true⟩ := if_pos (of_stops_not hr)
      have hfirst := hstep c rfl
      rw [List.nil_append]
      by_cases hv : p.verdict mode = true
      · rw [if_pos hv] at hfirst ⊢
        rw [Reader.readFrom_of_stop cs hfirst]
        rfl
      · rw [if_neg hv, hc] at hfirst
        rw [if_neg hv, Reader.readFrom_of_stop cs hfirst]
        rfl
  | cons c cs =>
    have hc := contentStep_of_not_isLineEnd (hs c List.mem_cons_self)
    have hfirst := hstep c rfl
    rw [List.cons_append]
    by_cases hv : p.verdict mode = true
    · rw [if_pos hv] at hfirst ⊢
      rw [Reader.readFrom_of_stop _ hfirst]
      rfl
    · rw [if_neg hv, hc] at hfirst
      rw [if_neg hv, Reader.readFrom_of_go _ hfirst,
        readFrom_content mode (fun d hd => hs d (List.mem_cons_of_mem _ hd)) hr]
      rfl

/-- What the probe recognises is the start of a header, which ends where it was marked before the probe. The rest is
content, whatever the probe has read of it. -/
theorem readFrom_header (hs : ∀ c ∈ s, isLineEnd c = false) (hr : Stops (fun c => !isLineEnd c) rest) (p : Probe) :
    (p.recognises mode s = true → ∃ n,
      (reader mode).readFrom (.header p) (s ++ rest) = ⟨.headerStart, List.replicate n .take⟩) ∧
    (p.recognises mode s = false →
      (reader mode).readFrom (.header p) (s ++ rest) = ⟨.externalLine, List.replicate s.length .take ++ [.mark]⟩) := by
  induction s generalizing p with
  | nil =>
    have hread := readFrom_decided mode hs hr (p := p) (by
      intro c hc
      cases rest with
      | nil => cases hc
      | cons d ds =>
        cases hc
        exact next_of_isLineEnd mode (of_stops_not hr) p)
    rw [hread, Probe.recognises]
    exact ⟨fun hv => ⟨0, if_pos hv⟩, fun hv => if_neg (by rw [hv]; simp)⟩
  | cons c cs ih =>
    rw [Probe.recognises]
    cases hn : p.next mode c with
    | none =>
      have hread := readFrom_decided mode hs hr (p := p) (by intro d hd; cases hd; exact hn)
      rw [hread]
      exact ⟨fun hv => ⟨0, if_pos hv⟩, fun hv => if_neg (by rw [show p.verdict mode = false from hv]; simp)⟩
    | some q =>
      have hstep : (reader mode).step (.header p) c = .go .take (.header q) := by
        simp only [reader, step, hn]
      obtain ⟨hyes, hno⟩ := ih (fun d hd => hs d (List.mem_cons_of_mem _ hd)) q
      rw [List.cons_append]
      refine ⟨?_, ?_⟩
      · intro hq
        obtain ⟨n, hread⟩ := hyes hq
        exact ⟨n + 1, by rw [Reader.readFrom_of_go _ hstep, hread]; rfl⟩
      · intro hq
        rw [Reader.readFrom_of_go _ hstep, hno hq]
        rfl

end

/-! ## Reading a whole line -/

/-- What is marked first and has no other mark takes nothing. -/
theorem spans_zero {α : Type} {r : Reading α} {n : Nat} (h : r.moves = .mark :: List.replicate n .take) :
    r.Spans 0 0 := by
  refine ⟨_, h, by simp, ?_⟩
  rw [Move.markAt_mark, Move.markAt_takes]
  rfl

/-- From the first character on, a line is read as its shape. -/
theorem read_text (mode : MatchMode) {t rest : List Char} (ht : ∀ c ∈ t, isLineEnd c = false)
    (hb : Stops isBlank t) (hr : Stops (fun c => !isLineEnd c) rest) :
    ((reader mode).readFrom .start (t ++ rest)).outcome = (shape mode t).1 ∧
      ((reader mode).readFrom .start (t ++ rest)).Spans 0 (shape mode t).2.length := by
  cases t with
  | nil =>
    cases rest with
    | nil => exact ⟨rfl, spans_zero (n := 0) rfl⟩
    | cons c cs =>
      have hc : isLineEnd c = true := of_stops_not hr
      have hstep : (reader mode).step .start c = .stop ⟨.externalLine, true⟩ := by
        simp only [isLineEnd, Bool.or_eq_true, decide_eq_true_eq] at hc
        rcases hc with rfl | rfl <;> rfl
      rw [List.nil_append, Reader.readFrom_of_stop cs hstep]
      exact ⟨rfl, spans_zero (n := 0) rfl⟩
  | cons c s =>
    have hc : isLineEnd c = false := ht c List.mem_cons_self
    have hs : ∀ d ∈ s, isLineEnd d = false := fun d hd => ht d (List.mem_cons_of_mem _ hd)
    have hblank : isBlank c = false := stops_cons.1 hb
    rw [List.cons_append]
    by_cases h1 : c = ';'
    · subst h1
      rw [shape_comment, Reader.readFrom_of_stop _ (show (reader mode).step .start ';' = .stop ⟨.externalLine, true⟩ from rfl)]
      exact ⟨rfl, spans_zero (n := 0) rfl⟩
    by_cases h2 : c = '['
    · subst h2
      have hstep : (reader mode).step .start '[' = .go .markTake (.header .blanks) := rfl
      obtain ⟨hyes, hno⟩ := readFrom_header mode hs hr .blanks
      rw [shape_bracket, Reader.readFrom_of_go _ hstep]
      cases hh : isHeader mode s with
      | true =>
        obtain ⟨n, hn⟩ := hyes hh
        rw [hn]
        exact ⟨rfl, spans_zero (n := n + 1) rfl⟩
      | false =>
        rw [hno hh]
        refine ⟨rfl, [.mark, .take] ++ (List.replicate s.length .take ++ [.mark]), rfl, by simp, ?_⟩
        rw [← List.append_assoc, Move.markAt_append_mark, Move.distance_append, Move.distance_takes]
        simp [Nat.add_comm]
    · have hstep : (reader mode).step .start c = .go .take .content := by
        simp only [reader, step, hblank, h1, h2, if_false, Bool.false_eq_true, contentStep_of_not_isLineEnd hc]
      rw [shape_content mode h1 h2, Reader.readFrom_of_go _ hstep, readFrom_content mode hs hr]
      exact ⟨rfl, Reading.spans_of_takes rfl⟩

theorem read_line (mode : MatchMode) {b t rest : List Char} (hblank : ∀ c ∈ b, isBlank c = true)
    (ht : ∀ c ∈ t, isLineEnd c = false) (hb : Stops isBlank t) (hr : Stops (fun c => !isLineEnd c) rest) :
    ((reader mode).read (b ++ (t ++ rest))).outcome = (shape mode t).1 ∧
      ((reader mode).read (b ++ (t ++ rest))).Spans b.length (b.length + (shape mode t).2.length) := by
  have hpass : (reader mode).Passes .start b (List.replicate b.length .skip) .start := by
    refine Reader.passes_of_stay (show Advance.skip.moves = [.skip] from rfl) ?_
    intro c hc
    simp only [reader, step, hblank c hc, if_true]
  obtain ⟨hout, hspan⟩ := read_text mode ht hb hr
  have hread : (reader mode).read (b ++ (t ++ rest)) = _ := hpass.readFrom (t ++ rest)
  rw [hread]
  exact ⟨hout, hspan.skips b.length⟩

/-! ## The token -/

section

variable {h : Host} {offered : KindSet} {b t rest : List Char}

theorem read_eq_map (hs : Kind.errorSentinel ∉ offered) (hf : Family.of? offered = some .line)
    (hu : h.cursor.unread = b ++ (t ++ rest)) : h.scanner.read offered h.cursor.unread =
      ((reader h.scanner.config.mode).read (b ++ (t ++ rest))).map offered.find? := by
  rw [hu, h.scanner.read_of_family hs hf]
  rfl

/-- A call at the blanks in front of a text takes its shape, if that has a kind that is offered. -/
theorem takes_shape (hs : Kind.errorSentinel ∉ offered) (hf : Family.of? offered = some .line)
    (hu : h.cursor.unread = b ++ (t ++ rest)) (hblank : ∀ c ∈ b, isBlank c = true)
    (ht : ∀ c ∈ t, isLineEnd c = false) (hb : Stops isBlank t) (hr : Stops (fun c => !isLineEnd c) rest)
    (hk : (shape h.scanner.config.mode t).1 ∈ offered) :
    h.Takes offered (shape h.scanner.config.mode t).1 b (shape h.scanner.config.mode t).2 := by
  obtain ⟨hout, hspan⟩ := read_line h.scanner.config.mode hblank ht hb hr
  have hread := read_eq_map hs hf hu
  have hkind : (h.scanner.read offered h.cursor.unread).outcome = some (shape h.scanner.config.mode t).1 := by
    rw [hread, Reading.outcome_map, hout]
    exact if_pos hk
  have hspans : (h.scanner.read offered h.cursor.unread).Spans b.length
      (b.length + (shape h.scanner.config.mode t).2.length) := by
    rw [hread]
    exact hspan
  rcases shape_snd h.scanner.config.mode t with hnil | hall
  · have hu' : h.cursor.unread = b ++ ([] ++ (t ++ rest)) := hu
    rw [hnil] at hspans ⊢
    exact Host.takes_of_read hkind hspans hu' rfl rfl
  · rw [hall] at hspans ⊢
    exact Host.takes_of_read hkind hspans hu rfl rfl

theorem finds_shape (hsize : byteSize h.cursor.source < 2 ^ 32) (hs : Kind.errorSentinel ∉ offered)
    (hf : Family.of? offered = some .line) (hu : h.cursor.unread = b ++ (t ++ rest))
    (hblank : ∀ c ∈ b, isBlank c = true) (ht : ∀ c ∈ t, isLineEnd c = false) (hb : Stops isBlank t)
    (hr : Stops (fun c => !isLineEnd c) rest) (hk : (shape h.scanner.config.mode t).1 ∈ offered) :
    h.Finds offered (shape h.scanner.config.mode t).1 b (shape h.scanner.config.mode t).2 :=
  (takes_shape hs hf hu hblank ht hb hr hk).finds hsize

theorem rejects_shape (hs : Kind.errorSentinel ∉ offered) (hf : Family.of? offered = some .line)
    (hu : h.cursor.unread = b ++ (t ++ rest)) (hblank : ∀ c ∈ b, isBlank c = true)
    (ht : ∀ c ∈ t, isLineEnd c = false) (hb : Stops isBlank t) (hr : Stops (fun c => !isLineEnd c) rest)
    (hk : (shape h.scanner.config.mode t).1 ∉ offered) : h.Rejects offered := by
  apply Host.rejects_of_read
  rw [read_eq_map hs hf hu, Reading.outcome_map, (read_line h.scanner.config.mode hblank ht hb hr).1]
  exact if_neg hk

/-- The blanks at the start of a text. -/
def indent (u : List Char) : List Char := u.takeWhile isBlank

/-- What stands behind them up to the line end, or the end of the text. -/
def text (u : List Char) : List Char := (u.dropWhile isBlank).takeWhile fun c => !isLineEnd c

/-- What follows the first line of a text, from its line end on. -/
def behind (u : List Char) : List Char := (u.dropWhile isBlank).dropWhile fun c => !isLineEnd c

theorem isBlank_of_mem_indent {u : List Char} {c : Char} (h : c ∈ indent u) : isBlank c = true := of_mem_takeWhile h

theorem not_isLineEnd_of_mem_text {u : List Char} {c : Char} (h : c ∈ text u) : isLineEnd c = false :=
  not_of_mem_takeWhile h

theorem text_append_behind (u : List Char) : text u ++ behind u = u.dropWhile isBlank := List.takeWhile_append_dropWhile

theorem indent_append_line (u : List Char) : indent u ++ (text u ++ behind u) = u := by
  rw [text_append_behind]
  exact List.takeWhile_append_dropWhile

theorem text_stops (u : List Char) : Stops isBlank (text u) := by
  have hstops := stops_dropWhile isBlank u
  rw [← text_append_behind] at hstops
  exact stops_of_append hstops

theorem behind_stops (u : List Char) : Stops (fun c => !isLineEnd c) (behind u) := stops_dropWhile _ _

/-- Every text is an indent, the text of a line and what follows the line. -/
theorem exists_line (u : List Char) : ∃ b t rest, u = b ++ (t ++ rest) ∧ (∀ c ∈ b, isBlank c = true) ∧
    (∀ c ∈ t, isLineEnd c = false) ∧ Stops isBlank t ∧ Stops (fun c => !isLineEnd c) rest :=
  ⟨indent u, text u, behind u, (indent_append_line u).symm, fun _ => isBlank_of_mem_indent,
    fun _ => not_isLineEnd_of_mem_text, text_stops u, behind_stops u⟩

theorem shape_eq_headerStart {mode : MatchMode} {t : List Char} (ht : (shape mode t).1 = .headerStart) :
    ∃ s, t = '[' :: s ∧ isHeader mode s = true ∧ (shape mode t).2 = [] := by
  unfold shape at ht
  split at ht
  · cases ht
  · rename_i s
    split at ht
    · rename_i hs
      exact ⟨s, rfl, hs, by rw [shape_bracket, if_pos hs]⟩
    · cases ht
  · cases ht

/-- The token of a call that comes to the reader of lines is the shape of the text at the cursor. -/
theorem finds_of_token {tok : Token} (hsize : byteSize h.cursor.source < 2 ^ 32) (hs : Kind.errorSentinel ∉ offered)
    (hf : Family.of? offered = some .line) (htok : (h.nextToken offered).1 = some tok) :
    tok.kind = (shape h.scanner.config.mode (text h.cursor.unread)).1 ∧
      h.Finds offered tok.kind (indent h.cursor.unread) (shape h.scanner.config.mode (text h.cursor.unread)).2 := by
  have hu := (indent_append_line h.cursor.unread).symm
  have hblank : ∀ c ∈ indent h.cursor.unread, isBlank c = true := fun _ => isBlank_of_mem_indent
  have ht : ∀ c ∈ text h.cursor.unread, isLineEnd c = false := fun _ => not_isLineEnd_of_mem_text
  by_cases hk : (shape h.scanner.config.mode (text h.cursor.unread)).1 ∈ offered
  · have hfinds := finds_shape hsize hs hf hu hblank ht (text_stops _) (behind_stops _) hk
    have hkind : tok.kind = (shape h.scanner.config.mode (text h.cursor.unread)).1 := by
      have htoken := hfinds.token
      rw [htok, Option.some.injEq] at htoken
      rw [htoken]
    rw [hkind]
    exact ⟨rfl, hfinds⟩
  · have hnone := (rejects_shape hs hf hu hblank ht (text_stops _) (behind_stops _) hk).token
    rw [htok] at hnone
    cases hnone

/-- The start of a header is found only at a bracket that begins a line's text and that the probe recognises. -/
theorem exists_header {tok : Token} (hsize : byteSize h.cursor.source < 2 ^ 32)
    (htok : (h.nextToken offered).1 = some tok) (hkind : tok.kind = .headerStart) :
    ∃ b s rest, h.cursor.unread = b ++ ('[' :: s ++ rest) ∧ isHeader h.scanner.config.mode s = true ∧
      h.Finds offered .headerStart b [] := by
  have hout := h.kind_nextToken offered
  rw [htok, Option.map_some, hkind] at hout
  obtain ⟨f, hs, hf, hread⟩ := Scanner.exists_family_of_read hout.symm
  rw [hread] at hout
  have hline : f = .line := by
    have := Family.mem_kinds_of_read hout.symm
    cases f <;> revert this <;> decide
  subst hline
  obtain ⟨hshape, hfinds⟩ := finds_of_token hsize hs hf htok
  rw [hkind] at hshape hfinds
  obtain ⟨s, htext, hheader, hempty⟩ := shape_eq_headerStart hshape.symm
  rw [hempty] at hfinds
  refine ⟨indent h.cursor.unread, s, behind h.cursor.unread, ?_, hheader, hfinds⟩
  rw [← htext, indent_append_line]

end

end IniScan.Line
