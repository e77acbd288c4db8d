import IniScan.Proofs.Header.Recognised
import IniScan.Proofs.Host.Unread
import IniScan.Proofs.Line.Shape

/-!
# Substring mode extends exact mode

Two hosts stand at one place of one text. One of the scanners is in exact mode, the other in substring mode, and the modes are
asked in one place only: a line that begins with a bracket may be `Disputed`, when substring mode finds a section name
behind the bracket and exact mode does not. At every other place, and for every other line, the hosts go on alike. In
particular no header of exact mode is lost.

* `agree_of_not_disputed`: the same token, and one place behind it.
* `content_of_disputed`, `header_of_disputed`: what becomes of a disputed line.
* `substring_extends_exact`: the two modes.
-/
namespace IniScan

open Text Header

/-- The modes do not differ on the text of a line, or the line is a header in substring mode alone. -/
theorem Line.shape_cases (t : List Char) : Line.shape .exact t = Line.shape .substring t ∨
    ∃ s, t = '[' :: s ∧ isHeader .exact s = false ∧ isHeader .substring s = true := by
  unfold Line.shape
  split
  · exact .inl rfl
  · rename_i s
    cases hexact : isHeader .exact s with
    | true => exact .inl (by rw [Probe.isHeader_of_exact hexact])
    | false =>
      cases hsubstring : isHeader .substring s with
      | true => exact .inr ⟨s, rfl, hexact, hsubstring⟩
      | false => exact .inl rfl
  · exact .inl rfl

/-- No family but that of lines asks for the mode. -/
theorem Family.read_eq_of_ne_line {f : Family} (hf : f ≠ .line) (mode mode' : MatchMode) (offered : KindSet)
    (unread : List Char) : f.read mode offered unread = f.read mode' offered unread := by
  cases f with
  | line => exact absurd rfl hf
  | boundary => rfl
  | path => rfl
  | subject => rfl
  | regexName => rfl

namespace Host

/-- The lines are read, and only substring mode recognises what stands behind the bracket that comes first. The blanks in
front of it are `b`, and `u` is all the text behind it. -/
structure Disputed (offered : KindSet) (unread b u : List Char) : Prop where
  reading : Kind.errorSentinel ∉ offered
  line : Family.of? offered = some .line
  unread : unread = b ++ '[' :: u
  blank : ∀ c ∈ b, isBlank c = true
  exact : isHeader .exact u = false
  substring : isHeader .substring u = true

/-- The text of the line that begins with a bracket in front of `u`. -/
def bracketLine (u : List Char) : List Char := '[' :: u.takeWhile fun c => !isLineEnd c

section

variable {h : Host} {offered : KindSet} {b u : List Char}

theorem shape_bracketLine (mode : MatchMode) (u : List Char) : Line.shape mode (bracketLine u) =
    if isHeader mode u then (.headerStart, []) else (.externalLine, bracketLine u) := by
  rw [bracketLine, Line.shape_bracket, Line.isHeader_takeWhile]

/-- A disputed line is read by its shape, like any other. -/
theorem Disputed.answer (hd : Disputed offered h.cursor.unread b u) {k : Kind} {text : List Char}
    (hshape : Line.shape h.scanner.config.mode (bracketLine u) = (k, text)) :
    (k ∈ offered → h.Takes offered k b text) ∧ (k ∉ offered → h.Rejects offered) := by
  have hunread : h.cursor.unread = b ++ (bracketLine u ++ u.dropWhile fun c => !isLineEnd c) := by
    rw [hd.unread, bracketLine, List.cons_append, List.takeWhile_append_dropWhile]
  have hends : ∀ c ∈ bracketLine u, isLineEnd c = false := by
    intro c hc
    rcases List.mem_cons.1 hc with rfl | hc
    · decide
    · exact not_of_mem_takeWhile hc
  have hbracket : Stops isBlank (bracketLine u) := stops_cons.2 rfl
  have hrest := stops_dropWhile (fun c => !isLineEnd c) u
  refine ⟨fun hk => ?_, fun hk => ?_⟩
  · have htakes := Line.takes_shape hd.reading hd.line hunread hd.blank hends hbracket hrest (by rwa [hshape])
    rwa [hshape] at htakes
  · exact Line.rejects_shape hd.reading hd.line hunread hd.blank hends hbracket hrest (by rwa [hshape])

/-- In exact mode a disputed line is content. -/
theorem content_of_disputed (hmode : h.scanner.config.mode = .exact) (hd : Disputed offered h.cursor.unread b u) :
    (Kind.externalLine ∈ offered → h.Takes offered .externalLine b (bracketLine u)) ∧
    (Kind.externalLine ∉ offered → h.Rejects offered) := by
  refine hd.answer ?_
  rw [hmode, shape_bracketLine, hd.exact]
  rfl

/-- In substring mode a disputed line is the start of a header. -/
theorem header_of_disputed (hmode : h.scanner.config.mode = .substring)
    (hd : Disputed offered h.cursor.unread b u) :
    (Kind.headerStart ∈ offered → h.Takes offered .headerStart b []) ∧
    (Kind.headerStart ∉ offered → h.Rejects offered) := by
  refine hd.answer ?_
  rw [hmode, shape_bracketLine, hd.substring]
  rfl

end

section

variable {g h : Host} {offered : KindSet} (hg : g.scanner.config.mode = .exact)
  (hh : h.scanner.config.mode = .substring) (hplace : g.cursor.Abreast h.cursor)

include hg hh hplace

/-- Lines that have one shape in both modes. -/
theorem agree_of_shape {b t rest : List Char} (hs : Kind.errorSentinel ∉ offered)
    (hf : Family.of? offered = some .line) (hu : g.cursor.unread = b ++ (t ++ rest))
    (hblank : ∀ c ∈ b, isBlank c = true) (ht : ∀ c ∈ t, isLineEnd c = false) (hb : Stops isBlank t)
    (hr : Stops (fun c => !isLineEnd c) rest) (hshape : Line.shape .exact t = Line.shape .substring t) :
    g.Agree h offered := by
  have hu' : h.cursor.unread = b ++ (t ++ rest) := hplace.unread ▸ hu
  by_cases hk : (Line.shape .exact t).1 ∈ offered
  · have hgt := Line.takes_shape hs hf hu hblank ht hb hr (by rwa [hg])
    have hht := Line.takes_shape hs hf hu' hblank ht hb hr (by rwa [hh, ← hshape])
    rw [hg] at hgt
    rw [hh, ← hshape] at hht
    exact agree_of_takes hplace hgt hht
  · exact agree_of_rejects hplace (Line.rejects_shape hs hf hu hblank ht hb hr (by rwa [hg]))
      (Line.rejects_shape hs hf hu' hblank ht hb hr (by rwa [hh, ← hshape]))

theorem agree_of_not_disputed (hn : ¬ ∃ b u, Disputed offered g.cursor.unread b u) : g.Agree h offered := by
  by_cases hs : Kind.errorSentinel ∈ offered
  · exact agree_of_read_eq hplace fun unread => by
      rw [g.scanner.read_of_recovering hs, h.scanner.read_of_recovering hs]
  cases hf : Family.of? offered with
  | none =>
    exact agree_of_read_eq hplace fun unread => by
      rw [g.scanner.read_of_no_family hf, h.scanner.read_of_no_family hf]
  | some f =>
    by_cases hline : f = .line
    · subst hline
      obtain ⟨b, t, rest, hu, hblank, ht, hb, hr⟩ := Line.exists_line g.cursor.unread
      rcases Line.shape_cases t with hshape | ⟨s, rfl, hexact, hsubstring⟩
      · exact agree_of_shape hg hh hplace hs hf hu hblank ht hb hr hshape
      · have hends : ∀ c ∈ s, isLineEnd c = false := fun c hc => ht c (List.mem_cons_of_mem _ hc)
        refine absurd ⟨b, s ++ rest, hs, hf, hu, hblank, ?_, ?_⟩ hn
        · rw [Line.isHeader_append .exact hends hr, hexact]
        · rw [Line.isHeader_append .substring hends hr, hsubstring]
    · exact agree_of_read_eq hplace fun unread => by
        rw [g.scanner.read_of_family hs hf, h.scanner.read_of_family hs hf,
          Family.read_eq_of_ne_line hline g.scanner.config.mode h.scanner.config.mode]

/-- The start of a header in exact mode is no disputed line. -/
theorem agree_of_header {token : Token} (htoken : (g.nextToken offered).1 = some token)
    (hkind : token.kind = .headerStart) : g.Agree h offered := by
  refine agree_of_not_disputed hg hh hplace ?_
  rintro ⟨b, u, hd⟩
  obtain ⟨htakes, hrejects⟩ := content_of_disputed hg hd
  by_cases hk : Kind.externalLine ∈ offered
  · rw [(htakes hk).token, Option.some.injEq] at htoken
    rw [← htoken] at hkind
    cases hkind
  · rw [(hrejects hk).token] at htoken
    cases htoken

end

/-- **Two modes.** Two hosts at one place of one text, the first in exact and the second in substring mode, whatever their
words and budgets are, get the same token and come to one place, but for a disputed line. That is content in exact
mode and the start of a header in substring mode, each if it is offered. So a header of exact mode is one of substring
mode, and the same goes for the words and the texts that name a section. -/
theorem substring_extends_exact {g h : Host} (hg : g.scanner.config.mode = .exact)
    (hh : h.scanner.config.mode = .substring) (hplace : g.cursor.Abreast h.cursor) (offered : KindSet) :
    ((¬ ∃ b u, Disputed offered g.cursor.unread b u) → g.Agree h offered) ∧
    (∀ b u, Disputed offered g.cursor.unread b u →
      ((Kind.externalLine ∈ offered →
          g.Takes offered .externalLine b ('[' :: u.takeWhile fun c => !isLineEnd c)) ∧
        (Kind.externalLine ∉ offered → g.Rejects offered)) ∧
      (Kind.headerStart ∈ offered → h.Takes offered .headerStart b []) ∧
      (Kind.headerStart ∉ offered → h.Rejects offered)) ∧
    (∀ token, (g.nextToken offered).1 = some token → token.kind = .headerStart → g.Agree h offered) ∧
    (∀ w, (Section.ofWord? .exact w).isSome = true → (Section.ofWord? .substring w).isSome = true) ∧
    ∀ s, Section.isName .exact s = true → Section.isName .substring s = true := by
  refine ⟨agree_of_not_disputed hg hh hplace, ?_, fun _ => agree_of_header hg hh hplace,
    fun _ => Section.isSome_ofWord?_of_exact, fun _ => Section.isName_of_exact⟩
  intro b u hd
  exact ⟨content_of_disputed hg hd, header_of_disputed hh (hplace.unread ▸ hd)⟩

/-- A name that contains a section name, and does not begin with it. -/
theorem substring_extends_exact_monkey :
    let g := Host.ofText ⟨.exact, 0⟩ " [Monkey]\n".toList
    let h := Host.ofText ⟨.substring, 0⟩ " [Monkey]\n".toList
    g.Takes KindSet.line .externalLine [' '] "[Monkey]".toList ∧ h.Takes KindSet.line .headerStart [' '] [] := by
  intro g h
  obtain ⟨-, hdisputed, -⟩ :=
    substring_extends_exact (g := g) (h := h) rfl rfl (Cursor.Abreast.refl _) KindSet.line
  have hblank : ∀ c ∈ [' '], isBlank c = true := fun c hc => by
    rw [List.mem_singleton.1 hc]
    rfl
  obtain ⟨⟨hcontent, -⟩, hheader, -⟩ := hdisputed [' '] "Monkey]\n".toList
    ⟨by decide, by decide, rfl, hblank, by decide, by decide⟩
  exact ⟨hcontent (by decide), hheader (by decide)⟩

end Host

end IniScan
