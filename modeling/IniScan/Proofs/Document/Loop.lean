import IniScan.Proofs.Cursor.Literal
import IniScan.Proofs.Host.Calls
import IniScan.Proofs.Line.Between
import IniScan.Proofs.Line.Shape

/-!
# Reading a whole document

A host reads a document in turns. Each turn goes past the white space between lines, takes a token, and goes past the
rest of the line. The loop ends in front of a turn when no text is left.

* `turn_of_white`, `turn_of_text`: what one turn does, from what is unread.
* `exists_run`: the loop comes to its end, and its tokens are those of the texts of the lines.
-/
namespace IniScan

open Text

/-- The kind of the token and the offsets that it starts and ends at. -/
def Token.place (t : Token) : Kind × Nat × Nat := (t.kind, t.start.toNat, t.stop.toNat)

/-- The place of the token of a text. -/
def Line.place (mode : MatchMode) (t : Nat × List Char) : Kind × Nat × Nat :=
  ((Line.shape mode t.2).1, t.1, t.1 + byteSize (Line.shape mode t.2).2)

namespace Document

/-- One turn of the loop, with the answer to the call for a line. -/
structure Turn where
  before : Host
  token : Option Token
  after : Host
  deriving DecidableEq, Repr

/-- None at the end of the text. The answer to the call for a boundary does not matter. -/
def turn (h : Host) : Option Turn :=
  let start := (h.nextToken {Kind.lineBoundary}).2
  if start.cursor.isAtEnd then none
  else
    let (token, behind) := start.nextToken KindSet.line
    some ⟨h, token, { behind with cursor := behind.cursor.eatWhile fun c => !isLineEnd c }⟩

/-- The turns from the host's place to the end of the loop. -/
inductive Run : Host → List Turn → Prop
  | done {h : Host} : turn h = none → Run h []
  | more {h : Host} {t : Turn} {ts : List Turn} : turn h = some t → Run t.after ts → Run h (t :: ts)

theorem Run.unique {h : Host} {xs ys : List Turn} (hx : Run h xs) (hy : Run h ys) : xs = ys := by
  induction hx generalizing ys with
  | done hnone =>
    cases hy with
    | done _ => rfl
    | more hsome _ => rw [hnone] at hsome; cases hsome
  | more hsome _ ih =>
    cases hy with
    | done hnone => rw [hnone] at hsome; cases hsome
    | more hsome' hrest =>
      rw [hsome, Option.some.injEq] at hsome'
      subst hsome'
      rw [ih hrest]

/-! ## One turn -/

theorem eatWhile_line {c : Cursor} {l rest : List Char} (hu : c.unread = l ++ rest)
    (hl : ∀ d ∈ l, isLineEnd d = false) (hr : Stops (fun d => !isLineEnd d) rest) :
    (c.eatWhile fun d => !isLineEnd d).unread = rest ∧
      (c.eatWhile fun d => !isLineEnd d).pos = c.pos + byteSize l := by
  have hinner : ∀ d ∈ l, (!isLineEnd d) = true := fun d hd => by rw [hl d hd]; rfl
  refine ⟨?_, ?_⟩
  · rw [Cursor.unread_eatWhile, hu, dropWhile_append_of_stops hinner hr]
  · rw [Cursor.pos_eatWhile, hu, takeWhile_append_of_stops hinner hr]

/-- At the indent of a text the token is that of the text, and behind it what is left of the line can be gone past. -/
theorem line_of_text {g : Host} (hsize : byteSize g.cursor.source < 2 ^ 32) {indent t rest : List Char}
    (hu : g.cursor.unread = indent ++ (t ++ rest)) (hblank : ∀ c ∈ indent, isBlank c = true)
    (hb : Stops isBlank t) (ht : ∀ c ∈ t, isLineEnd c = false) (hr : Stops (fun d => !isLineEnd d) rest) :
    (g.nextToken KindSet.line).1.map Token.place =
        some (Line.place g.scanner.config.mode (g.cursor.pos + byteSize indent, t)) ∧
      ((g.nextToken KindSet.line).2.cursor.eatWhile fun d => !isLineEnd d).unread = rest ∧
      ((g.nextToken KindSet.line).2.cursor.eatWhile fun d => !isLineEnd d).pos =
        g.cursor.pos + byteSize indent + byteSize t := by
  have hs : Kind.errorSentinel ∉ KindSet.line := by decide
  have hf := Line.finds_shape hsize hs (by decide) hu hblank ht hb hr (Line.shape_mem_line _ _)
  obtain ⟨tok, htok, hkind, hstart, hstop⟩ := hf.exists_token
  refine ⟨?_, ?_⟩
  · rw [htok, Option.map_some, Token.place, hkind, hstart, hstop]
    rfl
  -- a token without text leaves the line to be gone past, any other takes all of it
  have hunread := hf.unread
  have hpos := hf.pos
  rw [hu, List.append_cancel_left_eq] at hunread
  rcases Line.shape_snd g.scanner.config.mode t with hnil | hall
  · rw [hnil] at hunread hpos
    obtain ⟨h1, h2⟩ := eatWhile_line hunread.symm ht hr
    exact ⟨h1, by rw [h2, hpos]; rfl⟩
  · rw [hall, List.append_cancel_left_eq] at hunread
    rw [hall] at hpos
    have hempty : (g.nextToken KindSet.line).2.cursor.unread = [] ++ rest := hunread.symm
    obtain ⟨h1, h2⟩ := eatWhile_line hempty (by simp) hr
    exact ⟨h1, by rw [h2, hpos]; rfl⟩

/-- The turn goes past the white space `w` and the line `l`, and its token is that of the line. -/
structure Covers (t : Turn) (h : Host) (w l rest : List Char) : Prop where
  before : t.before = h
  token : t.token.map Token.place = some (Line.place h.scanner.config.mode (h.cursor.pos + byteSize w, l))
  unread : t.after.cursor.unread = rest
  pos : t.after.cursor.pos = h.cursor.pos + byteSize w + byteSize l
  config : t.after.scanner.config = h.scanner.config
  source : t.after.cursor.source = h.cursor.source

/-- The host behind the call for a boundary. -/
def crossed (h : Host) : Host := (h.nextToken {Kind.lineBoundary}).2

theorem turn_eq (h : Host) : turn h = if (crossed h).cursor.isAtEnd then none else
    some ⟨h, ((crossed h).nextToken KindSet.line).1, { ((crossed h).nextToken KindSet.line).2 with
      cursor := ((crossed h).nextToken KindSet.line).2.cursor.eatWhile fun c => !isLineEnd c }⟩ := rfl

theorem crossed_of_white {h : Host} (hsize : byteSize h.cursor.source < 2 ^ 32) {w r : List Char}
    (hu : h.cursor.unread = w ++ r) (hw : ∀ d ∈ w, isWhite d = true) (hr : Stops isWhite r) :
    ∃ indent, (∀ c ∈ indent, isBlank c = true) ∧ (r = [] → indent = []) ∧
      (crossed h).cursor.unread = indent ++ r ∧
      (crossed h).cursor.pos + byteSize indent = h.cursor.pos + byteSize w := by
  have hs : Kind.errorSentinel ∉ ({Kind.lineBoundary} : KindSet) := by decide
  obtain ⟨front, indent, rfl, hblank, hnil, hunread, hpassed⟩ :=
    Boundary.exists_indent hsize hs (by decide) hu hw hr
  refine ⟨indent, hblank, hnil, hunread, ?_⟩
  rw [Cursor.pos_eq, crossed, hpassed, h.cursor.pos_eq]
  simp only [byteSize_append, byteSize_reverse]
  omega

theorem turn_of_white {h : Host} (hsize : byteSize h.cursor.source < 2 ^ 32)
    (hw : ∀ c ∈ h.cursor.unread, isWhite c = true) : turn h = none := by
  obtain ⟨indent, -, hnil, hunread, -⟩ :=
    crossed_of_white hsize (List.append_nil _).symm hw (stops_nil isWhite)
  have hend : (crossed h).cursor.isAtEnd = true := by
    rw [Cursor.isAtEnd, hunread, hnil rfl]
    rfl
  rw [turn_eq, if_pos hend]

theorem turn_of_text {h : Host} (hsize : byteSize h.cursor.source < 2 ^ 32) {w l rest : List Char} {c : Char}
    (hu : h.cursor.unread = w ++ (c :: l ++ rest)) (hw : ∀ d ∈ w, isWhite d = true) (hc : isWhite c = false)
    (hl : ∀ d ∈ c :: l, isLineEnd d = false) (hr : Stops (fun d => !isLineEnd d) rest) :
    ∃ t, turn h = some t ∧ Covers t h w (c :: l) rest := by
  obtain ⟨indent, hblank, -, hunread, hpos⟩ := crossed_of_white hsize hu hw (stops_cons.2 hc)
  have hsource : (crossed h).cursor.source = h.cursor.source := h.source_nextToken _
  have hconfig : (crossed h).scanner.config = h.scanner.config := h.config_nextToken _
  rw [isWhite, Bool.or_eq_false_iff] at hc
  obtain ⟨htoken, hafter, hpos'⟩ :=
    line_of_text (by rw [hsource]; exact hsize) hunread hblank (stops_cons.2 hc.1) hl hr
  have hend : (crossed h).cursor.isAtEnd = false := by
    rw [Cursor.isAtEnd, hunread]
    cases indent <;> rfl
  rw [turn_eq, hend, if_neg Bool.false_ne_true]
  refine ⟨_, rfl, rfl, ?_, hafter, ?_, ?_, ?_⟩
  · rw [htoken, hconfig, hpos]
  · rw [hpos', hpos]
  · rw [← hconfig]
    exact (crossed h).config_nextToken _
  · rw [← hsource, ← (crossed h).source_nextToken KindSet.line]
    exact Cursor.source_eatWhile _ _

/-! ## The whole loop -/

theorem exists_run (h : Host) (hsize : byteSize h.cursor.source < 2 ^ 32) :
    ∃ turns, Run h turns ∧ (∀ t ∈ turns, t.before.cursor.pos < t.after.cursor.pos) ∧
      turns.map (fun t => t.token.map Token.place) =
        (texts h.cursor.pos h.cursor.unread).map fun l => some (Line.place h.scanner.config.mode l) := by
  induction hn : h.cursor.unread.length using Nat.strongRecOn generalizing h with
  | ind n ih =>
    rcases white_or_line h.cursor.unread with hw | ⟨w, c, l, rest, hu, hw, hc, hl, hr⟩
    · have htexts := texts_append_of_white h.cursor.pos hw []
      rw [List.append_nil, texts_nil] at htexts
      refine ⟨[], .done (turn_of_white hsize hw), by simp, ?_⟩
      rw [htexts]
      rfl
    · obtain ⟨t, hturn, hcovers⟩ := turn_of_text hsize hu hw hc hl hr
      have hshorter : t.after.cursor.unread.length < n := by
        rw [hcovers.unread, ← hn, hu]
        simp only [List.length_append, List.length_cons]
        omega
      obtain ⟨ts, hrun, hmoves, htokens⟩ := ih _ hshorter t.after (by rw [hcovers.source]; exact hsize) rfl
      refine ⟨t :: ts, .more hturn hrun, ?_, ?_⟩
      · intro u hu
        rcases List.mem_cons.1 hu with rfl | hu
        · have := c.utf8Size_pos
          rw [hcovers.before, hcovers.pos, byteSize_cons]
          omega
        · exact hmoves u hu
      · have htexts := texts_of_line (h.cursor.pos + byteSize w) hc hl hr
        rw [← texts_append_of_white _ hw, ← hu] at htexts
        rw [htexts, List.map_cons, List.map_cons, hcovers.token, htokens, hcovers.unread, hcovers.pos, hcovers.config]

/-- **The lines of a document.** The loop over a document comes to its end in exactly one way. Every turn moves on and
has a token, and the tokens are those of the lines that hold more than blanks, one for each and in their order. -/
theorem run_of_document (config : Config) (source : List Char) (hsize : byteSize source < 2 ^ 32) :
    ∃ turns, (Run (Host.ofText config source) turns ∧ ∀ other, Run (Host.ofText config source) other → other = turns) ∧
      (∀ t ∈ turns, t.before.cursor.pos < t.after.cursor.pos) ∧
      turns.map (fun t => t.token.map Token.place) =
        (((lines 0 source).filter hasText).map unindent).map fun l => some (Line.place config.mode l) := by
  obtain ⟨turns, hrun, hmoves, htokens⟩ := exists_run (Host.ofText config source) hsize
  exact ⟨turns, ⟨hrun, fun other ho => ho.unique hrun⟩, hmoves, htokens⟩

/-- A comment, an empty line between two line ends, a header and a line of content. -/
theorem run_of_document_mixed : ∃ turns, Run (Host.ofText default "; c\r\n\n  [Key]\n x \n".toList) turns ∧
    turns.map (fun t => t.token.map Token.place) =
      [some (.externalLine, 0, 0), some (.headerStart, 8, 8), some (.externalLine, 15, 17)] := by
  obtain ⟨turns, ⟨hrun, -⟩, -, htokens⟩ := run_of_document default "; c\r\n\n  [Key]\n x \n".toList (by decide)
  exact ⟨turns, hrun, htokens.trans (by decide)⟩

end Document

end IniScan
