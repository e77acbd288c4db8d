import IniScan.Session
import IniScan.Proofs.Cursor.Slices
import IniScan.Proofs.Host.Calls

/-!
# The stream of tokens

In a session a host may do between two calls for a token whatever a host may do: consume text, read without a call,
place notes by hand, restore a scanner, go back to a copy. A call does not mind what went before it. The token lies in
front of nothing that was read earlier, it lies between characters, the read position moves to its end, and what is
skipped in front of it is blank (`Placed`).

When nothing happens between the calls, the tokens with the gaps in front of them make up the text that has been read
(`Tiles`).

* `source_run`: a session never changes the text.
* `placed_nextToken`: one call, at any place.
* `tiles_run`: a run of calls.
-/
namespace IniScan

open Text

/-! ## One call -/

/-- What a call that was made at the offset `before` of the text comes to: without a token the read position is
the same, and a token stands in order behind it. -/
def Placed (source : List Char) (before : Nat) : Option Token → Host → Prop
  | none, after => after.cursor.pos = before
  | some t, after =>
    (before ≤ t.start.toNat ∧ t.start.toNat ≤ t.stop.toNat ∧ t.stop.toNat ≤ byteSize source) ∧
    ((splitAt? t.start.toNat source).isSome ∧ (splitAt? t.stop.toNat source).isSome) ∧
    after.cursor.pos = t.stop.toNat ∧
    ∃ gap, slice? source before t.start.toNat = some gap ∧ ∀ c ∈ gap, t.kind.skips c = true

theorem isSome_splitAt? {s a b : List Char} (h : s = a ++ b) : (splitAt? (byteSize a) s).isSome = true := by
  rw [h, splitAt?_byteSize]
  rfl

theorem placed_nextToken (h : Host) (offered : KindSet) (hb : byteSize h.cursor.source < 2 ^ 32) :
    Placed h.cursor.source h.cursor.pos (h.nextToken offered).1 (h.nextToken offered).2 := by
  rcases h.finds_or_rejects offered hb with hr | ⟨k, gap, text, hf, hgap⟩
  · rw [hr.token]
    exact hr.pos
  · obtain ⟨t, ht, hk, hstart, hstop⟩ := hf.exists_token
    have hp : h.cursor.pos = byteSize h.cursor.passed.reverse := by rw [byteSize_reverse, h.cursor.pos_eq]
    have hsize : byteSize h.cursor.source = h.cursor.pos + byteSize gap + byteSize text +
        byteSize (h.nextToken offered).2.cursor.unread := by
      rw [hf.source]
      simp only [byteSize_append, ← hp]
      omega
    rw [ht]
    refine ⟨⟨by omega, by omega, by omega⟩, ⟨?_, ?_⟩, by rw [hf.pos, hstop], gap, ?_, by rw [hk]; exact hgap⟩
    · have e : t.start.toNat = byteSize (h.cursor.passed.reverse ++ gap) := by rw [byteSize_append, hstart, hp]
      rw [e]
      exact isSome_splitAt? (by rw [hf.source, List.append_assoc])
    · have e : t.stop.toNat = byteSize (h.cursor.passed.reverse ++ gap ++ text) := by
        rw [byteSize_append, byteSize_append, hstop, hp]
      rw [e]
      exact isSome_splitAt? (by rw [hf.source, List.append_assoc, List.append_assoc])
    · rw [hstart]
      exact hf.slice_gap

/-! ## Sessions keep the text -/

namespace Session

/-- Host and copy are at work on the text. -/
def Holds (s : Session) (source : List Char) : Prop := s.host.cursor.source = source ∧ s.saved.cursor.source = source

theorem holds_moveTo {s : Session} {source : List Char} (h : s.Holds source) {c : Option Cursor}
    (hc : ∀ d ∈ c, d.source = s.host.cursor.source) : (s.moveTo c).2.Holds source := by
  cases c with
  | none => exact h
  | some d => exact ⟨(hc d rfl).trans h.1, h.2⟩

theorem holds_step {s : Session} {source : List Char} (h : s.Holds source) (x : Step) : (s.step x).2.Holds source := by
  cases x with
  | nextToken offered => exact ⟨(s.host.source_nextToken offered).trans h.1, h.2⟩
  | scan offered => exact ⟨(s.host.source_scan offered).trans h.1, h.2⟩
  | bump t => exact holds_moveTo h fun d hd => Cursor.source_bump? hd
  | bumpIgnoreCase t => exact holds_moveTo h fun d hd => Cursor.source_bumpIgnoreCase? hd
  | eatWhile p => exact ⟨(s.host.cursor.source_eatWhile p).trans h.1, h.2⟩
  | move m => exact ⟨(s.host.cursor.source_go m).trans h.1, h.2⟩
  | store buffer => exact h
  | restore bytes =>
    simp only [step]
    split <;> exact h
  | reinstate bytes =>
    simp only [step]
    split <;> exact h
  | reload buffer =>
    simp only [step]
    split <;> exact h
  | save => exact ⟨h.1, h.1⟩
  | load => exact ⟨h.2, h.2⟩

theorem holds_run {s : Session} {source : List Char} (h : s.Holds source) (steps : List Step) :
    (s.run steps).2.Holds source := by
  induction steps generalizing s with
  | nil => exact h
  | cons x xs ih => exact ih (holds_step h x)

theorem holds_ofText (config : Config) (source : List Char) : (ofText config source).Holds source := ⟨rfl, rfl⟩

theorem source_run (config : Config) (source : List Char) (steps : List Step) :
    ((ofText config source).run steps).2.host.cursor.source = source :=
  (holds_run (holds_ofText config source) steps).1

end Session

/-! ## Runs of calls -/

/-- The tokens in order, each with the gap in front of it, make up the text `front` from its start. -/
inductive Tiles (source : List Char) : List Token → List Char → Prop
  | nil : Tiles source [] []
  | snoc {ts : List Token} {front gap text : List Char} {t : Token} : Tiles source ts front →
      slice? source (byteSize front) t.start.toNat = some gap → (∀ c ∈ gap, t.kind.skips c = true) →
      t.text? source = some text → Tiles source (ts ++ [t]) (front ++ (gap ++ text))

/-- The token that a step was answered with. -/
def Session.Answer.token? : Session.Answer → Option Token
  | .token t => t
  | _ => none

/-- One more call adds its token, or leaves everything as it is. -/
theorem tiles_nextToken (h : Host) (offered : KindSet) {ts : List Token} (hb : byteSize h.cursor.source < 2 ^ 32)
    (ht : Tiles h.cursor.source ts h.cursor.front) :
    Tiles h.cursor.source (ts ++ (h.nextToken offered).1.toList) (h.nextToken offered).2.cursor.front := by
  rcases h.finds_or_rejects offered hb with hr | ⟨k, gap, text, hf, hgap⟩
  · rw [hr.token, Cursor.front, hr.passed]
    simpa [Cursor.front] using ht
  · obtain ⟨t, htok, hk, hstart, hstop⟩ := hf.exists_token
    have hfront : (h.nextToken offered).2.cursor.front = h.cursor.front ++ (gap ++ text) := by
      rw [Cursor.front, hf.passed, List.reverse_append, List.reverse_reverse]
      rfl
    rw [htok, hfront]
    refine .snoc ht ?_ (by rw [hk]; exact hgap) ?_
    · rw [h.cursor.byteSize_front, hstart]
      exact hf.slice_gap
    · rw [Token.text?, hstart, hstop]
      exact hf.slice_text

theorem tiles_run {s : Session} {source : List Char} (hb : byteSize source < 2 ^ 32) (hs : s.Holds source)
    {ts : List Token} (ht : Tiles source ts s.host.cursor.front) (calls : List KindSet) :
    Tiles source (ts ++ (s.run (calls.map .nextToken)).1.filterMap Session.Answer.token?)
      (s.run (calls.map .nextToken)).2.host.cursor.front := by
  induction calls generalizing s ts with
  | nil => simpa [Session.run] using ht
  | cons offered calls ih =>
    have hone := tiles_nextToken s.host offered (by rw [hs.1]; exact hb) (by rw [hs.1]; exact ht)
    rw [hs.1] at hone
    have hrest := ih (Session.holds_step hs (.nextToken offered)) hone
    have hans : ((s.run ((offered :: calls).map .nextToken)).1.filterMap Session.Answer.token?) =
        (s.host.nextToken offered).1.toList ++
          (((s.step (.nextToken offered)).2.run (calls.map .nextToken)).1.filterMap Session.Answer.token?) := by
      have hcons : (s.run ((offered :: calls).map .nextToken)).1 = .token (s.host.nextToken offered).1 ::
          ((s.step (.nextToken offered)).2.run (calls.map .nextToken)).1 := rfl
      rw [hcons, List.filterMap_cons]
      cases (s.host.nextToken offered).1 <;> rfl
    rw [hans, ← List.append_assoc]
    exact hrest

/-- **The token stream is ordered and loses no text.** Whatever steps a session has taken, the next call for a token
leaves the read position where it is or finds a token that lies behind it, ends where the read position then stands, and has
nothing but blanks skipped in front of it. The tokens of a run of calls and the gaps in front of them are the text up to
the read position. -/
theorem token_stream (config : Config) (source : List Char) (hb : byteSize source < 2 ^ 32) :
    (∀ steps offered, let h := ((Session.ofText config source).run steps).2.host
      Placed source h.cursor.pos (h.nextToken offered).1 (h.nextToken offered).2) ∧
    (∀ calls : List KindSet, let r := (Session.ofText config source).run (calls.map .nextToken)
      ∃ front rest, splitAt? r.2.host.cursor.pos source = some (front, rest) ∧
        Tiles source (r.1.filterMap Session.Answer.token?) front) := by
  refine ⟨?_, ?_⟩
  · intro steps offered h
    have hsource : h.cursor.source = source := Session.source_run config source steps
    have := placed_nextToken h offered (by rw [hsource]; exact hb)
    rwa [hsource] at this
  · intro calls r
    have hsource : r.2.host.cursor.source = source := Session.source_run config source _
    refine ⟨r.2.host.cursor.front, r.2.host.cursor.unread, ?_, ?_⟩
    · rw [← hsource]
      exact r.2.host.cursor.splitAt?_front
    · exact tiles_run hb (Session.holds_ofText config source) .nil calls

/-- The content of an indented line, then the boundary behind it. -/
theorem token_stream_of_line : Tiles "  x \n".toList [⟨.externalLine, 2, 4⟩, ⟨.lineBoundary, 5, 5⟩] "  x \n".toList := by
  obtain ⟨front, rest, hfront, htiles⟩ :=
    (token_stream default "  x \n".toList (by decide)).2 [KindSet.line, {Kind.lineBoundary}]
  have hf : splitAt? 5 "  x \n".toList = some (front, rest) := hfront
  have he : front = "  x \n".toList := by
    rw [show splitAt? 5 "  x \n".toList = some ("  x \n".toList, []) by decide, Option.some.injEq, Prod.mk.injEq] at hf
    exact hf.1.symm
  rw [he] at htiles
  exact htiles

end IniScan
