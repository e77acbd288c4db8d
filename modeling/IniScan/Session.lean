import IniScan.Host

/-!
# Sessions

In a session a host asks for tokens, consumes the text of its own grammar between them, and now and then
stores the scanner, restores it, or goes back to a copy of everything that it made before. A session answers each step.

* `run_append`: a session runs its steps one after the other.
-/
namespace IniScan

/-- The host and the copy that it goes back to. -/
structure Session where
  host : Host
  saved : Host
  deriving DecidableEq, Repr

namespace Session

/-- What a host may do in a session. -/
inductive Step where
  | nextToken (offered : KindSet)
  /-- Lets the scanner read without beginning a token and without going back. -/
  | scan (offered : KindSet)
  | bump (s : List Char)
  | bumpIgnoreCase (s : List Char)
  | eatWhile (p : Char → Bool)
  | move (m : Move)
  | store (buffer : List UInt8)
  | restore (bytes : List UInt8)
  | reinstate (bytes : List UInt8)
  /-- Replaces the scanner by a new one with the same configuration, which gets what the old one stored. -/
  | reload (buffer : List UInt8)
  | save
  | load

/-- What a step comes to. -/
inductive Answer where
  | token (t : Option Token)
  | kind (k : Option Kind)
  /-- Whether the text was consumed. -/
  | consumed (b : Bool)
  | stored (written : Nat) (buffer : List UInt8)
  | refused (cause : StateError)
  | breach (b : Scanner.Breach)
  | done

/-- The session with another cursor, if there is one, and whether there is. -/
def moveTo (s : Session) (c : Option Cursor) : Answer × Session :=
  match c with
  | some c => (.consumed true, { s with host := { s.host with cursor := c } })
  | none => (.consumed false, s)

/-- The session with another scanner. -/
def withScanner (s : Session) (x : Scanner) : Session := { s with host := { s.host with scanner := x } }

/-- One step: its answer, and the session behind it. -/
def step (s : Session) : Step → Answer × Session
  | .nextToken offered =>
    let (t, h) := s.host.nextToken offered
    (.token t, { s with host := h })
  | .scan offered =>
    let (k, h) := s.host.scan offered
    (.kind k, { s with host := h })
  | .bump t => s.moveTo (s.host.cursor.bump? t)
  | .bumpIgnoreCase t => s.moveTo (s.host.cursor.bumpIgnoreCase? t)
  | .eatWhile p => (.done, { s with host := { s.host with cursor := s.host.cursor.eatWhile p } })
  | .move m => (.done, { s with host := { s.host with cursor := s.host.cursor.go m } })
  | .store buffer =>
    let (written, after) := s.host.scanner.store buffer
    (.stored written after, s)
  | .restore bytes =>
    match s.host.scanner.restore bytes with
    | .ok x => (.done, s.withScanner x)
    | .error cause => (.refused cause, s)
  | .reinstate bytes =>
    match s.host.scanner.reinstate bytes with
    | .ok x => (.done, s.withScanner x)
    | .error b => (.breach b, s)
  | .reload buffer =>
    let (written, after) := s.host.scanner.store buffer
    match (Scanner.ofConfig s.host.scanner.config).reinstate (after.take written) with
    | .ok x => (.done, s.withScanner x)
    | .error b => (.breach b, s)
  | .save => (.done, { s with saved := s.host })
  | .load => (.done, { s with host := s.saved })

/-- The answers to the steps, and the session behind them. -/
def run (s : Session) : List Step → List Answer × Session
  | [] => ([], s)
  | x :: xs =>
    let (a, s) := s.step x
    let (as, s) := s.run xs
    (a :: as, s)

theorem run_append (s : Session) (xs ys : List Step) :
    s.run (xs ++ ys) = ((s.run xs).1 ++ ((s.run xs).2.run ys).1, ((s.run xs).2.run ys).2) := by
  induction xs generalizing s with
  | nil => rfl
  | cons x xs ih => simp [run, ih]

/-- A host with nothing saved but its beginning. -/
def ofText (c : Config) (s : List Char) : Session := ⟨Host.ofText c s, Host.ofText c s⟩

end Session

end IniScan
