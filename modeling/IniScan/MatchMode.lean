import IniScan.Text.Basic

/-!
# How a candidate is compared with the section names

A mode has a name, which is read back without regard to the case of ASCII letters.

* `ofName?_name`: the name of a mode is read as that mode.
-/
namespace IniScan

/-- What a candidate must have to do with a section name. -/
inductive MatchMode where
  /-- The candidate has to be a section name, or to begin with one where a header is read. -/
  | exact
  /-- The candidate only has to contain a section name. -/
  | substring
  deriving DecidableEq, Repr

namespace MatchMode

instance : Inhabited MatchMode := ⟨exact⟩

/-- The modes in order. -/
def all : List MatchMode := [exact, substring]

def name : MatchMode → String
  | exact => "exact"
  | substring => "substring"

/-- The name as it stands in the text of a configuration. -/
def describe : MatchMode → String
  | exact => "Exact"
  | substring => "Substring"

/-- The mode with this name, in any case. -/
def ofName? (s : List Char) : Option MatchMode := all.find? fun m => Text.eqIgnoreCase m.name.toList s

theorem ofName?_name (m : MatchMode) : ofName? m.name.toList = some m := by cases m <;> rfl

/-- No mode has this name. -/
structure Unknown where
  name : String
  deriving DecidableEq, Repr

def Unknown.message (_ : Unknown) : String := "Matching variant not found"

/-- The mode with this name, or the name that no mode has. -/
def parse (s : String) : Except Unknown MatchMode :=
  match ofName? s.toList with
  | some m => .ok m
  | none => .error ⟨s⟩

end MatchMode

end IniScan
