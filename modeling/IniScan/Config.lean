import IniScan.MatchMode

/-!
# Configuration

A scanner is told how to compare names with the vocabulary, and how many bytes the host keeps for its state.
-/
namespace IniScan

/-- What a scanner is told once and for all. -/
structure Config where
  mode : MatchMode
  /-- The most bytes that the stored state may take. -/
  budget : UInt64
  deriving DecidableEq, Repr

namespace Config

/-- The size of the buffer that a host keeps for the state of a scanner. -/
def defaultBudget : UInt64 := 1024

instance : Inhabited Config := ⟨⟨.exact, defaultBudget⟩⟩

def withMode (c : Config) (m : MatchMode) : Config := { c with mode := m }

def withBudget (c : Config) (n : UInt64) : Config := { c with budget := n }

def describe (c : Config) : String :=
  "ScannerConfig \x7b match_mode: " ++ c.mode.describe ++ ", serialization_budget: " ++
    toString c.budget.toNat ++ " \x7d"

end Config

end IniScan
