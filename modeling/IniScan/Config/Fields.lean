import IniScan.Config.Json

/-!
# Configurations from one field after another

`Config.ofJson` looks the two values up. Here the fields of an object are read one after another, in the order in which they
stand. There is a place for each value, which takes no second one; a field that no place is for is passed over; and a place
that is empty behind the last field means the default. What is wrong first is what is reported.

* `ofFields`, and `byName` for the order of an object that keeps its fields by their names.
-/
namespace IniScan.Config

/-- The place for the value under `name`, behind one more field. -/
def fill {α : Type} (name : String) (read : Option Json → Except JsonError α) (place : Option α)
    (field : String × Json) : Except JsonError (Option α) :=
  if field.1 = name then
    if place.isSome then .error .malformed else (read (some field.2)).map some
  else .ok place

/-- The places for the two values. -/
structure Places where
  mode : Option MatchMode
  budget : Option UInt64

namespace Places

def empty : Places := ⟨none, none⟩

/-- The places come to something if each of them does; else the mode is what is wrong first. -/
def both (mode : Except JsonError (Option MatchMode)) (budget : Except JsonError (Option UInt64)) :
    Except JsonError Places := do
  let mode ← mode
  let budget ← budget
  return ⟨mode, budget⟩

def fill (places : Places) (field : String × Json) : Except JsonError Places :=
  both (Config.fill "matchMode" modeOfJson places.mode field)
    (Config.fill "serializationBudget" budgetOfJson places.budget field)

def config (places : Places) : Config := ⟨places.mode.getD default, places.budget.getD defaultBudget⟩

end Places

/-- The configuration that the fields are, or what is wrong with the first one that is. -/
def ofFields (fields : List (String × Json)) : Except JsonError Config :=
  (fields.foldlM Places.fill Places.empty).map Places.config

/-- The fields by their names. -/
def byName (fields : List (String × Json)) : List (String × Json) := fields.mergeSort fun f g => f.1 ≤ g.1

end IniScan.Config
