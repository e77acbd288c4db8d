import IniScan.Config
import IniScan.Json

/-!
# Configurations as JSON

A configuration is written as an object with two fields. It is read from such an object, in which each field may be
missing and other fields count for nothing, or from a list with the two values in order, of which the last ones may be
missing. The mode is read before the budget, and both before the length of a list.

* `ofJson_toJson`: what is written is read back.
-/
namespace IniScan.Config

/-- The object with both fields. -/
def toJson (c : Config) : Json :=
  .object [("matchMode", .string c.mode.name), ("serializationBudget", .natural c.budget.toNat)]

/-- Why a value is not a configuration. -/
inductive JsonError where
  | unknownMode (name : String)
  | malformed
  deriving DecidableEq, Repr

/-- Nothing is said about a value of the wrong shape. -/
def JsonError.message? : JsonError → Option String
  | .unknownMode name => some ("unknown variant `" ++ name ++ "`, expected `exact` or `substring`")
  | .malformed => none

/-- The mode that the value names; the default if there is no value. -/
def modeOfJson : Option Json → Except JsonError MatchMode
  | none => .ok default
  | some (.string s) =>
    match MatchMode.parse s with
    | .ok m => .ok m
    | .error unknown => .error (.unknownMode unknown.name)
  | some _ => .error .malformed

/-- The budget that the value gives, a whole number of at most 64 bits; the default if there is no value. -/
def budgetOfJson : Option Json → Except JsonError UInt64
  | none => .ok defaultBudget
  | some (.natural n) => if n < UInt64.size then .ok (UInt64.ofNat n) else .error .malformed
  | some _ => .error .malformed

/-- A configuration from the two values. -/
def ofValues (mode budget : Option Json) : Except JsonError Config := do
  let mode ← modeOfJson mode
  let budget ← budgetOfJson budget
  return ⟨mode, budget⟩

/-- The configuration that the value is, or why it is none. -/
def ofJson : Json → Except JsonError Config
  | .object fields => ofValues (Json.field? "matchMode" fields) (Json.field? "serializationBudget" fields)
  | .array items => do
    let config ← ofValues items[0]? items[1]?
    if items.length ≤ 2 then return config else throw .malformed
  | _ => .error .malformed

theorem ofJson_toJson (c : Config) : ofJson c.toJson = .ok c := by
  obtain ⟨mode, budget⟩ := c
  have hm : modeOfJson (some (.string mode.name)) = .ok mode := by cases mode <;> rfl
  have hb : budgetOfJson (some (.natural budget.toNat)) = .ok budget := by
    rw [budgetOfJson, if_pos budget.toNat_lt, UInt64.ofNat_toNat]
  show ofValues (some (.string mode.name)) (some (.natural budget.toNat)) = _
  simp only [ofValues, hm, hb]
  rfl

end IniScan.Config
