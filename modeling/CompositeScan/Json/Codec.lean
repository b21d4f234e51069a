import CompositeScan.Config
import CompositeScan.Constraint
import CompositeScan.Decimal
import CompositeScan.Interval
import CompositeScan.Json.Value

/-!
# Bounds, constraints and configurations as JSON

Each type is written as one JSON value and read back from any value of the same meaning. A bound
and a constraint need all their members; a configuration takes its defaults for those that are
missing. A variant without payload may be spelled with a null payload.
-/

namespace CompositeScan

open Json (Value)

namespace Bound

/-- A bound on text as JSON. -/
def toJson : Bound Text → Value
  | unbounded => .ofName "Unbounded"
  | included t => .ofMembers [("Included", .ofText t)]
  | excluded t => .ofMembers [("Excluded", .ofText t)]

/-- The bound that a JSON value means. -/
def ofJson? (v : Value) : Option (Bound Text) :=
  match v.variant? with
  | some ("Unbounded", payload) => if payload.all Value.isNull then some unbounded else none
  | some ("Included", some payload) => payload.text?.map included
  | some ("Excluded", some payload) => payload.text?.map excluded
  | _ => none

end Bound

namespace Interval

/-- The bound of a field as JSON. -/
def toJson (b : Interval Text) : Value :=
  .ofMembers [("lower", b.lower.toJson), ("upper", b.upper.toJson)]

/-- The bound of a field that a JSON value means. -/
def ofJson? (v : Value) : Option (Interval Text) :=
  match v.record? ["lower", "upper"] with
  | some [some lower, some upper] => do return ⟨← Bound.ofJson? lower, ← Bound.ofJson? upper⟩
  | _ => none

end Interval

namespace Relation

/-- A relation as JSON. -/
def toJson (r : Relation) : Value := .ofName r.name

/-- The relation that a JSON value means. -/
def ofJson? (v : Value) : Option Relation :=
  match v.variant? with
  | some (name, payload) => if payload.all Value.isNull then ofName? name else none
  | none => none

end Relation

namespace Constraint

/-- A constraint as JSON. -/
def toJson (c : Constraint) : Value :=
  .ofMembers [("field", .ofName c.field), ("op", c.relation.toJson), ("literal", .ofText c.literal)]

/-- The constraint that a JSON value means. -/
def ofJson? (v : Value) : Option Constraint :=
  match v.record? ["field", "op", "literal"] with
  | some [some field, some op, some literal] => do
    return ⟨String.ofList (← field.text?), ← Relation.ofJson? op, ← literal.text?⟩
  | _ => none

end Constraint

/-- A number of 64 bits as JSON. -/
def wordToJson (n : UInt64) : Value := .number (Decimal.write n.toNat)

/-- The number of 64 bits that a JSON value means: digits alone, without sign, fraction or
exponent. -/
def wordOfJson? : Value → Option UInt64
  | .number literal => (Decimal.bounded? literal).map UInt64.ofNat
  | _ => none

namespace Config

/-- A configuration as JSON. -/
def toJson (c : Config) : Value :=
  .ofMembers [("seek_threshold", wordToJson c.missLimit),
    ("transition_millis", (c.compositeSince.map wordToJson).getD .null)]

/-- The time of transition that a JSON value means; null means none. -/
def transitionOfJson? (v : Value) : Option (Option UInt64) :=
  if v.isNull then some none else (wordOfJson? v).map some

/-- The configuration that a JSON value means. -/
def ofJson? (v : Value) : Option Config :=
  let defaults : Config := {}
  match v.record? ["seek_threshold", "transition_millis"] with
  | some [threshold, transition] => do
    return {
      missLimit := ← (threshold.map wordOfJson?).getD (some defaults.missLimit)
      compositeSince := ← (transition.map transitionOfJson?).getD
        (some defaults.compositeSince) }
  | _ => none

end Config

end CompositeScan
