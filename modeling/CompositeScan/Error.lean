import CompositeScan.Constraint
import CompositeScan.Domain.Basic
import CompositeScan.Key

/-!
# Errors

What can go wrong between the constraints of a query and the rows of a scan, as causes. The wording
is in `message`, one function for each type of cause.

Only a failure of the storage may pass when the scan is tried again; all other causes lie in the
schema, the query or the stored data.

Causes are kept apart from their wording because statements are about causes: which field it was,
which side, which literal. `Defect.stated` is there for callers who reject a range for a reason of
their own.
-/

namespace CompositeScan

/-- A side of a range. -/
inductive Side where
  | lower
  | upper
  deriving DecidableEq

namespace Side

/-- The name of a side. -/
def name : Side → String
  | lower => "lower"
  | upper => "upper"

end Side

/-- A bound as a message shows it, its value written by `describeValue`. -/
def Bound.describe {α : Type} (describeValue : α → String) : Bound α → String
  | unbounded => "Unbounded"
  | included v => s!"Included({describeValue v})"
  | excluded v => s!"Excluded({describeValue v})"

/-- A failure that the storage reports. -/
structure Failure where
  /-- The name of the kind of failure. -/
  kind : String
  /-- What the storage says of it. -/
  message : String
  deriving DecidableEq

/-- Why fields, bounds or constraints describe no range. -/
inductive Defect where
  /-- There is no field. -/
  | noFields
  /-- There are not as many bounds as fields. -/
  | countMismatch (fields bounds : Nat)
  /-- A field name occurs twice. -/
  | duplicateField (name : String)
  /-- The bound of a field contains nothing. -/
  | emptyField (name : String) (bound : Interval Text)
  /-- The merged range starts after its end. -/
  | crossedRange (lower upper : Key)
  /-- A constraint names no field. -/
  | unknownField (constraint : Constraint)
  /-- A strict literal is not in the domain of its field. -/
  | unsteppable (side : Side) (field : String) (cause : StepError)
  /-- A reason in words. -/
  | stated (reason : String)
  deriving DecidableEq

namespace Defect

/-- The wording of a defect. -/
def message : Defect → String
  | noFields => "no fields"
  | countMismatch fields bounds => s!"{fields} fields but {bounds} bounds"
  | duplicateField name => s!"duplicate field {Text.quotedName name}"
  | emptyField name bound =>
    s!"field {Text.quotedName name}: lower bound {bound.lower.describe Text.quoted} " ++
      s!"is above upper bound {bound.upper.describe Text.quoted}"
  | crossedRange lower upper =>
    s!"merged lower bound {lower.display} is above merged upper bound {upper.display}"
  | unknownField c =>
    "constraint `" ++ c.display ++ "` references unknown field " ++ Text.quotedName c.field
  | unsteppable side field cause =>
    s!"{side.name} bound of field {Text.quotedName field}: {cause.message}"
  | stated reason => reason

end Defect

/-- Why a range can not be described or a scan ended early. -/
inductive Error where
  /-- A fixed-length field has no value where a target needs one. -/
  | boundExhausted (attr field : String) (cause : StepError)
  /-- Fields, bounds or constraints describe no range. -/
  | invalidSelection (attr : String) (defect : Defect)
  /-- A stored key is not text. -/
  | invalidEncoding (bytes : Bytes)
  /-- The storage failed. -/
  | storage (failure : Failure)
  deriving DecidableEq

namespace Error

/-- The wording of an error. -/
def message : Error → String
  | boundExhausted attr field cause =>
    s!"BoundExhausted: field {Text.quotedName field} of composite attribute " ++
      s!"{Text.quotedName attr}: {cause.message}"
  | invalidSelection attr defect =>
    s!"InvalidRangeSpec: composite attribute {Text.quotedName attr}: {defect.message}"
  | invalidEncoding bytes =>
    "InvalidKeyEncoding: storage key [" ++ ", ".intercalate (bytes.map fun b ↦ toString b.toNat)
      ++ "] is not valid UTF-8"
  | storage failure => s!"Storage: {failure.message}"

/-- Trying the scan again could succeed. -/
def isTransient : Error → Bool
  | storage _ => true
  | _ => false

/-- The error as a failure of the storage, for a caller that knows no others. -/
def toFailure : Error → Failure
  | storage failure => failure
  | invalidSelection attr defect => ⟨"InvalidInput", (invalidSelection attr defect).message⟩
  | e => ⟨"InvalidData", e.message⟩

end Error

end CompositeScan
