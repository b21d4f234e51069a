import CompositeScan.Bound
import CompositeScan.Text.Quoted

/-!
# Constraints

What a query asks of one field: the field's value stands in a relation to a literal. A relation
bounds the value from below, from above, or from both sides, and `lowerBound` and `upperBound` are
those two halves as bounds.

A constraint that demands one value bounds it from both sides and is strict on neither, so
everything that is done to constraints can be done to the two sides apart. The side on which a
relation says nothing has the open bound.
-/

namespace CompositeScan

/-- A relation between a field's value and a literal. -/
inductive Relation where
  /-- The value is the literal. -/
  | eq
  /-- The value is greater. -/
  | gt
  /-- The value is greater or equal. -/
  | ge
  /-- The value is less. -/
  | lt
  /-- The value is less or equal. -/
  | le
  deriving DecidableEq

namespace Relation

/-- Every relation. -/
def all : List Relation := [.eq, .gt, .ge, .lt, .le]

/-- The sign of a relation. -/
def symbol : Relation → String
  | eq => "=="
  | gt => ">"
  | ge => ">="
  | lt => "<"
  | le => "<="

/-- The name of a relation. -/
def name : Relation → String
  | eq => "EQ"
  | gt => "GT"
  | ge => "GE"
  | lt => "LT"
  | le => "LE"

/-- The relation of a name. -/
def ofName? (name : String) : Option Relation := all.find? fun r ↦ r.name = name

/-- The relation bounds the value from below. -/
def isLower : Relation → Bool
  | eq | gt | ge => true
  | lt | le => false

/-- The relation bounds the value from above. -/
def isUpper : Relation → Bool
  | eq | lt | le => true
  | gt | ge => false

/-- The relation leaves out the literal itself. -/
def isStrict : Relation → Bool
  | gt | lt => true
  | eq | ge | le => false

/-- What a relation says of a value and a literal. -/
def Holds : Relation → Text → Text → Prop
  | eq, value, literal => value = literal
  | gt, value, literal => literal < value
  | ge, value, literal => literal ≤ value
  | lt, value, literal => value < literal
  | le, value, literal => value ≤ literal

instance (r : Relation) (value literal : Text) : Decidable (r.Holds value literal) :=
  match r with
  | eq => inferInstanceAs (Decidable (value = literal))
  | gt => inferInstanceAs (Decidable (literal < value))
  | ge => inferInstanceAs (Decidable (literal ≤ value))
  | lt => inferInstanceAs (Decidable (value < literal))
  | le => inferInstanceAs (Decidable (value ≤ literal))

end Relation

/-- A relation between the value of a field and a literal. -/
structure Constraint where
  /-- The name of the field. -/
  field : String
  /-- The relation of the field's value to the literal. -/
  relation : Relation
  /-- The value compared with. -/
  literal : Text
  deriving DecidableEq

namespace Constraint

/-- The lower end a constraint puts to its field. -/
def lowerBound (c : Constraint) : Bound Text :=
  match c.relation with
  | .eq | .ge => .included c.literal
  | .gt => .excluded c.literal
  | .lt | .le => .unbounded

/-- The upper end a constraint puts to its field. -/
def upperBound (c : Constraint) : Bound Text :=
  match c.relation with
  | .eq | .le => .included c.literal
  | .lt => .excluded c.literal
  | .gt | .ge => .unbounded

/-- A constraint as a message shows it. -/
def display (c : Constraint) : String :=
  s!"{c.field} {c.relation.symbol} {c.literal.quoted}"

/-- A value is between the two terms of a constraint exactly when the relation holds. -/
theorem below_and_above_terms_iff {c : Constraint} {value : Text} :
    c.lowerBound.Below value ∧ c.upperBound.Above value ↔ c.relation.Holds value c.literal := by
  cases hr : c.relation <;>
    simp [lowerBound, upperBound, Relation.Holds, Bound.Below, Bound.Above, hr]
  exact ⟨fun ⟨h₁, h₂⟩ ↦ Std.le_antisymm h₂ h₁, fun h ↦ h ▸ ⟨Std.le_refl _, Std.le_refl _⟩⟩

end Constraint

end CompositeScan
