import CompositeScan.Config
import CompositeScan.Constraint
import CompositeScan.Selection.Basic

/-!
# Merging constraints

Any number of constraints on the fields of an attribute become one bound for each field. On each
side the tightest term of a field is kept. The leading terms of a side form a chain, in which a
strict term is replaced by an inclusive one where the field's domain has a neighbour of the same
length; a strict term that has to stay ends the chain, because it does not select a single family of
keys for the terms after it. Terms behind an unconstrained field stay as they are and are left to
the check of single keys.

All terms of a side are stepped before the chain is looked at, those behind an unconstrained field
included. So whether a literal is outside its domain is found out in any case, and does not depend
on which terms are kept.
-/

namespace CompositeScan

namespace Bound

/-- The greater of two lower bounds; of two at one value, the one that leaves it out. -/
def strongerLower (a b : Bound Text) : Bound Text :=
  match a.value?, b.value? with
  | none, _ => b
  | _, none => a
  | some x, some y => if y < x ∨ (x = y ∧ a.isExclusive) then a else b

/-- The lesser of two upper bounds; of two at one value, the one that leaves it out. -/
def strongerUpper (a b : Bound Text) : Bound Text :=
  match a.value?, b.value? with
  | none, _ => b
  | _, none => a
  | some x, some y => if x < y ∨ (x = y ∧ a.isExclusive) then a else b

end Bound

namespace Constraint

/-- The tightest terms that constraints put to the field of a name. -/
def tightest (constraints : List Constraint) (name : String) : Interval Text :=
  let own := constraints.filter fun c ↦ c.field = name
  ⟨(own.map lowerBound).foldl Bound.strongerLower .unbounded,
    (own.map upperBound).foldl Bound.strongerUpper .unbounded⟩

/-- The tightest terms of each field. Of fields with one name only the first takes part. -/
def terms (constraints : List Constraint) : List Field → List (Interval Text)
  | [] => []
  | f :: fields =>
    tightest constraints f.name :: terms (constraints.filter fun c ↦ c.field ≠ f.name) fields

end Constraint

/-- The step of a domain from a bound of one side into the range. -/
def Side.inward (side : Side) (d : Domain) : Text → Except StepError Text :=
  match side with
  | .lower => d.successor
  | .upper => d.predecessor

namespace Field

/-- The neighbour that can stand in for a strict literal: of the same length, in a field that can
be stepped. Only a literal outside the field's domain is an error. -/
def standIn? (f : Field) (side : Side) (literal : Text) : Except StepError (Option Text) :=
  match f.domain? with
  | none => .ok none
  | some d =>
    match side.inward d literal with
    | .ok next => .ok (if next.length = literal.length then some next else none)
    | .error (.exhausted _) => .ok none
    | .error e => .error e

/-- A term with the neighbour that can stand in for its literal, if it is strict and has one. -/
def stepTerm (attr : String) (side : Side) (f : Field) (term : Bound Text) :
    Except Error (Bound Text × Option Text) :=
  match term with
  | .excluded literal =>
    match f.standIn? side literal with
    | .ok next => .ok (term, next)
    | .error e => .error (.invalidSelection attr (.unsteppable side f.name e))
  | _ => .ok (term, none)

end Field

/-- Replaces the strict terms of the leading chain by their neighbours. A strict term without a
neighbour that is not the last of its chain leaves the fields after it without a bound. -/
def Bound.relaxChain : List (Bound Text × Option Text) → List (Bound Text)
  | [] => []
  | (.unbounded, _) :: terms => .unbounded :: terms.map Prod.fst
  | (.included v, _) :: terms => .included v :: relaxChain terms
  | (.excluded _, some next) :: terms => .included next :: relaxChain terms
  | (.excluded v, none) :: terms =>
    .excluded v ::
      match terms with
      | (b, _) :: _ => if b.IsBounded then terms.map fun _ ↦ .unbounded else terms.map Prod.fst
      | [] => []

/-- Merges the terms of one side. Every strict term is stepped, also behind the chain, so that a
literal outside its domain never goes unnoticed. -/
def Side.merge (attr : String) (side : Side) (fields : List Field) (terms : List (Bound Text)) :
    Except Error (List (Bound Text)) := do
  let stepped ← (fields.zip terms).mapM fun p ↦ p.1.stepTerm attr side p.2
  return Bound.relaxChain stepped

namespace Constraint

/-- The first constraint that names none of the fields. -/
def stray? (fields : List Field) (constraints : List Constraint) : Option Constraint :=
  constraints.find? fun c ↦ c.field ∉ fields.map Field.name

/-- Merges constraints into one bound for each field. -/
def merge (attr : String) (fields : List Field) (constraints : List Constraint) :
    Except Error (List (Interval Text)) :=
  match stray? fields constraints with
  | some c => .error (.invalidSelection attr (.unknownField c))
  | none => do
    let merged := terms constraints fields
    let lowers ← Side.lower.merge attr fields (merged.map Interval.lower)
    let uppers ← Side.upper.merge attr fields (merged.map Interval.upper)
    return List.zipWith Interval.mk lowers uppers

end Constraint

namespace Selection

/-- The selection by constraints. Where keys of one value are admitted, they are so from the first
field's lower literal on. -/
def ofConstraints (legacyKeys : LegacyKeys) (attr : String) (fields : List Field)
    (constraints : List Constraint) : Except Error Selection := do
  let bounds ← Constraint.merge attr fields constraints
  let selection ← ofBounds attr fields bounds
  match legacyKeys with
  | .checked => return selection
  | .admitted =>
    return { selection with
      legacy := (Constraint.terms constraints fields).head?.bind (·.lower.value?) }

end Selection

end CompositeScan
