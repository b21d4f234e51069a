import CompositeScan.Field
import CompositeScan.Interval
import CompositeScan.Key

/-!
# Effective bounds and the range they span

The bounds of the fields as given are not yet the bounds a key is compared with. Two rules lead
from the one to the other:

* a field whose two ends meet in one value, of which only one leaves the value out, is pinned to
  that value (`Interval.pinned`);
* on each side the bounds of the leading fields form a chain, which ends before the first field
  without a bound; only its last bound may leave its value out, since the earlier ones merely
  select the family of keys to which the last one applies (`Bound.closeChain`).

The effective bounds of the leading fields then span one contiguous range of keys. The separator
sorts after every character of a value, so once more fields follow, a variable-length value sorts
after its own extensions: the lower chain can go no further than the first variable-length field,
and the upper chain must stop before it.
-/

namespace CompositeScan

/-- Pins a field whose ends meet in one value with one of them leaving it out. -/
def Interval.pinned (b : Interval Text) : Interval Text :=
  match b.lower, b.upper with
  | .included lo, .excluded hi => if lo = hi then .point lo else b
  | .excluded lo, .included hi => if lo = hi then .point lo else b
  | _, _ => b

/-- Makes every bound of the leading chain inclusive but its last. -/
def Bound.closeChain {α : Type} : List (Bound α) → List (Bound α)
  | [] => []
  | [b] => [b]
  | b :: next :: bs =>
    if b.IsBounded ∧ next.IsBounded then b.inclusive :: closeChain (next :: bs)
    else b :: next :: bs

/-- The bounds with which the values of a key are compared, for bounds as given. -/
def Interval.effective (bounds : List (Interval Text)) : List (Interval Text) :=
  let pinned := bounds.map Interval.pinned
  List.zipWith Interval.mk (Bound.closeChain (pinned.map Interval.lower))
    (Bound.closeChain (pinned.map Interval.upper))

@[simp] theorem Bound.length_closeChain {α : Type} (bs : List (Bound α)) :
    (closeChain bs).length = bs.length := by
  fun_induction closeChain bs <;> simp_all

@[simp] theorem Interval.length_effective (bounds : List (Interval Text)) :
    (effective bounds).length = bounds.length := by
  simp [effective]

/-- A field together with the bound its values are compared with. -/
structure Column where
  /-- The field. -/
  field : Field
  /-- The bound. -/
  bound : Interval Text

namespace Column

/-- The bounds of the leading columns that the start of a range can express: up to and including
the first variable-length field. -/
def lowerChain : List Column → List (Bound Text)
  | [] => []
  | c :: columns =>
    if c.bound.lower.IsBounded then
      c.bound.lower :: if c.field.isFixed then lowerChain columns else []
    else []

/-- The bounds of the leading columns that the end of a range can express: those before the first
variable-length field. -/
def upperChain : List Column → List (Bound Text)
  | [] => []
  | c :: columns =>
    if c.bound.upper.IsBounded ∧ c.field.isFixed then c.bound.upper :: upperChain columns else []

/-- The values of a chain of bounds. -/
def chainValues (chain : List (Bound Text)) : List Text := chain.filterMap Bound.value?

/-- The start of the keys that satisfy a chain of lower bounds. -/
def startOf (chain : List (Bound Text)) : Bound Key :=
  match chain.getLast? with
  | some (.included _) => .included (.ofValues (chainValues chain))
  | some (.excluded _) => .excluded (.ofValues (chainValues chain))
  | _ => .unbounded

/-- The end of the keys that satisfy a chain of upper bounds. Keys that extend the values of an
inclusive chain are inside, so the end is at the neighbour of its last value. -/
def endOf (chain : List (Bound Text)) : Bound Key :=
  match chain.getLast? with
  | some (.excluded _) => .excluded (.ofValues (chainValues chain))
  | some (.included last) =>
    match last.successor with
    | .ok next => .excluded (.ofValues (chainValues chain.dropLast ++ [next]))
    | .error _ => .unbounded
  | _ => .unbounded

/-- The contiguous range of keys spanned by the leading columns. -/
def range (columns : List Column) : KeyRange :=
  ⟨startOf (lowerChain columns), endOf (upperChain columns)⟩

end Column

end CompositeScan
