import CompositeScan.Decimal
import CompositeScan.Domain.Basic

/-!
# Decimal and listed domains

Two domains whose values need not be in text order. `Domain.decimal` holds the 64-bit numbers
without padding, so `9` precedes `10`; `Domain.listed` holds the items of a list in the order in
which they are given. They serve attributes whose values are numbered or enumerated, and they show
what the scan may not assume of a domain.
-/

namespace CompositeScan

namespace Decimal

/-- The value denoting one more, without padding. -/
def successor (t : Text) : Except StepError Text :=
  match bounded? t with
  | none => .error (.outsideDomain t "decimal")
  | some n => if n = last then .error (.exhausted t) else .ok (write (n + 1))

/-- The value denoting one less, without padding. -/
def predecessor (t : Text) : Except StepError Text :=
  match bounded? t with
  | none => .error (.outsideDomain t "decimal")
  | some 0 => .error (.exhausted t)
  | some (n + 1) => .ok (write n)

end Decimal

namespace Domain

/-- The 64-bit numbers in decimal. -/
def decimal : Domain where
  successor := Decimal.successor
  predecessor := Decimal.predecessor

/-- The item that follows the first occurrence of `value` in `items`. -/
def itemAfter (items : List Text) (value : Text) : Except StepError Text :=
  match items.dropWhile (· ≠ value) with
  | [] => .error (.outsideDomain value "table")
  | [_] => .error (.exhausted value)
  | _ :: next :: _ => .ok next

/-- The item that stands before the first occurrence of `value` in `items`. -/
def itemBefore (items : List Text) (value : Text) : Except StepError Text :=
  if value ∈ items then
    match (items.takeWhile (· ≠ value)).getLast? with
    | some previous => .ok previous
    | none => .error (.exhausted value)
  else .error (.outsideDomain value "table")

/-- The items of a list, in the order of the list. -/
def listed (items : List Text) : Domain where
  successor := itemAfter items
  predecessor := itemBefore items

end Domain

end CompositeScan
