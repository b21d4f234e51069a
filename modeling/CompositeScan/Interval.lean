import CompositeScan.Bound

/-!
# Intervals

A lower and an upper bound together. The same type bounds the values of a field, ranges over keys
and ranges over stored bytes. Nothing forces the lower end to be below the upper one: an interval
whose ends are crossed contains nothing, and `Crossed` is the test on the ends alone.

## What is tested

`Crossed` is decided by the ends and not by the elements between them. An interval that is not
crossed may still be empty, because texts do not lie densely: nothing stands between a text and the
same text with the least character behind it. `Searchable` is another matter again. It is what an
ordered map takes for granted when it is searched, and asks for less than room between them
(`Interval.searchable_of_not_crossed`): two ends may meet at one element, as long as one of them
lets it in.
-/

namespace CompositeScan

/-- The elements between two bounds. -/
structure Interval (α : Type) where
  /-- The lower end. -/
  lower : Bound α
  /-- The upper end. -/
  upper : Bound α
  deriving DecidableEq

namespace Interval

variable {α β : Type}

/-- The interval without ends. -/
def full : Interval α := ⟨.unbounded, .unbounded⟩

/-- The interval that holds `x` alone. -/
def point (x : α) : Interval α := ⟨.included x, .included x⟩

/-- The interval from `lo` to `hi`, both inside. -/
def between (lo hi : α) : Interval α := ⟨.included lo, .included hi⟩

/-- The part from `x` on. -/
def dropBefore (r : Interval α) (x : α) : Interval α := { r with lower := .included x }

/-- The part after `x`. -/
def dropThrough (r : Interval α) (x : α) : Interval α := { r with lower := .excluded x }

/-- The part before `x`. -/
def takeBefore (r : Interval α) (x : α) : Interval α := { r with upper := .excluded x }

/-- Applies `f` to both ends. -/
def map (f : α → β) (r : Interval α) : Interval β := ⟨r.lower.map f, r.upper.map f⟩

section Order

variable [LT α] [LE α]

instance : Membership α (Interval α) where
  mem r x := r.lower.Below x ∧ r.upper.Above x

/-- The ends leave no room between them. -/
def Crossed (r : Interval α) : Prop :=
  match r.lower, r.upper with
  | .included lo, .included hi => hi < lo
  | .included lo, .excluded hi => hi ≤ lo
  | .excluded lo, .included hi => hi ≤ lo
  | .excluded lo, .excluded hi => hi ≤ lo
  | _, _ => False

/-- An ordered map can be searched from end to end. It takes for granted that the start is not after
the end and that the two do not meet at an element that both leave out. -/
structure Searchable (r : Interval α) : Prop where
  /-- The ends are in order. -/
  not_lt : ∀ lo hi, r.lower.value? = some lo → r.upper.value? = some hi → ¬hi < lo
  /-- An element at which both ends stand is inside for one of them. -/
  not_excluded : ∀ x, r.lower = .excluded x → r.upper ≠ .excluded x

theorem mem_def {r : Interval α} {x : α} : x ∈ r ↔ r.lower.Below x ∧ r.upper.Above x := Iff.rfl

@[simp] theorem mem_full (x : α) : x ∈ (full : Interval α) := ⟨trivial, trivial⟩

/-- Ends that leave room between them can be searched from one to the other. -/
theorem searchable_of_not_crossed [Std.IsPreorder α] [Std.LawfulOrderLT α] {r : Interval α}
    (h : ¬r.Crossed) : r.Searchable := by
  obtain ⟨lower, upper⟩ := r
  constructor
  · intro lo hi hlo hhi hlt
    cases lower <;> cases hlo <;> cases upper <;> cases hhi
    · exact h hlt
    all_goals exact h (Std.le_of_lt hlt)
  · rintro x rfl rfl
    exact h (Std.le_refl x)

variable [DecidableLT α] [DecidableLE α]

instance (r : Interval α) (x : α) : Decidable (x ∈ r) :=
  inferInstanceAs (Decidable (_ ∧ _))

instance (r : Interval α) : Decidable r.Crossed := by
  unfold Crossed
  split <;> infer_instance

/-- The parts before and from `x`, if `x` is inside. -/
def split? (r : Interval α) (x : α) : Option (Interval α × Interval α) :=
  if x ∈ r then some (r.takeBefore x, r.dropBefore x) else none

end Order

end Interval

end CompositeScan
