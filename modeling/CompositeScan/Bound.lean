/-!
# Bounds

One end of a range: open, at a value that belongs to the range, or at a value that does not. The
same bound is read from either side, so there are two predicates: `b.Below x` says that `x` is
inside when `b` is the lower end, `b.Above x` that it is inside when `b` is the upper end.

A bound does not say which end it is. Constraints are merged side by side, and a range of keys is
cut by moving one value from the upper end of the one part to the lower end of the other; in both
cases the bound is the same and only the reading changes.
-/

namespace CompositeScan

/-- One end of a range of `α`. -/
inductive Bound (α : Type) where
  /-- No end. -/
  | unbounded
  /-- The end is at `value`, which is inside. -/
  | included (value : α)
  /-- The end is at `value`, which is outside. -/
  | excluded (value : α)
  deriving DecidableEq

namespace Bound

variable {α β : Type}

/-- The value at the end, if there is an end. -/
def value? : Bound α → Option α
  | unbounded => none
  | included v => some v
  | excluded v => some v

/-- The same end with its value inside. -/
def inclusive : Bound α → Bound α
  | excluded v => included v
  | b => b

/-- Applies `f` to the value at the end. -/
def map (f : α → β) : Bound α → Bound β
  | unbounded => unbounded
  | included v => included (f v)
  | excluded v => excluded (f v)

/-- There is an end. -/
def IsBounded (b : Bound α) : Prop := b.value?.isSome

instance (b : Bound α) : Decidable b.IsBounded := inferInstanceAs (Decidable (_ = true))

/-- The end is there and its value is outside. -/
def isExclusive : Bound α → Bool
  | excluded _ => true
  | _ => false

section Order

variable [LT α] [LE α]

/-- As a lower end, the bound lets `x` in. -/
def Below : Bound α → α → Prop
  | unbounded, _ => True
  | included v, x => v ≤ x
  | excluded v, x => v < x

/-- As an upper end, the bound lets `x` in. -/
def Above : Bound α → α → Prop
  | unbounded, _ => True
  | included v, x => x ≤ v
  | excluded v, x => x < v

variable [DecidableLT α] [DecidableLE α]

instance : (b : Bound α) → (x : α) → Decidable (b.Below x)
  | unbounded, _ => inferInstanceAs (Decidable True)
  | included v, x => inferInstanceAs (Decidable (v ≤ x))
  | excluded v, x => inferInstanceAs (Decidable (v < x))

instance : (b : Bound α) → (x : α) → Decidable (b.Above x)
  | unbounded, _ => inferInstanceAs (Decidable True)
  | included v, x => inferInstanceAs (Decidable (x ≤ v))
  | excluded v, x => inferInstanceAs (Decidable (x < v))

end Order

@[simp] theorem isBounded_included (v : α) : (included v).IsBounded := rfl

@[simp] theorem isBounded_excluded (v : α) : (excluded v).IsBounded := rfl

@[simp] theorem not_isBounded_unbounded : ¬(unbounded : Bound α).IsBounded := nofun

@[simp] theorem value?_inclusive (b : Bound α) : b.inclusive.value? = b.value? := by
  cases b <;> rfl

@[simp] theorem value?_map (f : α → β) (b : Bound α) : (b.map f).value? = b.value?.map f := by
  cases b <;> rfl

end Bound

end CompositeScan
