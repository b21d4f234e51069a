import CompositeScan.Interval
import Mathlib.Order.Basic

/-!
# Bounds of ordered elements

What a bound lets in, when the elements are ordered: everything on the far side of an element it
lets in, and no less once it is made inclusive. Most of what happens to a bound on its way from a
query to a column only *loosens* it in this sense (`Bound.Loosens`): it stays at its value and may
let the value in.

To loosen a bound is not the same as to let in more. A bound that is moved to another value may let
in more, too, but then nothing that was said of the value remains; a bound that is loosened is at a
value of the same length, in the same vocabulary, and as far as it was compared with others. That is
why the relation speaks of the bounds themselves and not of what they let in.
-/

namespace CompositeScan

namespace Bound

section Order

variable {α : Type} [Preorder α] {b b' : Bound α} {x y : α}

theorem Below.mono (h : b.Below x) (hle : x ≤ y) : b.Below y := by
  cases b with
  | unbounded => trivial
  | included v => exact le_trans (α := α) h hle
  | excluded v => exact lt_of_lt_of_le (α := α) h hle

theorem Above.mono (h : b.Above y) (hle : x ≤ y) : b.Above x := by
  cases b with
  | unbounded => trivial
  | included v => exact le_trans (α := α) hle h
  | excluded v => exact lt_of_le_of_lt (α := α) hle h

theorem Below.inclusive (h : b.Below x) : b.inclusive.Below x := by
  cases b with
  | unbounded => trivial
  | included v => exact h
  | excluded v => exact le_of_lt (α := α) h

theorem Above.inclusive (h : b.Above x) : b.inclusive.Above x := by
  cases b with
  | unbounded => trivial
  | included v => exact h
  | excluded v => exact le_of_lt (α := α) h

theorem Below.le (h : b.Below y) (hx : b.value? = some x) : x ≤ y := by
  cases b with
  | unbounded => cases hx
  | included lo =>
    cases hx
    exact h
  | excluded lo =>
    cases hx
    exact le_of_lt (α := α) h

theorem Above.le (h : b.Above x) (hy : b.value? = some y) : x ≤ y := by
  cases b with
  | unbounded => cases hy
  | included hi =>
    cases hy
    exact h
  | excluded hi =>
    cases hy
    exact le_of_lt (α := α) h

end Order

variable {α : Type} {b b' b'' : Bound α}

/-- The second bound is the first, perhaps made inclusive. -/
def Loosens (b b' : Bound α) : Prop := b' = b ∨ b' = b.inclusive

namespace Loosens

theorem refl (b : Bound α) : b.Loosens b := .inl rfl

theorem trans (h : b.Loosens b') (h' : b'.Loosens b'') : b.Loosens b'' := by
  rcases h with rfl | rfl
  · exact h'
  · rcases h' with rfl | rfl
    · exact .inr rfl
    · exact .inr (by cases b <;> rfl)

theorem value?_eq (h : b.Loosens b') : b'.value? = b.value? := by
  rcases h with rfl | rfl
  · rfl
  · exact value?_inclusive b

theorem isBounded_iff (h : b.Loosens b') : b'.IsBounded ↔ b.IsBounded := by
  rw [IsBounded, IsBounded, h.value?_eq]

theorem eq_of_excluded {x : α} (h : b.Loosens b') (hx : b' = .excluded x) : b = .excluded x := by
  rcases h with rfl | rfl
  · exact hx
  · cases b <;> cases hx

theorem below [Preorder α] {x : α} (h : b.Loosens b') (hx : b.Below x) : b'.Below x := by
  rcases h with rfl | rfl
  · exact hx
  · exact hx.inclusive

theorem above [Preorder α] {x : α} (h : b.Loosens b') (hx : b.Above x) : b'.Above x := by
  rcases h with rfl | rfl
  · exact hx
  · exact hx.inclusive

end Loosens

end Bound

namespace Interval

variable {α : Type} {b b' b'' : Interval α}

/-- The ends of the second interval are those of the first, perhaps made inclusive. -/
structure Loosens (b b' : Interval α) : Prop where
  /-- The lower end. -/
  lower : b.lower.Loosens b'.lower
  /-- The upper end. -/
  upper : b.upper.Loosens b'.upper

theorem Loosens.trans (h : b.Loosens b') (h' : b'.Loosens b'') : b.Loosens b'' :=
  ⟨h.lower.trans h'.lower, h.upper.trans h'.upper⟩

theorem Loosens.mem [Preorder α] {x : α} (h : b.Loosens b') (hx : x ∈ b) : x ∈ b' :=
  ⟨h.lower.below hx.1, h.upper.above hx.2⟩

theorem le_of_mem [Preorder α] {x lo hi : α} (h : x ∈ b) (hlo : b.lower.value? = some lo)
    (hhi : b.upper.value? = some hi) : lo ≤ hi := (h.1.le hlo).trans (h.2.le hhi)

theorem not_crossed_of_mem [Preorder α] {x : α} (h : x ∈ b) : ¬b.Crossed := by
  obtain ⟨lower, upper⟩ := b
  obtain ⟨hlo, hhi⟩ := h
  cases lower with
  | unbounded => exact id
  | included lo =>
    cases upper with
    | unbounded => exact id
    | included hi => exact not_lt_of_ge (α := α) (le_trans (α := α) hlo hhi)
    | excluded hi => exact not_le_of_gt (α := α) (lt_of_le_of_lt (α := α) hlo hhi)
  | excluded lo =>
    cases upper with
    | unbounded => exact id
    | included hi => exact not_le_of_gt (α := α) (lt_of_lt_of_le (α := α) hlo hhi)
    | excluded hi => exact not_le_of_gt (α := α) (lt_trans (α := α) hlo hhi)

end Interval

end CompositeScan
