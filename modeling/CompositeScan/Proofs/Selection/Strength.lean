import CompositeScan.Proofs.Lists
import CompositeScan.Proofs.Text.Order
import CompositeScan.Selection.Merge

/-!
# The strictness of terms

Of the terms that constraints put to one side of a field, merging keeps the strictest. Strictness is
a total order of the terms of a side (`Side.Implies`), in which a term at a tighter value comes
before every term at another value, and of two terms at one value the one that leaves it out. To
keep one of two terms is to take the stricter in this order (`Side.stronger_eq_ite`). What is kept
of several is therefore one of them and as strict as each, and it lets in what all of them do
(`Side.admits_stronger_iff`).

The order is one of terms and not of the values they let in: nothing lies between a text and the
same text followed by the least character, and still the two are different literals. So two terms
may let in the same values and differ, and then it is settled by the order, and not by which of them
came first, which of the two is kept (`Side.Implies.antisymm`).
-/

namespace CompositeScan

theorem Bound.eq_of_value?_eq {α : Type} {a b : Bound α} (h : a.value? = b.value?)
    (hexcl : a.isExclusive = b.isExclusive) : a = b := by
  rcases a with - | x | x <;> rcases b with - | y | y <;> simp_all [value?, isExclusive]

theorem Bound.eq_unbounded {α : Type} {b : Bound α} (h : b.value? = none) :
    b = .unbounded := by
  rcases b with - | x | x
  · rfl
  all_goals cases h

/-! ## Strictness -/

namespace Side

/-- As an end on this side, the bound lets the value in. -/
def Admits (side : Side) (b : Bound Text) (v : Text) : Prop :=
  match side with
  | .lower => b.Below v
  | .upper => b.Above v

/-- As an end on this side, the first value leaves less room than the second. -/
def Tighter (side : Side) (x y : Text) : Prop :=
  match side with
  | .lower => y < x
  | .upper => x < y

instance : (side : Side) → (x y : Text) → Decidable (side.Tighter x y)
  | .lower, x, y => inferInstanceAs (Decidable (y < x))
  | .upper, x, y => inferInstanceAs (Decidable (x < y))

/-- As an end on this side, the first term is as strict as the second: it is at a tighter value, or
it is at the same value and leaves that out if the second does. -/
def Implies (side : Side) (a b : Bound Text) : Prop :=
  ∀ y ∈ b.value?, ∃ x ∈ a.value?, side.Tighter x y ∨ x = y ∧ (b.isExclusive → a.isExclusive)

instance (side : Side) (a b : Bound Text) : Decidable (side.Implies a b) :=
  inferInstanceAs (Decidable (∀ y ∈ b.value?, ∃ x ∈ a.value?, _))

variable {side : Side} {x y z v : Text} {a b t : Bound Text}

theorem Tighter.trans (h : side.Tighter x y) (h' : side.Tighter y z) : side.Tighter x z := by
  cases side with
  | lower => exact lt_trans (α := Text) h' h
  | upper => exact lt_trans (α := Text) h h'

theorem Tighter.asymm (h : side.Tighter x y) : ¬side.Tighter y x := by
  cases side with
  | lower => exact lt_asymm (α := Text) h
  | upper => exact lt_asymm (α := Text) h

theorem tighter_trichotomy (side : Side) (x y : Text) :
    side.Tighter x y ∨ x = y ∨ side.Tighter y x := by
  cases side with
  | lower => exact (lt_trichotomy y x).imp_right (Or.imp_left Eq.symm)
  | upper => exact lt_trichotomy x y

theorem admits_unbounded (side : Side) (v : Text) : side.Admits .unbounded v := by
  cases side with
  | lower => trivial
  | upper => trivial

/-- An end lets in the tighter values, and its own unless it leaves that out. -/
theorem admits_iff (hb : b.value? = some y) :
    side.Admits b v ↔ side.Tighter v y ∨ v = y ∧ ¬b.isExclusive := by
  rcases b with - | w | w <;> cases hb <;> rcases side with - | -
  · exact (le_iff_lt_or_eq (α := Text)).trans (by simp [Tighter, Bound.isExclusive, eq_comm])
  · exact (le_iff_lt_or_eq (α := Text)).trans (by simp [Tighter, Bound.isExclusive])
  · simp [Admits, Bound.Below, Tighter, Bound.isExclusive]
  · simp [Admits, Bound.Above, Tighter, Bound.isExclusive]

theorem implies_of_value?_eq_none (hb : b.value? = none) : side.Implies a b := by
  intro y hy
  rw [hb] at hy
  exact absurd hy (Option.not_mem_none y)

theorem implies_iff (ha : a.value? = some x) (hb : b.value? = some y) :
    side.Implies a b ↔ side.Tighter x y ∨ x = y ∧ (b.isExclusive → a.isExclusive) := by
  simp [Implies, ha, hb]

namespace Implies

protected theorem refl (a : Bound Text) : side.Implies a a := fun x hx ↦ ⟨x, hx, .inr ⟨rfl, id⟩⟩

protected theorem trans (h : side.Implies a b) (h' : side.Implies b t) : side.Implies a t := by
  intro z hz
  obtain ⟨y, hy, hyz⟩ := h' z hz
  obtain ⟨x, hx, hxy⟩ := h y hy
  refine ⟨x, hx, ?_⟩
  rcases hxy with hxy | ⟨rfl, hexcl⟩
  · rcases hyz with hyz | ⟨rfl, -⟩
    · exact .inl (hxy.trans hyz)
    · exact .inl hxy
  · exact hyz.imp_right (And.imp_right (hexcl ∘ ·))

theorem eq_of_none (h : side.Implies a b) (ha : a.value? = none) : a = b := by
  have hb : b.value? = none := by
    by_contra hne
    obtain ⟨y, hy⟩ := Option.ne_none_iff_exists'.1 hne
    obtain ⟨x, hx, -⟩ := h y hy
    rw [ha] at hx
    exact Option.not_mem_none x hx
  rw [Bound.eq_unbounded ha, Bound.eq_unbounded hb]

/-- Two terms as strict as one another are one term. -/
protected theorem antisymm (h : side.Implies a b) (h' : side.Implies b a) : a = b := by
  rcases ha : a.value? with - | x
  · exact h.eq_of_none ha
  rcases hb : b.value? with - | y
  · exact (h'.eq_of_none hb).symm
  rw [implies_iff ha hb] at h
  rw [implies_iff hb ha] at h'
  rcases h with hxy | ⟨rfl, hba⟩
  · rcases h' with hyx | ⟨rfl, -⟩
    · exact absurd hyx hxy.asymm
    · exact absurd hxy hxy.asymm
  · rcases h' with hxx | ⟨-, hab⟩
    · exact absurd hxx hxx.asymm
    · exact Bound.eq_of_value?_eq (ha.trans hb.symm) (Bool.eq_iff_iff.2 ⟨hab, hba⟩)

theorem admits (h : side.Implies a b) (hv : side.Admits a v) : side.Admits b v := by
  rcases hb : b.value? with - | y
  · rw [Bound.eq_unbounded hb]
    exact side.admits_unbounded v
  obtain ⟨x, hx, hxy⟩ := h y hb
  rw [admits_iff hx] at hv
  rw [admits_iff hb]
  rcases hv with hvx | ⟨rfl, ha⟩
  · rcases hxy with hxy | ⟨rfl, -⟩
    · exact .inl (hvx.trans hxy)
    · exact .inl hvx
  · exact hxy.imp_right (And.imp_right (ha ∘ ·))

end Implies

theorem implies_total (side : Side) (a b : Bound Text) : side.Implies a b ∨ side.Implies b a := by
  rcases ha : a.value? with - | x
  · exact .inr (implies_of_value?_eq_none ha)
  rcases hb : b.value? with - | y
  · exact .inl (implies_of_value?_eq_none hb)
  rw [implies_iff ha hb, implies_iff hb ha]
  rcases side.tighter_trichotomy x y with hxy | rfl | hyx
  · exact .inl (.inl hxy)
  · by_cases hexcl : a.isExclusive
    · exact .inl (.inr ⟨rfl, fun _ ↦ hexcl⟩)
    · exact .inr (.inr ⟨rfl, fun h ↦ absurd h hexcl⟩)
  · exact .inr (.inl hyx)

/-! ## The stricter of two terms -/

/-- The one of two terms on this side that merging keeps. -/
def stronger (side : Side) : Bound Text → Bound Text → Bound Text :=
  match side with
  | .lower => Bound.strongerLower
  | .upper => Bound.strongerUpper

theorem stronger_eq (side : Side) (a b : Bound Text) :
    side.stronger a b =
      match a.value?, b.value? with
      | none, _ => b
      | _, none => a
      | some x, some y => if side.Tighter x y ∨ (x = y ∧ a.isExclusive) then a else b := by
  cases side with
  | lower => rfl
  | upper => rfl

/-- The stricter term is kept. -/
theorem stronger_eq_ite (side : Side) (a b : Bound Text) :
    side.stronger a b = if side.Implies a b then a else b := by
  rw [stronger_eq]
  split
  · next ha =>
    split
    · next h => exact (h.eq_of_none ha).symm
    · rfl
  · next hb _ => rw [if_pos (implies_of_value?_eq_none hb)]
  · next x y ha hb =>
    by_cases h : side.Implies a b
    · rw [if_pos h]
      split
      · rfl
      · next hnot =>
        -- Two inclusive terms at one value: it makes no difference which of them is kept.
        rw [not_or, not_and] at hnot
        obtain ⟨rfl, hba⟩ := ((implies_iff ha hb).1 h).resolve_left hnot.1
        have ha' : ¬a.isExclusive := hnot.2 rfl
        have hb' : ¬b.isExclusive := ha' ∘ hba
        exact Bound.eq_of_value?_eq (hb.trans ha.symm) (Bool.eq_iff_iff.2 (iff_of_false hb' ha'))
    · rw [if_neg h, if_neg]
      rw [implies_iff ha hb] at h
      exact h ∘ Or.imp_right (And.imp_right fun hexcl _ ↦ hexcl)

theorem stronger_eq_or (side : Side) (a b : Bound Text) :
    side.stronger a b = a ∨ side.stronger a b = b := by
  rw [stronger_eq_ite]
  split
  · exact .inl rfl
  · exact .inr rfl

theorem implies_stronger_iff :
    side.Implies t (side.stronger a b) ↔ side.Implies t a ∧ side.Implies t b := by
  rw [stronger_eq_ite]
  by_cases h : side.Implies a b
  · rw [if_pos h]
    exact ⟨fun ht ↦ ⟨ht, ht.trans h⟩, And.left⟩
  · have h' := (side.implies_total a b).resolve_left h
    rw [if_neg h]
    exact ⟨fun ht ↦ ⟨ht.trans h', ht⟩, And.right⟩

theorem admits_stronger_iff :
    side.Admits (side.stronger a b) v ↔ side.Admits a v ∧ side.Admits b v := by
  rw [stronger_eq_ite]
  by_cases h : side.Implies a b
  · rw [if_pos h]
    exact ⟨fun ha ↦ ⟨ha, h.admits ha⟩, And.left⟩
  · have h' := (side.implies_total a b).resolve_left h
    rw [if_neg h]
    exact ⟨fun hb ↦ ⟨h'.admits hb, hb⟩, And.right⟩

end Side

end CompositeScan
