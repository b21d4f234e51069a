import CompositeScan.Proofs.Domain.Listed
import CompositeScan.Proofs.Selection.Build

/-!
# Effective bounds are a normal form

Two rules make the effective bounds of given ones: a field whose ends meet is pinned, and then the
chain of each side is closed. In what comes out neither has anything left to do. A chain is closed
exactly when only the last of its bounds leaves its value out (`Bound.closeChain_eq_self_iff`), and
closing it once achieves that.

Pinning is another matter. It comes first, and closing the chains afterwards can make the ends of a
field meet that did not before: one of two strict ends becomes inclusive because its chain goes on,
the other stays strict because it is the last of its own. Such a field contains nothing, so no
selection has it, and the effective bounds of a selection are their own effective bounds
(`Interval.effective_effective`).

Bounds that were merged from constraints have closed chains from the start, since merging cuts off
what follows a strict term that has to stay. Pinning is all that happens to them.
-/

namespace CompositeScan

/-! ## Closed chains -/

namespace Bound

variable {α : Type} {b next : Bound α} {bs : List (Bound α)}

/-- The bounds before the first field without one. -/
def leadingRun (bs : List (Bound α)) : List (Bound α) := bs.takeWhile fun b ↦ b.IsBounded

/-- Of the bounds before the first field without one, only the last may leave its value out. -/
def Closed (bs : List (Bound α)) : Prop := ∀ b ∈ (leadingRun bs).dropLast, ¬b.isExclusive

theorem leadingRun_cons (h : b.IsBounded) : leadingRun (b :: bs) = b :: leadingRun bs :=
  List.takeWhile_cons_of_pos (decide_eq_true h)

theorem leadingRun_cons_of_not (h : ¬b.IsBounded) : leadingRun (b :: bs) = [] :=
  List.takeWhile_cons_of_neg (by simpa using h)

theorem inclusive_eq_self_iff : b.inclusive = b ↔ ¬b.isExclusive := by
  rcases b with - | v | v <;> simp [inclusive, isExclusive]

theorem closed_nil : Closed ([] : List (Bound α)) := List.forall_mem_nil _

theorem closed_cons_cons_iff (hb : b.IsBounded) (hnext : next.IsBounded) :
    Closed (b :: next :: bs) ↔ ¬b.isExclusive ∧ Closed (next :: bs) := by
  rw [Closed, Closed, leadingRun_cons hb, leadingRun_cons hnext, List.dropLast_cons_cons,
    List.forall_mem_cons]

theorem closed_cons_of_not (h : ¬(b.IsBounded ∧ ∃ next ∈ bs.head?, next.IsBounded)) :
    Closed (b :: bs) := by
  by_cases hb : b.IsBounded
  · have hrun : leadingRun bs = [] := by
      rcases bs with - | ⟨next, bs⟩
      · rfl
      · exact leadingRun_cons_of_not fun hnext ↦ h ⟨hb, next, rfl, hnext⟩
    rw [Closed, leadingRun_cons hb, hrun]
    exact List.forall_mem_nil _
  · rw [Closed, leadingRun_cons_of_not hb]
    exact List.forall_mem_nil _

/-- Closing leaves a chain alone if it is closed, and only then. -/
theorem closeChain_eq_self_iff : closeChain bs = bs ↔ Closed bs := by
  fun_induction closeChain bs with
  | case1 => exact iff_of_true rfl closed_nil
  | case2 b => exact iff_of_true rfl (closed_cons_of_not (by simp))
  | case3 b next bs h ih =>
    rw [List.cons.injEq, ih, inclusive_eq_self_iff, closed_cons_cons_iff h.1 h.2]
  | case4 b next bs h => exact iff_of_true rfl (closed_cons_of_not (by simpa using h))

theorem closed_closeChain (bs : List (Bound α)) : Closed (closeChain bs) := by
  fun_induction closeChain bs with
  | case1 => exact closed_nil
  | case2 b => exact closed_cons_of_not (by simp)
  | case3 b next bs h ih =>
    obtain ⟨next', bs', hnext, -, hclose⟩ :=
      List.forall₂_cons_left_iff.1 (closeChain_loosens (next :: bs))
    rw [hclose] at ih ⊢
    refine (closed_cons_cons_iff ?_ (hnext.isBounded_iff.2 h.2)).2 ⟨?_, ih⟩
    · exact (Loosens.isBounded_iff (.inr rfl)).2 h.1
    · rcases b with - | v | v <;> exact Bool.false_ne_true
  | case4 b next bs h => exact closed_cons_of_not (by simpa using h)

end Bound

/-! ## Effective bounds of effective bounds -/

namespace Interval

theorem closed_lower_effective (bounds : List (Interval Text)) :
    Bound.Closed ((effective bounds).map lower) := by
  rw [effective, map_lower_zipWith_mk (by simp)]
  exact Bound.closed_closeChain _

theorem closed_upper_effective (bounds : List (Interval Text)) :
    Bound.Closed ((effective bounds).map upper) := by
  rw [effective, map_upper_zipWith_mk (by simp)]
  exact Bound.closed_closeChain _

/-- Ends at one value that are not crossed let it in, and nothing else. -/
theorem eq_point_of_not_crossed {b : Interval Text} {v : Text} (h : ¬b.Crossed)
    (hlower : b.lower.value? = some v) (hupper : b.upper.value? = some v) : b = .point v := by
  obtain ⟨lower, upper⟩ := b
  rcases lower with - | lo | lo <;> rcases upper with - | hi | hi <;> cases hlower <;> cases hupper
  · rfl
  all_goals exact absurd (le_refl v) h

theorem effective_effective {bounds : List (Interval Text)}
    (h : ∀ b ∈ effective bounds, ¬b.Crossed) :
    effective (effective bounds) = effective bounds := by
  rw [effective_eq_map_pinned (Bound.closeChain_eq_self_iff.2 (closed_lower_effective bounds))
    (Bound.closeChain_eq_self_iff.2 (closed_upper_effective bounds))]
  exact (List.map_congr_left fun b hb ↦ pinned_eq_of_not_crossed (h b hb)).trans (List.map_id _)

end Interval

namespace Selection

variable {attr : String} {fields : List Field} {bounds : List (Interval Text)}
  {constraints : List Constraint} {s : Selection}

theorem not_crossed_of_mem_effective (s : Selection) {b : Interval Text}
    (hb : b ∈ Interval.effective s.bounds) : ¬b.Crossed := by
  rw [← map_bound_columnsOf s.length_eq] at hb
  obtain ⟨c, hc, rfl⟩ := List.mem_map.1 hb
  exact (defect?_eq_none_iff.1 s.sound).2.2.2.1 c hc

theorem defect?_congr {bounds' : List (Interval Text)}
    (h : Interval.effective bounds' = Interval.effective bounds)
    (hsound : defect? fields bounds = none) : defect? fields bounds' = none := by
  have hcolumns : columnsOf fields bounds' = columnsOf fields bounds := by
    rw [columnsOf, columnsOf, h]
  have hlen : bounds'.length = bounds.length := by
    simpa using congrArg List.length h
  rw [defect?_eq_none_iff, hcolumns, hlen]
  exact defect?_eq_none_iff.1 hsound

/-- **Effective bounds of a selection are a normal form.** Each contains what the bound it comes
from contains; ends at one value are both inclusive; on each side only the last bound before the
first field without one, or a bound behind such a field, leaves its value out; and as given bounds
they make a selection with the same effective bounds and the same range. -/
theorem effective_normal (h : ofBounds attr fields bounds = .ok s) :
    List.Forall₂ (fun given b ↦ ∀ v ∈ given, v ∈ b) bounds (Interval.effective bounds) ∧
    (∀ b ∈ Interval.effective bounds, ∀ v, b.lower.value? = some v → b.upper.value? = some v →
      b = .point v) ∧
    Bound.Closed ((Interval.effective bounds).map Interval.lower) ∧
    Bound.Closed ((Interval.effective bounds).map Interval.upper) ∧
    ∃ s', ofBounds attr fields (Interval.effective bounds) = .ok s' ∧
      Interval.effective s'.bounds = Interval.effective bounds ∧ s'.range = s.range := by
  obtain ⟨hsound, rfl⟩ := ofBounds_eq_ok_iff.1 h
  have hnot : ∀ b ∈ Interval.effective bounds, ¬b.Crossed :=
    fun b hb ↦ not_crossed_of_mem_effective ⟨attr, fields, bounds, none, hsound⟩ hb
  have heffective := Interval.effective_effective hnot
  refine ⟨?_, fun b hb v ↦ Interval.eq_point_of_not_crossed (hnot b hb),
    Interval.closed_lower_effective bounds, Interval.closed_upper_effective bounds, ?_⟩
  · refine (Interval.effective_loosens bounds).imp ?_
    intro given b hloosens v hv
    exact hloosens.mem hv
  · have hsound' := defect?_congr heffective hsound
    refine ⟨_, ofBounds_eq_ok_iff.2 ⟨hsound', rfl⟩, heffective, ?_⟩
    simp only [range, columns, columnsOf, heffective]

/-- The grade is not the last field with a lower bound, so its strict end becomes inclusive; the
name is pinned. -/
theorem effective_normal_fields :
    ∃ s s', ofBounds "rank" Sample.fields
        [⟨.excluded ['a'], .unbounded⟩, ⟨.included ['x'], .excluded ['x']⟩] = .ok s ∧
      ofBounds "rank" Sample.fields [⟨.included ['a'], .unbounded⟩, .point ['x']] = .ok s' ∧
      s'.range = s.range := by
  have hok : ofBounds "rank" Sample.fields
      [⟨.excluded ['a'], .unbounded⟩, ⟨.included ['x'], .excluded ['x']⟩] = .ok _ :=
    ofBounds_eq_ok_iff.2 ⟨by decide, rfl⟩
  obtain ⟨-, -, -, -, s', hs', -, hrange⟩ := effective_normal hok
  exact ⟨_, s', hok, hs', hrange⟩

/-! ## Merged bounds -/

/-- **Merging and checking agree on merged bounds.** Their chains are closed, so a key is compared
with them as they are, but for fields that are pinned. -/
theorem admits_iff_pinned_of_ofConstraints
    (h : ofConstraints .checked attr fields constraints = .ok s) :
    Constraint.merge attr fields constraints = .ok s.bounds ∧
    Interval.effective s.bounds = s.bounds.map Interval.pinned ∧
    ∀ key : Key, s.Admits key ↔ ∀ p ∈ s.bounds.zip key.values, p.2 ∈ p.1.pinned := by
  obtain ⟨bounds, hsound, hmerge, rfl⟩ := ofConstraints_eq_ok_iff.1 h
  have heffective := effective_of_merge hmerge
  refine ⟨hmerge, heffective, fun key ↦ ?_⟩
  rw [admits_iff, columnsFor_of_legacy_eq_none rfl]
  change (∀ p ∈ (columnsOf fields bounds).zip key.values, p.2 ∈ p.1.bound) ↔ _
  rw [forall_mem_columnsOf_zip_iff (defect?_eq_none_iff.1 hsound).2.1, heffective,
    List.zip_map_left, List.forall_mem_map]
  rfl

/-- The strict term on the name has to stay, so the term on the grade behind it was given up when
the constraints were merged. The name is still compared with a strict bound. -/
theorem admits_iff_pinned_of_ofConstraints_cutOff :
    ∃ s, ofConstraints .checked "rank" [Sample.grade "first", .varying "name", Sample.grade "last"]
        [⟨"first", .gt, ['a']⟩, ⟨"name", .gt, ['x']⟩, ⟨"last", .gt, ['a']⟩] = .ok s ∧
      s.Admits (.ofValues [['b'], ['y'], ['a']]) ∧
      ¬s.Admits (.ofValues [['b'], ['x'], ['d']]) := by
  have hok : ofConstraints .checked "rank"
      [Sample.grade "first", .varying "name", Sample.grade "last"]
      [⟨"first", .gt, ['a']⟩, ⟨"name", .gt, ['x']⟩, ⟨"last", .gt, ['a']⟩] = .ok _ :=
    ofConstraints_eq_ok_iff.2 ⟨_, by decide, rfl, rfl⟩
  obtain ⟨-, -, hadmits⟩ := admits_iff_pinned_of_ofConstraints hok
  exact ⟨_, hok, (hadmits _).2 (by decide), fun hin ↦ absurd ((hadmits _).1 hin) (by decide)⟩

end Selection

end CompositeScan
