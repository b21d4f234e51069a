import CompositeScan.Proofs.Domain.Listed
import CompositeScan.Proofs.Selection.Build

/-!
# Which bounds make a selection

Fields and bounds are looked through for five defects, and the last of them, a range that starts
after its end, is there for bounds that can not be compared. Where the ends of each fixed-length
field are as long as one another it is never found: that no field is crossed is then enough
(`Column.inOrder_range`).

The start of the range is the key of the lower values of the leading columns. In a column that is
not crossed the lower value is under the upper bound, whether or not the column lets it in. So that
key is under the columns, and before the end of the range for the same reason as every key they
admit (`Column.above_endOf_of_under`).
-/

namespace CompositeScan

theorem Interval.above_of_not_crossed {b : Interval Text} {lo : Text} (h : ¬b.Crossed)
    (hlo : b.lower.value? = some lo) : b.upper.Above lo := by
  obtain ⟨lower, upper⟩ := b
  rcases upper with - | hi | hi
  · trivial
  · rcases lower with - | lo | lo <;> cases hlo
    · exact not_lt.1 h
    · exact (not_le.1 h).le
  · rcases lower with - | lo | lo <;> cases hlo
    · exact not_le.1 h
    · exact not_le.1 h

/-- If the field is of fixed length, the ends of the bound are as long as one another. -/
def Field.Level (f : Field) (b : Interval Text) : Prop :=
  f.isFixed → ∀ lo ∈ b.lower.value?, ∀ hi ∈ b.upper.value?, lo.length = hi.length

instance (f : Field) (b : Interval Text) : Decidable (f.Level b) :=
  inferInstanceAs (Decidable (_ → ∀ lo ∈ b.lower.value?, ∀ hi ∈ b.upper.value?, _))

namespace Column

variable {columns : List Column}

theorem value?_lower_of_mem_zip :
    ∀ p ∈ columns.zip (chainValues (lowerChain columns)), p.1.bound.lower.value? = some p.2 := by
  induction columns with
  | nil => exact List.forall_mem_nil _
  | cons c columns ih =>
    by_cases hb : c.bound.lower.IsBounded
    · obtain ⟨lo, hlo⟩ := exists_value?_of_isBounded hb
      rw [lowerChain_cons hb, chainValues_cons hlo, List.zip_cons_cons, List.forall_mem_cons]
      refine ⟨hlo, ?_⟩
      split
      · exact ih
      · rw [chainValues, List.filterMap_nil, List.zip_nil_right]
        exact List.forall_mem_nil _
    · rw [lowerChain_cons_of_not hb, chainValues, List.filterMap_nil, List.zip_nil_right]
      exact List.forall_mem_nil _

theorem eq_ofValues_of_startOf {chain : List (Bound Text)} {start : Key}
    (h : (startOf chain).value? = some start) :
    chainValues chain ≠ [] ∧ start = .ofValues (chainValues chain) := by
  rw [startOf] at h
  split at h
  · next lo hlast =>
    rw [chainValues_eq_append hlast rfl] at h ⊢
    exact ⟨List.concat_ne_nil _ _, (Option.some_inj.1 h).symm⟩
  · next lo hlast =>
    rw [chainValues_eq_append hlast rfl] at h ⊢
    exact ⟨List.concat_ne_nil _ _, (Option.some_inj.1 h).symm⟩
  · cases h

/-- The range of columns that are not crossed has its ends in order. -/
theorem inOrder_range (hnot : ∀ c ∈ columns, ¬c.bound.Crossed)
    (hlevel : ∀ c ∈ columns, c.field.Level c.bound) : Selection.InOrder (range columns) := by
  intro start last hstart hlast
  obtain ⟨hne, rfl⟩ := eq_ofValues_of_startOf hstart
  have hunder : ∀ p ∈ columns.zip (chainValues (lowerChain columns)), p.1.Under p.2 := by
    intro p hp
    have hc : p.1 ∈ columns := (List.of_mem_zip hp).1
    have hlo := value?_lower_of_mem_zip p hp
    refine ⟨Interval.above_of_not_crossed (hnot p.1 hc) hlo, fun hfixed hi hhi ↦ ?_⟩
    exact (hlevel p.1 hc hfixed p.2 hlo hi hhi).symm
  exact (above_endOf_of_under hunder hne).le hlast

end Column

namespace Selection

variable {fields : List Field} {bounds : List (Interval Text)}

theorem level_of_mem_columnsOf (h : ∀ p ∈ fields.zip bounds, p.1.Level p.2) {c : Column}
    (hc : c ∈ columnsOf fields bounds) : c.field.Level c.bound := by
  obtain ⟨b, hb, hloosens⟩ := exists_bound_of_mem_columnsOf hc
  intro hfixed lo hlo hi hhi
  rw [hloosens.lower.value?_eq] at hlo
  rw [hloosens.upper.value?_eq] at hhi
  exact h (c.field, b) hb hfixed lo hlo hi hhi

/-- A range is only found to start after its end once no field was found to be crossed. -/
theorem not_inOrder_of_crossedRange {start last : Key}
    (h : defect? fields bounds = some (.crossedRange start last)) :
    (∀ c ∈ columnsOf fields bounds, ¬c.bound.Crossed) ∧
      ¬InOrder (Column.range (columnsOf fields bounds)) := by
  rw [defect?] at h
  split at h
  · cases h
  split at h
  · cases h
  split at h
  · cases h
  split at h
  · cases h
  next hnone =>
  simp only [List.find?_eq_none, decide_eq_true_eq] at hnone
  refine ⟨hnone, fun horder ↦ ?_⟩
  simp only at h
  split at h
  · next start' last' hstart hlast =>
    rw [if_neg (not_lt.2 (horder start' last' hstart hlast))] at h
    cases h
  · cases h

/-- **Exactly the bounds without a crossed field make a selection**, if the fields are well formed
and the ends of each fixed-length field are as long as one another. That the range starts after its
end is then never a reason to reject them. -/
theorem exists_ofBounds_iff (attr : String) (h : ∀ p ∈ fields.zip bounds, p.1.Level p.2) :
    ((∃ s, ofBounds attr fields bounds = .ok s) ↔
      fields ≠ [] ∧ fields.length = bounds.length ∧ (fields.map Field.name).Nodup ∧
        ∀ b ∈ Interval.effective bounds, ¬b.Crossed) ∧
    ∀ start last, ofBounds attr fields bounds ≠
      .error (.invalidSelection attr (.crossedRange start last)) := by
  have horder : (∀ c ∈ columnsOf fields bounds, ¬c.bound.Crossed) →
      InOrder (Column.range (columnsOf fields bounds)) :=
    fun hnot ↦ Column.inOrder_range hnot fun c ↦ level_of_mem_columnsOf h
  constructor
  · have hsound : (∃ s, ofBounds attr fields bounds = .ok s) ↔ defect? fields bounds = none := by
      simp only [ofBounds_eq_ok_iff]
      constructor
      · rintro ⟨s, hsound, -⟩
        exact hsound
      · intro hsound
        exact ⟨_, hsound, rfl⟩
    rw [hsound, defect?_eq_none_iff]
    refine and_congr_right fun _ ↦ and_congr_right fun hlen ↦ and_congr_right fun _ ↦ ?_
    rw [← map_bound_columnsOf hlen, List.forall_mem_map]
    exact and_iff_left_of_imp horder
  · intro start last herror
    rw [ofBounds] at herror
    split at herror
    · cases herror
    · next defect hdefect =>
      cases herror
      obtain ⟨hnot, hcrossed⟩ := not_inOrder_of_crossedRange hdefect
      exact hcrossed (horder hnot)

/-- Of one grade and the names from `x` to `y`, and of no grade. -/
theorem exists_ofBounds_iff_fields :
    (∃ s, ofBounds "rank" Sample.fields
      [.point ['b'], ⟨.excluded ['x'], .included ['y', 'z']⟩] = .ok s) ∧
    ¬∃ s, ofBounds "rank" Sample.fields
      [⟨.excluded ['b'], .excluded ['b']⟩, ⟨.unbounded, .included ['y']⟩] = .ok s := by
  constructor
  · exact ((exists_ofBounds_iff "rank" (by decide)).1).2 (by decide)
  · intro hok
    exact absurd (((exists_ofBounds_iff "rank" (by decide)).1).1 hok) (by decide)

/-- Ends of different lengths can be in order while the keys that begin with them are not. -/
example : defect? [.fixed "first", .fixed "second"]
    [.between ['b'] ['b', 'a'], ⟨.included ['x'], .unbounded⟩] =
      some (.crossedRange (.ofValues [['b'], ['x']]) (.ofValues [['b', 'b']])) := by decide

end Selection

end CompositeScan
