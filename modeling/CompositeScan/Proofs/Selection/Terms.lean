import CompositeScan.Proofs.Selection.Strength

/-!
# The tightest terms

Of the constraints on a field only the tightest term of each side is kept. Together the two let in
just the values of which all constraints on the field hold (`Constraint.mem_tightest_iff`). As long
as no two fields share a name, the fields do not compete for constraints
(`Constraint.terms_eq_map`), and a key meets all constraints if each of its values is between the
terms of its field (`Constraint.met_iff`).

A constraint says something about both sides if it demands one value, and else about one of them; on
the other its term is unbounded. With a term on either side for every constraint, the tightest one
is the same fold on both sides, from no term at all, and what is known of it comes from the order of
strictness alone (`Side.admits_stronger_iff`).
-/

namespace CompositeScan

namespace Constraint

variable {constraints : List Constraint} {fields : List Field} {name : String} {v : Text}
  {values : List Text}

/-- The term a constraint puts to its field on a side. -/
def termAt (side : Side) (c : Constraint) : Bound Text :=
  match side with
  | .lower => c.lowerBound
  | .upper => c.upperBound

/-- The strictest of the terms that constraints put to a field on a side. -/
def tightestAt (side : Side) (constraints : List Constraint) (name : String) : Bound Text :=
  ((constraints.filter fun c ↦ c.field = name).map (termAt side)).foldl side.stronger .unbounded

theorem tightest_eq (constraints : List Constraint) (name : String) :
    tightest constraints name =
      ⟨tightestAt .lower constraints name, tightestAt .upper constraints name⟩ := rfl

theorem admits_tightestAt_iff {side : Side} :
    side.Admits (tightestAt side constraints name) v ↔
      ∀ c ∈ constraints, c.field = name → side.Admits (c.termAt side) v := by
  rw [tightestAt, foldl_iff (p := (side.Admits · v)) (q := (side.Admits · v))
    fun a b ↦ Side.admits_stronger_iff, List.forall_mem_map,
    and_iff_right (side.admits_unbounded v)]
  simp only [List.mem_filter, decide_eq_true_eq, and_imp]

/-- The tightest terms let in what every constraint on the field does. -/
theorem mem_tightest_iff :
    v ∈ tightest constraints name ↔
      ∀ c ∈ constraints, c.field = name → c.relation.Holds v c.literal := by
  have hlower : Side.lower.Admits (tightestAt .lower constraints name) v ↔ _ :=
    admits_tightestAt_iff
  have hupper : Side.upper.Admits (tightestAt .upper constraints name) v ↔ _ :=
    admits_tightestAt_iff
  rw [tightest_eq, Interval.mem_def]
  simp only [← below_and_above_terms_iff]
  constructor
  · rintro ⟨hlo, hup⟩ c hc hname
    exact ⟨hlower.1 hlo c hc hname, hupper.1 hup c hc hname⟩
  · intro h
    exact ⟨hlower.2 fun c hc hname ↦ (h c hc hname).1, hupper.2 fun c hc hname ↦ (h c hc hname).2⟩

theorem literal_eq_of_termAt {side : Side} {c : Constraint} {lit : Text}
    (h : (c.termAt side).value? = some lit) : c.literal = lit := by
  rcases side with - | -
  · rw [termAt, lowerBound] at h
    split at h <;> simp_all [Bound.value?]
  · rw [termAt, upperBound] at h
    split at h <;> simp_all [Bound.value?]

theorem exists_literal_of_tightestAt (side : Side) {lit : Text}
    (h : (tightestAt side constraints name).value? = some lit) :
    ∃ c ∈ constraints, c.field = name ∧ c.literal = lit := by
  rcases List.mem_cons.1 (foldl_mem_cons side.stronger_eq_or .unbounded
    ((constraints.filter fun c ↦ c.field = name).map (termAt side))) with hnone | hmem
  · rw [tightestAt, hnone] at h
    cases h
  · obtain ⟨c, hc, hterm⟩ := List.mem_map.1 hmem
    obtain ⟨hc, hname⟩ := List.mem_filter.1 hc
    rw [tightestAt, ← hterm] at h
    exact ⟨c, hc, by simpa using hname, literal_eq_of_termAt h⟩

theorem tightest_filter {other : String} (h : name ≠ other) :
    tightest (constraints.filter fun c ↦ c.field ≠ other) name = tightest constraints name := by
  have hown : (constraints.filter fun c ↦ c.field ≠ other).filter (fun c ↦ c.field = name) =
      constraints.filter fun c ↦ c.field = name := by
    rw [List.filter_filter]
    refine List.filter_congr fun c _ ↦ ?_
    by_cases hc : c.field = name <;> simp [hc, h]
  rw [tightest, tightest, hown]

/-- Fields of distinct names have their own tightest terms. -/
theorem terms_eq_map (h : (fields.map Field.name).Nodup) :
    terms constraints fields = fields.map fun f ↦ tightest constraints f.name := by
  induction fields generalizing constraints with
  | nil => rfl
  | cons f fields ih =>
    rw [List.map_cons, List.nodup_cons] at h
    rw [terms, ih h.2, List.map_cons]
    congr 1
    refine List.map_congr_left fun g hg ↦ tightest_filter fun hname ↦ h.1 ?_
    exact hname ▸ List.mem_map_of_mem hg

/-- Every constraint on a field that has a value holds of it. -/
def Met (constraints : List Constraint) (fields : List Field) (values : List Text) : Prop :=
  ∀ p ∈ fields.zip values, ∀ c ∈ constraints, c.field = p.1.name →
    c.relation.Holds p.2 c.literal

instance (constraints : List Constraint) (fields : List Field) (values : List Text) :
    Decidable (Met constraints fields values) :=
  inferInstanceAs (Decidable (∀ p ∈ _, ∀ c ∈ _, _ → _))

theorem met_iff :
    Met constraints fields values ↔
      ∀ p ∈ fields.zip values, p.2 ∈ tightest constraints p.1.name := by
  simp only [mem_tightest_iff, Met]

end Constraint

end CompositeScan
