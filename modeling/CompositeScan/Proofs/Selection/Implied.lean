import CompositeScan.Proofs.Domain.Listed
import CompositeScan.Proofs.Selection.Merge

/-!
# Implied constraints

A constraint is implied by others if each of its terms is no stricter than one that they put to the
same field (`Constraint.Implied`). The tightest terms are as strict as every constraint, so they are
as strict as every implied one, and constraints that imply one another have the same tightest terms
(`Constraint.tightest_congr`): what is kept for a field does not depend on the order of the
constraints on it, on how often each of them comes, or on implied ones among them. As merging begins
with the tightest terms, the same is true of merged bounds.

## Constraints without a field

Merging fails for a constraint that names no field, and reports the first of these. So the order of
constraints does matter to a failure, and all that is said of one is that it does not go away
(`Constraint.merge_eq_ok_congr`). Of implied constraints this is no exception, since a constraint
that names no field can only be implied by another one that names none.
-/

namespace CompositeScan

/-! ## Implied constraints -/

namespace Constraint

/-- On each side on which it has a term, the constraint is implied by a term on the same field. -/
def Implied (constraints : List Constraint) (c : Constraint) : Prop :=
  ∀ side, (c.termAt side).IsBounded →
    ∃ c' ∈ constraints, c'.field = c.field ∧ side.Implies (c'.termAt side) (c.termAt side)

variable {constraints constraints' : List Constraint} {c : Constraint} {name : String}
  {side : Side} {t : Bound Text} {fields : List Field}

theorem implies_tightestAt_iff :
    side.Implies t (tightestAt side constraints name) ↔
      ∀ c ∈ constraints, c.field = name → side.Implies t (c.termAt side) := by
  rw [tightestAt, foldl_iff (p := side.Implies t) (q := side.Implies t)
    fun a b ↦ Side.implies_stronger_iff, List.forall_mem_map]
  simp only [List.mem_filter, decide_eq_true_eq, and_imp]
  exact and_iff_right (Side.implies_of_value?_eq_none rfl)

theorem tightestAt_implies (hc : c ∈ constraints) (hname : c.field = name) :
    side.Implies (tightestAt side constraints name) (c.termAt side) :=
  implies_tightestAt_iff.1 (.refl _) c hc hname

theorem implied_of_mem (h : c ∈ constraints) : Implied constraints c :=
  fun _ _ ↦ ⟨c, h, rfl, .refl _⟩

theorem tightestAt_implies_of_implied (h : ∀ c ∈ constraints', Implied constraints c)
    (side : Side) (name : String) :
    side.Implies (tightestAt side constraints name) (tightestAt side constraints' name) := by
  rw [implies_tightestAt_iff]
  intro c hc hname
  by_cases hbounded : (c.termAt side).IsBounded
  · obtain ⟨c', hc', hfield, himplies⟩ := h c hc side hbounded
    exact (tightestAt_implies hc' (hfield.trans hname)).trans himplies
  · exact Side.implies_of_value?_eq_none (Option.not_isSome_iff_eq_none.1 hbounded)

theorem tightest_congr (h : ∀ c ∈ constraints, Implied constraints' c)
    (h' : ∀ c ∈ constraints', Implied constraints c) (name : String) :
    tightest constraints name = tightest constraints' name := by
  have hside : ∀ side, tightestAt side constraints name = tightestAt side constraints' name :=
    fun side ↦ (tightestAt_implies_of_implied h' side name).antisymm
      (tightestAt_implies_of_implied h side name)
  rw [tightest_eq, tightest_eq, hside, hside]

theorem Implied.filter (h : Implied constraints c) (hname : c.field ≠ name) :
    Implied (constraints.filter fun c ↦ c.field ≠ name) c := by
  intro side hbounded
  obtain ⟨c', hc', hfield, himplies⟩ := h side hbounded
  exact ⟨c', List.mem_filter.2 ⟨hc', by simpa [hfield] using hname⟩, hfield, himplies⟩

theorem exists_isBounded_termAt (c : Constraint) : ∃ side, (c.termAt side).IsBounded := by
  rcases hr : c.relation with - | - | - | - | -
  · exact ⟨.lower, by simp [termAt, lowerBound, hr]⟩
  · exact ⟨.lower, by simp [termAt, lowerBound, hr]⟩
  · exact ⟨.lower, by simp [termAt, lowerBound, hr]⟩
  · exact ⟨.upper, by simp [termAt, upperBound, hr]⟩
  · exact ⟨.upper, by simp [termAt, upperBound, hr]⟩

theorem Implied.exists_field (h : Implied constraints c) :
    ∃ c' ∈ constraints, c'.field = c.field := by
  obtain ⟨side, hbounded⟩ := c.exists_isBounded_termAt
  obtain ⟨c', hc', hfield, -⟩ := h side hbounded
  exact ⟨c', hc', hfield⟩

/-! ## What merging makes of them -/

theorem terms_congr (h : ∀ c ∈ constraints, Implied constraints' c)
    (h' : ∀ c ∈ constraints', Implied constraints c) (fields : List Field) :
    terms constraints fields = terms constraints' fields := by
  induction fields generalizing constraints constraints' with
  | nil => rfl
  | cons f fields ih =>
    have others : ∀ {cs cs' : List Constraint}, (∀ c ∈ cs, Implied cs' c) →
        ∀ c ∈ cs.filter fun c ↦ c.field ≠ f.name,
          Implied (cs'.filter fun c ↦ c.field ≠ f.name) c := by
      intro cs cs' h c hc
      obtain ⟨hc, hname⟩ := List.mem_filter.1 hc
      exact (h c hc).filter (of_decide_eq_true hname)
    rw [terms, terms, tightest_congr h h', ih (others h) (others h')]

theorem stray?_eq_none_of_implied (h : ∀ c ∈ constraints', Implied constraints c)
    (hstray : stray? fields constraints = none) : stray? fields constraints' = none := by
  rw [stray?_eq_none_iff] at hstray ⊢
  intro c hc
  obtain ⟨c', hc', hfield⟩ := (h c hc).exists_field
  exact hfield ▸ hstray c' hc'

/-- Constraints that imply one another are merged into the same bounds. -/
theorem merge_eq_ok_of_implied {attr : String} {bounds : List (Interval Text)}
    (h : ∀ c ∈ constraints, Implied constraints' c)
    (h' : ∀ c ∈ constraints', Implied constraints c)
    (hmerge : merge attr fields constraints = .ok bounds) :
    merge attr fields constraints' = .ok bounds := by
  obtain ⟨hstray, hsides⟩ := merge_eq_ok_iff.1 hmerge
  rw [terms_congr h h'] at hsides
  exact merge_eq_ok_iff.2 ⟨stray?_eq_none_of_implied h' hstray, hsides⟩

/-- **Merging depends on which constraints there are**, and not on their order or on how often each
of them comes: the same constraints in another list are merged into the same bounds, or not at all
either. A further constraint makes no difference if its terms are implied by terms on the same
field. -/
theorem merge_eq_ok_congr (attr : String) (fields : List Field)
    (h : ∀ c, c ∈ constraints ↔ c ∈ constraints') :
    (∀ bounds, merge attr fields constraints = .ok bounds ↔
      merge attr fields constraints' = .ok bounds) ∧
    ∀ c, Implied constraints c → ∀ bounds,
      merge attr fields (c :: constraints) = .ok bounds ↔
        merge attr fields constraints = .ok bounds := by
  constructor
  · intro bounds
    have himplied : ∀ c ∈ constraints, Implied constraints' c :=
      fun c hc ↦ implied_of_mem ((h c).1 hc)
    have himplied' : ∀ c ∈ constraints', Implied constraints c :=
      fun c hc ↦ implied_of_mem ((h c).2 hc)
    exact ⟨merge_eq_ok_of_implied himplied himplied', merge_eq_ok_of_implied himplied' himplied⟩
  · intro c hc bounds
    have hall : ∀ c' ∈ c :: constraints, Implied constraints c' :=
      List.forall_mem_cons.2 ⟨hc, fun c' hc' ↦ implied_of_mem hc'⟩
    have hown : ∀ c' ∈ constraints, Implied (c :: constraints) c' :=
      fun c' hc' ↦ implied_of_mem (List.mem_cons_of_mem c hc')
    exact ⟨merge_eq_ok_of_implied hall hown, merge_eq_ok_of_implied hown hall⟩

/-- Another order, a constraint that comes twice, and one that is implied by a strict term at the
same value. -/
theorem merge_eq_ok_congr_ranks :
    merge "rank" Sample.ranks [⟨"second", .eq, ['b']⟩, ⟨"first", .gt, ['a']⟩,
      ⟨"second", .eq, ['b']⟩] = .ok [⟨.included ['b'], .unbounded⟩, .point ['b']] ∧
    merge "rank" Sample.ranks [⟨"first", .ge, ['a']⟩, ⟨"first", .gt, ['a']⟩,
      ⟨"second", .eq, ['b']⟩] = .ok [⟨.included ['b'], .unbounded⟩, .point ['b']] := by
  have hmerge : merge "rank" Sample.ranks [⟨"first", .gt, ['a']⟩, ⟨"second", .eq, ['b']⟩] =
      .ok [⟨.included ['b'], .unbounded⟩, .point ['b']] := rfl
  have hsame : ∀ c : Constraint, c ∈ [⟨"first", .gt, ['a']⟩, ⟨"second", .eq, ['b']⟩] ↔
      c ∈ [⟨"second", .eq, ['b']⟩, ⟨"first", .gt, ['a']⟩, ⟨"second", .eq, ['b']⟩] := by grind
  have himplied : Implied [⟨"first", .gt, ['a']⟩, ⟨"second", .eq, ['b']⟩]
      ⟨"first", .ge, ['a']⟩ := by
    rintro (- | -) hbounded
    · exact ⟨⟨"first", .gt, ['a']⟩, List.mem_cons_self, rfl, by decide⟩
    · exact absurd hbounded (by decide)
  obtain ⟨hset, hadd⟩ := merge_eq_ok_congr "rank" Sample.ranks hsame
  exact ⟨(hset _).1 hmerge, (hadd _ himplied _).2 hmerge⟩

end Constraint

end CompositeScan
