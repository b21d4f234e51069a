import CompositeScan.Proofs.Selection.Build

/-!
# Contradicting constraints

Constraints that no value meets should select nothing. A selection is not searched for such
constraints when it is built, but merging hides them only where a strict term without a neighbour
makes it give up the terms that follow. Such a term lets no value in, so no key gets that far: a
value within a merged bound meets the constraints on the field if the bounds before it have values
on either side (`Constraint.mem_tightest_of_merge`).

What may hide contradicting constraints is the pinning that comes afterwards. A lower term that was
stepped can meet an upper term behind a gap, which stays strict; then the field is pinned to a value
that the upper term leaves out. A field may also be pinned to the literal of a strict term without a
neighbour, and let keys get to the terms that were given up. In all other cases the selection is
rejected or admits no key with a value for the field of the contradicting constraints.
-/

namespace CompositeScan

/-! ## Merging lets no further value in -/

/-- Each end of the bound lets in some value of the vocabulary. -/
def Interval.Reaches (b : Interval Text) (V : Vocabulary) : Prop :=
  (∃ v ∈ V, b.lower.Below v) ∧ ∃ v ∈ V, b.upper.Above v

theorem Interval.reaches_of_mem {b : Interval Text} {V : Vocabulary} {v : Text} (hv : v ∈ V)
    (h : v ∈ b) : b.Reaches V :=
  ⟨⟨v, hv, h.1⟩, v, hv, h.2⟩

/-- A term is kept if every merged term before it lets in some value. -/
theorem Side.keeps_getElem_of_merge {V : Vocabularies} {attr : String} {side : Side}
    {fields : List Field} {terms bs : List (Bound Text)} {i : ℕ} {x : Field × Bound Text}
    {b : Bound Text} (h : ∀ x ∈ fields.zip terms, x.1.Steps (V x.1.name) ∧
      x.1.Spells (V x.1.name) x.2 ∧ x.1.isFixed)
    (hmerge : side.merge attr fields terms = .ok bs)
    (hreach : ∀ j < i, ∀ y c, (fields.zip terms)[j]? = some y → bs[j]? = some c →
      ∃ w ∈ V y.1.name, side.Admits c w)
    (hx : (fields.zip terms)[i]? = some x) (hb : bs[i]? = some b) : x.1.Keeps side x.2 b := by
  obtain ⟨stepped, hstepped, rfl⟩ := Side.merge_eq_ok_iff.1 hmerge
  induction i using Nat.strongRecOn generalizing x b with
  | _ i ih =>
    obtain ⟨p, hp, hstep⟩ := exists_of_forall₂_getElem? hstepped hx
    refine Field.keeps_of_settles hstep (Bound.settles_of_relaxChain ?_ hp hb)
    intro q hq
    obtain ⟨j, hj⟩ := List.mem_iff_getElem?.1 hq
    rw [List.getElem?_take] at hj
    obtain ⟨hji, hj⟩ := Option.ite_none_right_eq_some.1 hj
    obtain ⟨y, hy, hstepy⟩ := exists_of_forall₂_getElem? hstepped.flip hj
    obtain ⟨c, hc, -⟩ := exists_of_forall₂_getElem? (Bound.relaxChain_settles_or stepped) hj
    -- The term at `j` is kept itself, so it lets in the value that what became of it does.
    have hkeeps := ih j hji hy (fun k hk ↦ hreach k (hk.trans hji)) hc
    obtain ⟨w, hw, hadmits⟩ := hreach j hji y c hy hc
    obtain ⟨hsteps, hspells, hfixed⟩ := h y (List.mem_of_getElem? hy)
    obtain ⟨d, hd⟩ := Option.isSome_iff_exists.1 hfixed
    rw [hkeeps.admits_iff hsteps hspells ((Field.takes_iff_of_domain hd).2 hw)] at hadmits
    obtain ⟨q', hq', hsome⟩ := Field.exists_stepTerm attr w hsteps hspells
    obtain rfl := Except.ok.inj (hstepy.symm.trans hq')
    exact hsome hfixed hw hadmits

/-- A value within a merged bound meets the constraints on the field, if the bounds before it have
values on either side. -/
theorem Constraint.mem_tightest_of_merge {V : Vocabularies} {attr : String} {fields : List Field}
    {constraints : List Constraint} {bounds : List (Interval Text)} {i : ℕ} {f : Field}
    {b : Interval Text} {v : Text} (h : WellPosed V fields constraints)
    (hfixed : ∀ f ∈ fields, f.isFixed) (hmerge : merge attr fields constraints = .ok bounds)
    (hreach : ∀ j < i, ∀ g c, fields[j]? = some g → bounds[j]? = some c → c.Reaches (V g.name))
    (hf : fields[i]? = some f) (hb : bounds[i]? = some b) (hv : v ∈ V f.name) (hmem : v ∈ b) :
    v ∈ tightest constraints f.name := by
  obtain ⟨hlower, hupper⟩ := Selection.sides_of_merge hmerge
  -- What holds of both sides, with `e` for the end of a bound on the side.
  have hside : ∀ (side : Side) (e : Interval Text → Bound Text),
      (∀ f ∈ fields, f.Spells (V f.name) (e (tightest constraints f.name))) →
      (∀ (c : Interval Text) (V : Vocabulary), c.Reaches V → ∃ w ∈ V, side.Admits (e c) w) →
      side.merge attr fields ((terms constraints fields).map e) = .ok (bounds.map e) →
      side.Admits (e b) v → side.Admits (e (tightest constraints f.name)) v := by
    intro side e hspells hadmits hmerge hbv
    have hmem := List.mem_of_getElem? hf
    obtain ⟨d, hd⟩ := Option.isSome_iff_exists.1 (hfixed f hmem)
    have hkeeps := Side.keeps_getElem_of_merge (V := V) (i := i)
      (x := (f, e (tightest constraints f.name))) (b := e b) ?_ hmerge ?_ ?_ ?_
    · exact (hkeeps.admits_iff (h.steps f hmem) (hspells f hmem)
        ((Field.takes_iff_of_domain hd).2 hv)).1 hbv
    · rw [zip_map_terms h.nodup, List.forall_mem_map]
      exact fun f hf ↦ ⟨h.steps f hf, hspells f hf, hfixed f hf⟩
    · intro j hj y c hy hc
      rw [zip_map_terms h.nodup, List.getElem?_map, Option.map_eq_some_iff] at hy
      rw [List.getElem?_map, Option.map_eq_some_iff] at hc
      obtain ⟨g, hg, rfl⟩ := hy
      obtain ⟨c, hc, rfl⟩ := hc
      exact hadmits c (V g.name) (hreach j hj g c hg hc)
    · rw [zip_map_terms h.nodup, List.getElem?_map, hf, Option.map_some]
    · rw [List.getElem?_map, hb, Option.map_some]
  exact ⟨hside .lower Interval.lower (fun f hf ↦ (h.spells hf).1) (fun c V hc ↦ hc.1) hlower hmem.1,
    hside .upper Interval.upper (fun f hf ↦ (h.spells hf).2) (fun c V hc ↦ hc.2) hupper hmem.2⟩

namespace Sample

/-- A first grade below the least one. -/
def belowLeast : List Constraint := [⟨"second", .ge, ['b']⟩, ⟨"first", .lt, ['a']⟩]

/-- Any first grade, and a second one between two that are next to one another. -/
def gap : List Constraint :=
  [⟨"first", .ge, ['a']⟩, ⟨"second", .gt, ['a']⟩, ⟨"second", .lt, ['b']⟩]

end Sample

namespace Selection

open Constraint (tightest)

variable {V : Vocabularies} {mode : LegacyKeys} {attr : String} {fields : List Field}
  {constraints : List Constraint} {bounds : List (Interval Text)} {key : Key}

/-! ## Why a selection is rejected -/

theorem exists_defect_of_merge {side : Side} {terms : List (Bound Text)} {e : Error}
    (h : side.merge attr fields terms = .error e) :
    ∃ defect, e = .invalidSelection attr defect := by
  rw [Side.merge, bind_eq_error_iff] at h
  rcases h with h | ⟨stepped, -, h⟩
  · obtain ⟨⟨f, term⟩, -, h⟩ := exists_of_mapM_eq_error h
    simp only [Field.stepTerm] at h
    split at h
    · split at h
      · cases h
      · exact ⟨_, (Except.error.inj h).symm⟩
    · cases h
  · cases h

theorem exists_defect_of_ofConstraints {e : Error}
    (h : ofConstraints mode attr fields constraints = .error e) :
    ∃ defect, e = .invalidSelection attr defect := by
  rw [ofConstraints, bind_eq_error_iff] at h
  rcases h with h | ⟨bounds, -, h⟩
  · rw [Constraint.merge] at h
    split at h
    · exact ⟨_, (Except.error.inj h).symm⟩
    · rcases bind_eq_error_iff.1 h with h | ⟨lowers, -, h⟩
      · exact exists_defect_of_merge h
      · rcases bind_eq_error_iff.1 h with h | ⟨uppers, -, h⟩
        · exact exists_defect_of_merge h
        · cases h
  · rcases bind_eq_error_iff.1 h with h | ⟨s, -, h⟩
    · rw [ofBounds] at h
      split at h
      · cases h
      · exact ⟨_, (Except.error.inj h).symm⟩
    · cases mode <;> cases h

/-! ## Contradictions -/

theorem mem_pinned_of_admits (hmerge : Constraint.merge attr fields constraints = .ok bounds)
    (hlen : fields.length = bounds.length)
    (hadmits : ∀ p ∈ (columnsOf fields bounds).zip key.values, p.2 ∈ p.1.bound) {j : ℕ}
    {b : Interval Text} {v : Text} (hb : bounds[j]? = some b) (hv : key.values[j]? = some v) :
    v ∈ b.pinned := by
  rw [forall_mem_columnsOf_zip_iff hlen, effective_of_merge hmerge] at hadmits
  refine hadmits (b.pinned, v)
    (List.mem_of_getElem? (i := j) (List.getElem?_zip_eq_some.2 ⟨?_, hv⟩))
  rw [List.getElem?_map, hb, Option.map_some]

/-- **Contradicting constraints select nothing**, if all fields are of fixed length and pinning has
no part in it: it leaves the bound of the contradicting field alone, and each earlier bound that it
changes has values on either side. When no value of the field's vocabulary meets all constraints on
it, the selection is rejected, or it admits no key of values of the vocabularies that has a value
for the field. -/
theorem rejected_or_not_admits (h : Constraint.Lawful V fields constraints)
    (hfixed : ∀ f ∈ fields, f.isFixed) {i : ℕ} {f : Field} (hf : fields[i]? = some f)
    (hunmet : ∀ v ∈ V f.name, ∃ c ∈ constraints, c.field = f.name ∧ ¬c.relation.Holds v c.literal)
    (hpinned : ∀ bounds, Constraint.merge attr fields constraints = .ok bounds →
      (∀ b, bounds[i]? = some b → b.pinned = b) ∧
      ∀ j < i, ∀ g b, fields[j]? = some g → bounds[j]? = some b →
        b.pinned = b ∨ b.Reaches (V g.name)) :
    (∃ defect, ofConstraints .checked attr fields constraints =
      .error (.invalidSelection attr defect)) ∨
    ∃ s, ofConstraints .checked attr fields constraints = .ok s ∧
      ∀ key : Key, i < key.values.length → (∀ p ∈ fields.zip key.values, p.2 ∈ V p.1.name) →
        ¬s.Admits key := by
  cases hbuild : ofConstraints .checked attr fields constraints with
  | error e =>
    obtain ⟨defect, rfl⟩ := exists_defect_of_ofConstraints hbuild
    exact .inl ⟨defect, rfl⟩
  | ok s =>
    refine .inr ⟨s, rfl, ?_⟩
    intro key hi hkey hadmits
    obtain ⟨bounds, hsound, hmerge, rfl⟩ := ofConstraints_eq_ok_iff.1 hbuild
    have hlen : fields.length = bounds.length := (defect?_eq_none_iff.1 hsound).2.1
    rw [admits_iff, columnsFor_of_legacy_eq_none rfl] at hadmits
    -- A bound that pinning leaves alone has the value of the key in it.
    have hmem : ∀ j ≤ i, ∀ g b, fields[j]? = some g → bounds[j]? = some b → b.pinned = b →
        ∃ v ∈ V g.name, v ∈ b := by
      intro j hj g b hg hb hpin
      have hv := List.getElem?_eq_getElem (Nat.lt_of_le_of_lt hj hi)
      have hvb := mem_pinned_of_admits hmerge hlen hadmits hb hv
      rw [hpin] at hvb
      have hzip := List.mem_of_getElem? (List.getElem?_zip_eq_some (z := (g, _)).2 ⟨hg, hv⟩)
      exact ⟨_, hkey _ hzip, hvb⟩
    obtain ⟨hlast, hearlier⟩ := hpinned bounds hmerge
    have hreach : ∀ j < i, ∀ g c, fields[j]? = some g → bounds[j]? = some c →
        c.Reaches (V g.name) := by
      intro j hj g c hg hc
      rcases hearlier j hj g c hg hc with hpin | hreaches
      · obtain ⟨v, hv, hvc⟩ := hmem j hj.le g c hg hc hpin
        exact Interval.reaches_of_mem hv hvc
      · exact hreaches
    obtain ⟨b, hb⟩ : ∃ b, bounds[i]? = some b :=
      ⟨_, List.getElem?_eq_getElem (hlen ▸ (List.getElem?_eq_some_iff.1 hf).1)⟩
    obtain ⟨v, hv, hvb⟩ := hmem i le_rfl f b hf hb (hlast b hb)
    have htightest := Constraint.mem_tightest_of_merge (h.wellPosed hmerge) hfixed hmerge hreach hf
      hb hv hvb
    obtain ⟨c, hc, hname, hnot⟩ := hunmet v hv
    exact hnot (Constraint.mem_tightest_iff.1 htightest c hc hname)

/-- No grade is below the least one. -/
theorem rejected_or_not_admits_belowLeast :
    ∃ s, ofConstraints .checked "rank" Sample.ranks Sample.belowLeast = .ok s ∧
      ∀ key : Key, (∀ p ∈ Sample.ranks.zip key.values, p.2 ∈ Sample.vocabularies p.1.name) →
        ¬s.Admits key := by
  have hmerge : Constraint.merge "rank" Sample.ranks Sample.belowLeast =
      .ok [⟨.unbounded, .excluded ['a']⟩, ⟨.included ['b'], .unbounded⟩] := rfl
  have hunmet : ∀ v ∈ Sample.vocabularies "first",
      ∃ c ∈ Sample.belowLeast, c.field = "first" ∧ ¬c.relation.Holds v c.literal :=
    show ∀ v ∈ Sample.grades, _ by decide
  have hpinned : ∀ bounds, Constraint.merge "rank" Sample.ranks Sample.belowLeast = .ok bounds →
      (∀ b, bounds[0]? = some b → b.pinned = b) ∧
      ∀ j < 0, ∀ g b, Sample.ranks[j]? = some g → bounds[j]? = some b →
        b.pinned = b ∨ b.Reaches (Sample.vocabularies g.name) := by
    intro bounds hbounds
    obtain rfl := Except.ok.inj (hmerge.symm.trans hbounds)
    refine ⟨?_, nofun⟩
    rintro _ ⟨⟩
    rfl
  have hbuild : ofConstraints .checked "rank" Sample.ranks Sample.belowLeast = .ok _ :=
    ofConstraints_eq_ok_iff.2 ⟨_, by decide, hmerge, rfl⟩
  rcases rejected_or_not_admits ⟨by decide, by decide, Sample.steps_ranks, by decide⟩ (by decide)
    rfl hunmet hpinned with ⟨defect, herror⟩ | ⟨s, hs, hnot⟩
  · cases hbuild.symm.trans herror
  · exact ⟨s, hs, fun key ↦ hnot key (List.length_pos_iff.2 key.values_ne_nil)⟩

/-- Pinning may hide a contradiction. Behind a field without an upper bound the strict upper term at
`b` is not stepped, so it meets the lower term, which was stepped to `b`, and the field is pinned to
that grade. -/
theorem exists_admits_of_contradiction :
    Constraint.Lawful Sample.vocabularies Sample.ranks Sample.gap ∧
    (∀ f ∈ Sample.ranks, f.isFixed) ∧
    (∀ v ∈ Sample.vocabularies "second",
      ∃ c ∈ Sample.gap, c.field = "second" ∧ ¬c.relation.Holds v c.literal) ∧
    (tightest Sample.gap "second").lower.value? = some ['a'] ∧
    (tightest Sample.gap "second").upper.value? = some ['b'] ∧
    ∃ s, ofConstraints .checked "rank" Sample.ranks Sample.gap = .ok s ∧
      (∀ p ∈ Sample.ranks.zip (Key.ofValues [['a'], ['b']]).values,
        p.2 ∈ Sample.vocabularies p.1.name) ∧
      s.Admits (.ofValues [['a'], ['b']]) := by
  have hlawful : Constraint.Lawful Sample.vocabularies Sample.ranks Sample.gap :=
    ⟨by decide, by decide, Sample.steps_ranks, by decide⟩
  have hunmet : ∀ v ∈ Sample.vocabularies "second",
      ∃ c ∈ Sample.gap, c.field = "second" ∧ ¬c.relation.Holds v c.literal :=
    show ∀ v ∈ Sample.grades, _ by decide
  exact ⟨hlawful, by decide, hunmet, by decide, by decide, _,
    ofConstraints_eq_ok_iff.2 ⟨_, by decide, rfl, rfl⟩, by decide, by decide⟩

end Selection

end CompositeScan
