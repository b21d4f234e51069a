import CompositeScan.Proofs.Domain.Listed
import CompositeScan.Proofs.Selection.Merge
import CompositeScan.Proofs.Selection.Range

/-!
# Building selections

A selection is built from bounds or from constraints (`Selection.Built`). From constraints that some
values meet, a selection is always built (`Selection.exists_ofConstraints`): on the way to the
columns the terms of a field only widen (`Field.Widens`), so the values that meet the constraints
are within the columns, no field is crossed, and the range, which holds their key, has its ends in
order.

## What widens a term

Three things happen to the terms of a field: a strict term is stepped or given up, a field whose
ends meet is pinned, and what is left of a chain is closed. The first keeps the values of the
vocabulary or adds to them; the other two loosen a bound at the value where it stands. A field that
widens keeps its lower end at a value of the vocabulary, which makes its column lawful
(`Selection.lawful_columnsOf`).

## Fields of fixed length

If all fields are of fixed length nothing widens at all. Each term is kept, since each lets in a
value and so has a neighbour to be stepped to; chains come out of merging closed; and a bound that
is not crossed is not pinned to another one. So the columns let in just what the constraints do, and
the keys admitted are those that meet them (`Selection.exists_admits_iff_met`).
-/

namespace CompositeScan

open Constraint (WellPosed Met Solves tightest)

/-! ## Terms only widen -/

/-- What may have become of the terms of a field by the time they bound a column: no value is lost,
and the bound is at values of the vocabulary. -/
structure Field.Widens (V : Vocabulary) (f : Field) (terms bound : Interval Text) : Prop where
  /-- No value the field takes is lost. -/
  mem : ∀ v, f.Takes V v → v ∈ terms → v ∈ bound
  /-- The lower bound is at a value of the vocabulary. -/
  spells_lower : f.Spells V bound.lower
  /-- So is the upper bound. -/
  spells_upper : f.Spells V bound.upper

theorem Field.Spells.of_loosens {V : Vocabulary} {f : Field} {b b' : Bound Text}
    (h : f.Spells V b) (hloosens : b.Loosens b') : f.Spells V b' := fun d hd lit hlit ↦
  h d hd lit (hloosens.value?_eq ▸ hlit)

theorem Field.widens_of_merges {V : Vocabulary} {f : Field} {terms b b' : Interval Text}
    (hf : f.Steps V) (hterms : f.Spells V terms.lower ∧ f.Spells V terms.upper)
    (hmerges : f.Merges .lower terms.lower b.lower ∧ f.Merges .upper terms.upper b.upper)
    (hloosens : b.Loosens b') : f.Widens V terms b' where
  mem _ hv hmem := hloosens.mem
    ⟨hmerges.1.admits hf hterms.1 hv hmem.1, hmerges.2.admits hf hterms.2 hv hmem.2⟩
  spells_lower := (hmerges.1.spells hf hterms.1).of_loosens hloosens.lower
  spells_upper := (hmerges.2.spells hf hterms.2).of_loosens hloosens.upper

namespace Selection

variable {mode : LegacyKeys} {attr : String} {fields : List Field} {bounds : List (Interval Text)}
  {constraints : List Constraint} {s : Selection}

theorem ofBounds_eq_ok_iff :
    ofBounds attr fields bounds = .ok s ↔ ∃ h, s = ⟨attr, fields, bounds, none, h⟩ := by
  rw [ofBounds]
  split
  · next h =>
    rw [Except.ok.injEq]
    exact ⟨fun hs ↦ ⟨h, hs.symm⟩, fun ⟨_, hs⟩ ↦ hs.symm⟩
  · next defect h =>
    refine iff_of_false nofun fun ⟨h', _⟩ ↦ ?_
    rw [h] at h'
    cases h'

/-- The value from which on keys of one value are admitted. -/
def legacyOf (mode : LegacyKeys) (fields : List Field) (constraints : List Constraint) :
    Option Text :=
  match mode with
  | .checked => none
  | .admitted => (Constraint.terms constraints fields).head?.bind (·.lower.value?)

theorem ofConstraints_eq_ok_iff :
    ofConstraints mode attr fields constraints = .ok s ↔
      ∃ bounds h, Constraint.merge attr fields constraints = .ok bounds ∧
        s = ⟨attr, fields, bounds, legacyOf mode fields constraints, h⟩ := by
  simp only [ofConstraints, bind_eq_ok_iff, ofBounds_eq_ok_iff]
  constructor
  · rintro ⟨bounds, hmerge, s', ⟨h, rfl⟩, hs⟩
    refine ⟨bounds, h, hmerge, ?_⟩
    cases mode <;> exact (Except.ok.inj hs).symm
  · rintro ⟨bounds, h, hmerge, rfl⟩
    refine ⟨bounds, hmerge, _, ⟨h, rfl⟩, ?_⟩
    cases mode <;> rfl

/-- The selection was built from bounds or from constraints. -/
inductive Built (s : Selection) : Prop where
  /-- From bounds. -/
  | ofBounds {attr : String} {fields : List Field} {bounds : List (Interval Text)}
    (h : Selection.ofBounds attr fields bounds = .ok s)
  /-- From constraints. -/
  | ofConstraints {mode : LegacyKeys} {attr : String} {fields : List Field}
    {constraints : List Constraint}
    (h : Selection.ofConstraints mode attr fields constraints = .ok s)

theorem Built.legacyAligned (h : s.Built) : s.LegacyAligned := by
  cases h with
  | ofBounds h =>
    obtain ⟨_, rfl⟩ := ofBounds_eq_ok_iff.1 h
    exact nofun
  | @ofConstraints mode attr fields constraints h =>
    obtain ⟨bounds, _, hmerge, rfl⟩ := ofConstraints_eq_ok_iff.1 h
    intro v hv
    cases mode with
    | checked => cases hv
    | admitted =>
      cases fields with
      | nil => cases hv
      | cons f fields =>
        obtain ⟨b, hb, hkeeps, -⟩ := Constraint.keeps_head_of_merge hmerge
        obtain ⟨x, hx, hlen⟩ := hkeeps.exists_value? hv
        exact ⟨b, hb, x, hx, hlen⟩

variable {V : Vocabularies} {values : List Text}

theorem Built.lawfulColumns (h : s.Built) (hlaw : LawfulBounds V s.fields s.bounds)
    (hstarts : LawfulStarts V s.fields s.bounds) : s.LawfulColumns V :=
  lawfulColumns_of_lawful (fun _ hc ↦ lawful_of_mem_columns hlaw hstarts hc) h.legacyAligned

/-! ## Constraints that some values meet -/

theorem widens_columnsOf (h : WellPosed V fields constraints)
    (hmerge : Constraint.merge attr fields constraints = .ok bounds) :
    List.Forall₂ (fun f c ↦ c.field = f ∧
      f.Widens (V f.name) (tightest constraints f.name) c.bound) fields
      (columnsOf fields bounds) := by
  have hmerges := forall₂_and_mem (Constraint.merges_of_merge h.nodup hmerge)
  have hwidens : List.Forall₂ (fun f b ↦ f.Widens (V f.name) (tightest constraints f.name) b)
      fields (Interval.effective bounds) := by
    refine forall₂_comp (fun f b b' hb hloosens ↦ ?_) hmerges (Interval.effective_loosens bounds)
    exact Field.widens_of_merges (h.steps f hb.1) (h.spells hb.1) hb.2 hloosens
  exact forall₂_zipWith (fun f g b hg hb ↦ ⟨hg.symm, hb⟩)
    (List.forall₂_same.2 fun f _ ↦ rfl) hwidens

/-- Values that the fields take and that meet the constraints are within the columns. -/
theorem aligned_columnsOf (h : WellPosed V fields constraints)
    (hmerge : Constraint.merge attr fields constraints = .ok bounds)
    (hvalues : Solves V fields constraints values) :
    List.Forall₂ Column.Aligned (columnsOf fields bounds) values := by
  refine forall₂_comp (fun c f v hc hv ↦ ?_) (widens_columnsOf h hmerge).flip hvalues
  obtain ⟨rfl, hwidens⟩ := hc
  obtain ⟨htakes, hmem⟩ := hv
  have hlen : ∀ {b : Bound Text}, c.field.Spells (V c.field.name) b → c.field.isFixed →
      ∀ x, b.value? = some x → x.length = v.length := by
    intro b hspells hfixed x hx
    obtain ⟨d, hd⟩ := Option.isSome_iff_exists.1 hfixed
    exact Vocabulary.length_eq_of_mem (hspells d hd x hx) ((Field.takes_iff_of_domain hd).1 htakes)
  exact ⟨hwidens.mem v htakes hmem, hlen hwidens.spells_lower, hlen hwidens.spells_upper⟩

theorem lawful_columnsOf (h : WellPosed V fields constraints)
    (hmerge : Constraint.merge attr fields constraints = .ok bounds) :
    ∀ c ∈ columnsOf fields bounds, c.Lawful (V c.field.name) := by
  intro c hc
  obtain ⟨f, hf, rfl, hwidens⟩ := exists_of_forall₂_mem (widens_columnsOf h hmerge) hc
  refine ⟨fun d hd lo hlo ↦ ?_, fun d hd v hv ↦ (h.steps _ hf d hd v hv).1, fun d hd lo hlo ↦ ?_⟩
  · exact Vocabulary.length_eq _ (hwidens.spells_lower d hd lo hlo)
  · have hmem := hwidens.spells_lower d hd lo (by rw [hlo]; rfl)
    exact (h.steps _ hf d hd lo hmem).1

theorem exists_defect?_eq_none (h : WellPosed V fields constraints)
    (hvalues : Solves V fields constraints values) (attr : String) :
    ∃ bounds, Constraint.merge attr fields constraints = .ok bounds ∧
      defect? fields bounds = none := by
  obtain ⟨bounds, hmerge⟩ := h.exists_merge attr
  have hlen : fields.length = bounds.length := (Constraint.merges_of_merge h.nodup hmerge).length_eq
  have haligned := aligned_columnsOf h hmerge hvalues
  have hne : values ≠ [] := by
    rintro rfl
    exact h.ne_nil (List.forall₂_nil_right_iff.1 hvalues)
  refine ⟨bounds, hmerge, defect?_eq_none_iff.2 ⟨h.ne_nil, hlen, h.nodup, fun c hc ↦ ?_, ?_⟩⟩
  · obtain ⟨v, -, hv⟩ := exists_of_forall₂_mem haligned.flip hc
    exact Interval.not_crossed_of_mem hv.mem
  · have hmem := Column.mem_range haligned [] (by simpa using hne)
    exact fun lower upper hlower hupper ↦ Interval.le_of_mem hmem hlower hupper

/-- **Constraints that some values meet select keys.** -/
theorem exists_ofConstraints (h : WellPosed V fields constraints)
    (hvalues : Solves V fields constraints values) (mode : LegacyKeys) (attr : String) :
    ∃ s, ofConstraints mode attr fields constraints = .ok s := by
  obtain ⟨bounds, hmerge, hsound⟩ := exists_defect?_eq_none h hvalues attr
  exact ⟨_, ofConstraints_eq_ok_iff.2 ⟨bounds, hsound, hmerge, rfl⟩⟩

end Selection

/-! ## Fields of fixed length -/

namespace Interval

theorem map_lower_zipWith_mk {α : Type} {as bs : List (Bound α)} (h : as.length = bs.length) :
    (List.zipWith mk as bs).map lower = as := by
  rw [← List.map_uncurry_zip_eq_zipWith, List.map_map]
  exact List.map_fst_zip h.le

theorem map_upper_zipWith_mk {α : Type} {as bs : List (Bound α)} (h : as.length = bs.length) :
    (List.zipWith mk as bs).map upper = bs := by
  rw [← List.map_uncurry_zip_eq_zipWith, List.map_map]
  exact List.map_snd_zip h.ge

/-- Ends that meet in one value with one of them leaving it out are crossed, so a bound that is not
crossed is not pinned to another one. -/
theorem pinned_eq_of_not_crossed {b : Interval Text} (h : ¬b.Crossed) : b.pinned = b := by
  obtain ⟨lower, upper⟩ := b
  simp only [pinned]
  split
  · next lo hi => exact if_neg fun heq ↦ h (le_of_eq (α := Text) heq.symm)
  · next lo hi => exact if_neg fun heq ↦ h (le_of_eq (α := Text) heq.symm)
  · rfl

/-- Pinning is all that happens to bounds whose chains are closed. -/
theorem effective_eq_map_pinned {bounds : List (Interval Text)}
    (hlower : Bound.closeChain (bounds.map lower) = bounds.map lower)
    (hupper : Bound.closeChain (bounds.map upper) = bounds.map upper) :
    effective bounds = bounds.map pinned := by
  -- The chain of one side, with `g` for the end of a bound on the side.
  have hpinned : ∀ g : Interval Text → Bound Text,
      (∀ b : Interval Text, (g b).Loosens (g b.pinned)) →
      Bound.closeChain (bounds.map g) = bounds.map g →
      Bound.closeChain ((bounds.map pinned).map g) = (bounds.map pinned).map g := by
    intro g hloosens hclosed
    refine Bound.closeChain_of_loosens hclosed ?_
    rw [List.map_map, List.forall₂_map_left_iff, List.forall₂_map_right_iff]
    exact List.forall₂_same.2 fun b _ ↦ hloosens b
  simp only [effective, hpinned lower (fun b ↦ b.pinned_loosens.lower) hlower,
    hpinned upper (fun b ↦ b.pinned_loosens.upper) hupper]
  rw [List.zipWith_map, List.zipWith_self, List.map_id'' fun _ ↦ rfl]

end Interval

namespace Selection

variable {attr : String} {fields : List Field} {bounds : List (Interval Text)}
  {constraints : List Constraint} {V : Vocabularies}

theorem sides_of_merge (hmerge : Constraint.merge attr fields constraints = .ok bounds) :
    Side.lower.merge attr fields ((Constraint.terms constraints fields).map Interval.lower) =
      .ok (bounds.map Interval.lower) ∧
    Side.upper.merge attr fields ((Constraint.terms constraints fields).map Interval.upper) =
      .ok (bounds.map Interval.upper) := by
  obtain ⟨-, lowers, uppers, hlowers, huppers, rfl⟩ := Constraint.merge_eq_ok_iff.1 hmerge
  have hlen : lowers.length = uppers.length := by
    rw [← (Side.merges_of_merge hlowers).length_eq, ← (Side.merges_of_merge huppers).length_eq]
    simp
  rw [Interval.map_lower_zipWith_mk hlen, Interval.map_upper_zipWith_mk hlen]
  exact ⟨hlowers, huppers⟩

theorem effective_of_merge (hmerge : Constraint.merge attr fields constraints = .ok bounds) :
    Interval.effective bounds = bounds.map Interval.pinned := by
  obtain ⟨hlower, hupper⟩ := sides_of_merge hmerge
  exact Interval.effective_eq_map_pinned (Side.closeChain_of_merge hlower)
    (Side.closeChain_of_merge hupper)

theorem keeps_of_merge (h : WellPosed V fields constraints) (hfixed : ∀ f ∈ fields, f.isFixed)
    (hmet : ∀ f ∈ fields, ∃ v ∈ V f.name, v ∈ tightest constraints f.name)
    (hmerge : Constraint.merge attr fields constraints = .ok bounds) :
    List.Forall₂ (fun f b ↦ f.Keeps .lower (tightest constraints f.name).lower b.lower ∧
      f.Keeps .upper (tightest constraints f.name).upper b.upper) fields bounds := by
  obtain ⟨-, lowers, uppers, hlowers, huppers, rfl⟩ := Constraint.merge_eq_ok_iff.1 hmerge
  -- What both sides ask for, with `g` for the end of a term on the side.
  have hside : ∀ (side : Side) (g : Interval Text → Bound Text),
      (∀ f ∈ fields, f.Spells (V f.name) (g (tightest constraints f.name))) →
      (∀ t v, v ∈ t → side.Admits (g t) v) →
      ∀ x ∈ fields.zip ((Constraint.terms constraints fields).map g),
        x.1.Steps (V x.1.name) ∧ x.1.Spells (V x.1.name) x.2 ∧ x.1.isFixed ∧
          ∃ w ∈ V x.1.name, side.Admits x.2 w := by
    intro side g hspells hadmits x hx
    rw [Constraint.zip_map_terms h.nodup] at hx
    obtain ⟨f, hf, rfl⟩ := List.mem_map.1 hx
    obtain ⟨v, hv, hmem⟩ := hmet f hf
    exact ⟨h.steps f hf, hspells f hf, hfixed f hf, v, hv, hadmits _ v hmem⟩
  have hlower := Side.keeps_of_merge
    (hside .lower Interval.lower (fun f hf ↦ (h.spells hf).1) fun t v hv ↦ hv.1) hlowers
  have hupper := Side.keeps_of_merge
    (hside .upper Interval.upper (fun f hf ↦ (h.spells hf).2) fun t v hv ↦ hv.2) huppers
  rw [Constraint.zip_map_terms h.nodup, List.forall₂_map_left_iff] at hlower hupper
  exact forall₂_zipWith (fun f lo hi hlo hhi ↦ ⟨hlo, hhi⟩) hlower hupper

theorem mem_columnsOf_iff (h : WellPosed V fields constraints) (hfixed : ∀ f ∈ fields, f.isFixed)
    (hmet : ∀ f ∈ fields, ∃ v ∈ V f.name, v ∈ tightest constraints f.name)
    (hmerge : Constraint.merge attr fields constraints = .ok bounds) :
    List.Forall₂ (fun f c ↦ ∀ v ∈ V f.name, v ∈ c.bound ↔ v ∈ tightest constraints f.name)
      fields (columnsOf fields bounds) := by
  have hkeeps := keeps_of_merge h hfixed hmet hmerge
  have hiff : List.Forall₂ (fun f b ↦ f ∈ fields ∧
      ∀ v ∈ V f.name, v ∈ b ↔ v ∈ tightest constraints f.name) fields bounds := by
    refine (forall₂_and_mem hkeeps).imp fun f b hb ↦ ⟨hb.1, fun v hv ↦ ?_⟩
    obtain ⟨d, hd⟩ := Option.isSome_iff_exists.1 (hfixed f hb.1)
    have htakes := (Field.takes_iff_of_domain hd).2 hv
    obtain ⟨hspells, hspells'⟩ := h.spells hb.1
    exact and_congr (hb.2.1.admits_iff (h.steps f hb.1) hspells htakes)
      (hb.2.2.admits_iff (h.steps f hb.1) hspells' htakes)
  have heff : Interval.effective bounds = bounds := by
    rw [effective_of_merge hmerge]
    refine (List.map_congr_left fun b hb ↦ ?_).trans (List.map_id bounds)
    obtain ⟨f, -, hf, hb⟩ := exists_of_forall₂_mem hiff hb
    obtain ⟨v, hv, hmem⟩ := hmet f hf
    have hnot : ¬b.Crossed := Interval.not_crossed_of_mem ((hb v hv).2 hmem)
    exact Interval.pinned_eq_of_not_crossed hnot
  rw [columnsOf, heff]
  exact forall₂_zipWith (fun f g b _ hb ↦ hb.2) (List.forall₂_same.2 fun f hf ↦ hf) hiff

/-- **Constraints that can be met are decided exactly** if all fields are of fixed length. Some
values of the vocabularies meet the constraints, and so a selection is built; it admits a key of
values of the vocabularies if and only if every constraint on a field the key carries holds. -/
theorem exists_admits_iff_met (h : WellPosed V fields constraints)
    (hfixed : ∀ f ∈ fields, f.isFixed)
    (hmet : ∃ values, values.length = fields.length ∧ (∀ p ∈ fields.zip values, p.2 ∈ V p.1.name) ∧
      Met constraints fields values) (attr : String) :
    ∃ s, ofConstraints .checked attr fields constraints = .ok s ∧
      ∀ key : Key, (∀ p ∈ fields.zip key.values, p.2 ∈ V p.1.name) →
        (s.Admits key ↔ Met constraints fields key.values) := by
  obtain ⟨values, hlen, hmem, hmet⟩ := hmet
  rw [Constraint.met_iff] at hmet
  have hvalues : List.Forall₂ (fun f v ↦ f ∈ fields ∧ v ∈ V f.name ∧
      v ∈ tightest constraints f.name) fields values :=
    List.forall₂_iff_zip.2
      ⟨hlen.symm, fun hp ↦ ⟨(List.of_mem_zip hp).1, hmem _ hp, hmet _ hp⟩⟩
  have hexists : ∀ f ∈ fields, ∃ v ∈ V f.name, v ∈ tightest constraints f.name := by
    intro f hf
    obtain ⟨v, -, hv⟩ := exists_of_forall₂_mem hvalues.flip hf
    exact ⟨v, hv.2⟩
  have hsolves : Solves V fields constraints values := by
    refine hvalues.imp fun f v hv ↦ ?_
    obtain ⟨d, hd⟩ := Option.isSome_iff_exists.1 (hfixed f hv.1)
    exact ⟨(Field.takes_iff_of_domain hd).2 hv.2.1, hv.2.2⟩
  obtain ⟨bounds, hmerge, hsound⟩ := exists_defect?_eq_none h hsolves attr
  refine ⟨_, ofConstraints_eq_ok_iff.2 ⟨bounds, hsound, hmerge, rfl⟩, fun key hkey ↦ ?_⟩
  rw [admits_iff, columnsFor_of_legacy_eq_none rfl, Constraint.met_iff]
  have hiff := forall_mem_zip_iff_of_forall₂ (P := fun f v ↦ v ∈ V f.name)
    (Q := fun f v ↦ v ∈ tightest constraints f.name) (S := fun (c : Column) v ↦ v ∈ c.bound)
    (fun f c v hc hv ↦ (hc v hv).symm) (mem_columnsOf_iff h hfixed hexists hmerge) hkey
  exact hiff.symm

theorem exists_admits_iff_met_grades :
    ∃ s, ofConstraints .checked "rank" [Sample.grade "first", Sample.grade "second"]
        [⟨"first", .gt, ['a']⟩, ⟨"second", .le, ['b']⟩] = .ok s ∧
      ∀ key : Key,
        (∀ p ∈ [Sample.grade "first", Sample.grade "second"].zip key.values,
          p.2 ∈ Sample.vocabularies p.1.name) →
        (s.Admits key ↔ Met [⟨"first", .gt, ['a']⟩, ⟨"second", .le, ['b']⟩]
          [Sample.grade "first", Sample.grade "second"] key.values) := by
  refine exists_admits_iff_met ⟨⟨by decide, by decide, ?_, by decide⟩, by decide⟩ (by decide)
    ⟨[['d'], ['a']], rfl, by decide, by decide⟩ "rank"
  exact List.forall_mem_cons.2 ⟨Sample.steps_grade _, List.forall_mem_singleton.2
    (Sample.steps_grade _)⟩

end Selection

end CompositeScan
