import CompositeScan.Proofs.Interval
import CompositeScan.Proofs.Lists
import CompositeScan.Proofs.Vocabulary
import CompositeScan.Selection.Merge

/-!
# The columns of a selection

A selection compares the values of a key with its columns: its fields with their effective bounds.
This module relates the columns to what the selection was made from. Effective bounds loosen the
bounds given, each at the same value (`Interval.effective_loosens`), so a selection made from lawful
bounds has lawful columns (`Selection.lawful_of_mem_columns`).

## The first column

A selection that admits legacy keys compares a key of one value with a first column that is widened
down to the legacy value, and a key of more values with the columns as they are. The wide columns
are those it may compare a key with in either case: whatever is known of them holds of the values of
every admitted key, whatever their number (`Selection.mem_of_admits`), and a key within the columns
is admitted (`Selection.admits_of_mem`). Between the two there is a gap, the keys of more values
whose first one is before the bound of the column, and most proofs need only one of the directions.

Widening keeps columns lawful because the legacy value is as long as the values at which the first
column may start (`Selection.LegacyAligned`); with that the wide columns stand in for the columns
everywhere.
-/

namespace CompositeScan

/-! ## Effective bounds are looser -/

theorem Bound.closeChain_loosens {α : Type} (bs : List (Bound α)) :
    List.Forall₂ Loosens bs (closeChain bs) := by
  fun_induction closeChain bs with
  | case1 => exact .nil
  | case2 b => exact .cons (.refl b) .nil
  | case3 b next bs h ih => exact .cons (.inr rfl) ih
  | case4 b next bs h => exact List.forall₂_same.2 fun b _ ↦ .refl b

namespace Interval

theorem pinned_loosens (b : Interval Text) : b.Loosens b.pinned := by
  obtain ⟨lower, upper⟩ := b
  simp only [pinned]
  split
  · split
    · next lo hi h => exact ⟨.refl _, .inr (congrArg Bound.included h)⟩
    · exact ⟨.refl _, .refl _⟩
  · split
    · next lo hi h => exact ⟨.inr rfl, .inl (congrArg Bound.included h)⟩
    · exact ⟨.refl _, .refl _⟩
  · exact ⟨.refl _, .refl _⟩

theorem effective_loosens (bounds : List (Interval Text)) :
    List.Forall₂ Loosens bounds (effective bounds) := by
  have hlower := Bound.closeChain_loosens ((bounds.map pinned).map lower)
  have hupper := Bound.closeChain_loosens ((bounds.map pinned).map upper)
  rw [List.map_map, List.forall₂_map_left_iff] at hlower hupper
  simp only [effective, List.map_map]
  refine forall₂_zipWith (fun b lo hi hlo hhi ↦ ?_) hlower hupper
  exact b.pinned_loosens.trans ⟨hlo, hhi⟩

end Interval

namespace Selection

/-! ## Sound fields and bounds -/

theorem repeatedName?_eq_none_iff {seen names : List String} :
    repeatedName? seen names = none ↔ names.Nodup ∧ ∀ name ∈ names, name ∉ seen := by
  induction names generalizing seen with
  | nil => simp [repeatedName?]
  | cons name names ih =>
    rw [repeatedName?]
    split
    · next h => simp [h]
    · next h =>
      rw [ih, List.nodup_cons, List.forall_mem_cons]
      constructor
      · rintro ⟨hnodup, hseen⟩
        refine ⟨⟨fun hmem ↦ hseen name hmem (by simp), hnodup⟩, h, fun n hn hs ↦ ?_⟩
        exact hseen n hn (List.mem_cons_of_mem name hs)
      · rintro ⟨⟨hname, hnodup⟩, -, hseen⟩
        refine ⟨hnodup, fun n hn hmem ↦ ?_⟩
        rcases List.mem_cons.1 hmem with rfl | hs
        · exact hname hn
        · exact hseen n hn hs

/-- The ends of the range spanned by columns are in order. -/
def InOrder (range : KeyRange) : Prop :=
  ∀ lower upper, range.lower.value? = some lower → range.upper.value? = some upper → lower ≤ upper

theorem defect?_eq_none_iff {fields : List Field} {bounds : List (Interval Text)} :
    defect? fields bounds = none ↔
      fields ≠ [] ∧ fields.length = bounds.length ∧ (fields.map Field.name).Nodup ∧
        (∀ c ∈ columnsOf fields bounds, ¬c.bound.Crossed) ∧
        InOrder (Column.range (columnsOf fields bounds)) := by
  have hnames : repeatedName? [] (fields.map Field.name) = none ↔
      (fields.map Field.name).Nodup := by
    simp [repeatedName?_eq_none_iff]
  -- The defects are looked for one after the other, so what was not found goes into the next case.
  rw [defect?, ← hnames]
  split
  · next hnil => simp [hnil]
  · next hnil =>
    split
    · next hlen => simp [hlen]
    · next hlen =>
      rw [not_not] at hlen
      split
      · next name hname => simp [hname]
      · next hname =>
        split
        · next c hc =>
          have hcrossed := List.find?_some hc
          have hmem := List.mem_of_find?_eq_some hc
          simp only [decide_eq_true_eq] at hcrossed
          exact iff_of_false (Option.some_ne_none _) fun h ↦ h.2.2.2.1 c hmem hcrossed
        · next hnone =>
          simp only [List.find?_eq_none, decide_eq_true_eq] at hnone
          simp only [hnil, hlen, hname, ne_eq, not_false_eq_true, true_and]
          rw [and_iff_right hnone, InOrder]
          split
          · next lower upper hlower hupper => simp [hlower, hupper]
          · next hopen =>
            exact iff_of_true rfl fun lower upper hlower hupper ↦
              (hopen lower upper hlower hupper).elim

/-! ## The columns and the fields -/

section Columns

variable {fields : List Field} {bounds : List (Interval Text)} {c : Column}

theorem map_field_columnsOf (h : fields.length = bounds.length) :
    (columnsOf fields bounds).map Column.field = fields := by
  rw [columnsOf, ← List.map_uncurry_zip_eq_zipWith, List.map_map]
  exact List.map_fst_zip (by simp [h])

theorem map_bound_columnsOf (h : fields.length = bounds.length) :
    (columnsOf fields bounds).map Column.bound = Interval.effective bounds := by
  rw [columnsOf, ← List.map_uncurry_zip_eq_zipWith, List.map_map]
  exact List.map_snd_zip (by simp [h])

theorem forall_mem_columnsOf_zip_iff (h : fields.length = bounds.length) {values : List Text} :
    (∀ p ∈ (columnsOf fields bounds).zip values, p.2 ∈ p.1.bound) ↔
      ∀ p ∈ (Interval.effective bounds).zip values, p.2 ∈ p.1 := by
  rw [← map_bound_columnsOf h, List.zip_map_left, List.forall_mem_map]
  rfl

theorem forall₂_columnsOf (fields : List Field) (bounds : List (Interval Text)) :
    List.Forall₂ (fun p c ↦ c.field = p.1 ∧ p.2.Loosens c.bound) (fields.zip bounds)
      (columnsOf fields bounds) := by
  have hloosens := Interval.effective_loosens bounds
  rw [columnsOf]
  generalize Interval.effective bounds = eff at hloosens
  induction hloosens generalizing fields with
  | nil =>
    rw [List.zip_nil_right, List.zipWith_nil_right]
    exact .nil
  | cons hb _ ih =>
    cases fields with
    | nil => exact .nil
    | cons f fields => exact .cons ⟨rfl, hb⟩ (ih fields)

theorem exists_bound_of_mem_columnsOf (h : c ∈ columnsOf fields bounds) :
    ∃ b, (c.field, b) ∈ fields.zip bounds ∧ b.Loosens c.bound := by
  obtain ⟨⟨f, b⟩, hmem, rfl, hb⟩ := exists_of_forall₂_mem (forall₂_columnsOf fields bounds) h
  exact ⟨b, hmem, hb⟩

end Columns

variable {s : Selection} {c : Column}

theorem length_eq (s : Selection) : s.fields.length = s.bounds.length :=
  (defect?_eq_none_iff.1 s.sound).2.1

theorem map_field_columns (s : Selection) : s.columns.map Column.field = s.fields :=
  map_field_columnsOf s.length_eq

theorem loosens_of_head?_columns (hc : s.columns.head? = some c) {b : Interval Text}
    (hb : s.bounds.head? = some b) : b.Loosens c.bound := by
  have hloosens := Interval.effective_loosens s.bounds
  rw [← map_bound_columnsOf s.length_eq] at hloosens
  change List.Forall₂ _ _ (s.columns.map _) at hloosens
  rw [List.forall₂_map_right_iff] at hloosens
  cases hbounds : s.bounds with
  | nil => simp [hbounds] at hb
  | cons b' bounds =>
    cases hcolumns : s.columns with
    | nil => simp [hcolumns] at hc
    | cons c' columns =>
      rw [hbounds, List.head?_cons, Option.some_inj] at hb
      rw [hcolumns, List.head?_cons, Option.some_inj] at hc
      rw [hbounds, hcolumns, hb, hc] at hloosens
      exact (List.forall₂_cons.1 hloosens).1

/-- The wide columns are the columns, but for the first one if it starts at the legacy value. -/
theorem mem_wideColumns (h : c ∈ s.wideColumns) :
    c ∈ s.columns ∨ ∃ first v, s.columns.head? = some first ∧ s.legacy = some v ∧
      c = { first with bound := first.bound.dropBefore v } := by
  rw [wideColumns] at h
  cases hcolumns : s.columns with
  | nil =>
    rw [hcolumns] at h
    cases h
  | cons first columns =>
    simp only [hcolumns, widenFirst] at h
    split at h
    · next v hv =>
      split at h
      · exact .inl h
      · rcases List.mem_cons.1 h with rfl | h
        · exact .inr ⟨first, v, rfl, hv, rfl⟩
        · exact .inl (List.mem_cons_of_mem first h)
    · exact .inl h

theorem map_field_widenFirst (legacy : Option Text) (columns : List Column) :
    (widenFirst legacy columns).map Column.field = columns.map Column.field := by
  cases columns with
  | nil => rfl
  | cons c columns =>
    simp only [widenFirst]
    split
    · split <;> rfl
    · rfl

theorem map_field_wideColumns (s : Selection) : s.wideColumns.map Column.field = s.fields := by
  rw [wideColumns, map_field_widenFirst, map_field_columns]

/-- What holds of the fields and the values of a key holds of the wide columns and the values. -/
theorem forall_mem_wideColumns_zip {P : Field → Text → Prop} {values : List Text}
    (h : ∀ p ∈ s.fields.zip values, P p.1 p.2) :
    ∀ p ∈ s.wideColumns.zip values, P p.1.field p.2 := by
  intro p hp
  refine h (p.1.field, p.2) ?_
  rw [← map_field_wideColumns, List.zip_map_left]
  exact List.mem_map_of_mem hp

/-! ## Widening the first column -/

/-- Bounds that let a key of one value in from the legacy value on let in what they did before. -/
theorem mem_of_mem_zip_widenFirst {legacy : Option Text} {columns : List Column}
    {values : List Text} (h : ∀ p ∈ columns.zip values, p.2 ∈ p.1.bound) :
    ∀ p ∈ (widenFirst legacy columns).zip values, p.2 ∈ p.1.bound := by
  cases columns with
  | nil => exact h
  | cons c columns =>
    simp only [widenFirst]
    split
    · next lo =>
      split
      · exact h
      · next hbelow =>
        cases values with
        | nil => exact nofun
        | cons v values =>
          obtain ⟨hv, hvalues⟩ := List.forall_mem_cons.1 h
          refine List.forall_mem_cons.2 ⟨⟨?_, hv.2⟩, hvalues⟩
          show lo ≤ v
          by_contra hlt
          exact hbelow (hv.1.mono (not_le.1 hlt).le)
    · exact h

theorem admits_iff {k : Key} :
    s.Admits k ↔ ∀ p ∈ (s.columnsFor k.values.length).zip k.values, p.2 ∈ p.1.bound := by
  rw [Admits, ← List.zip_swap, List.forall_mem_map]
  rfl

/-- The values of an admitted key are within the wide columns. -/
theorem mem_of_admits {k : Key} (h : s.Admits k) :
    ∀ p ∈ s.wideColumns.zip k.values, p.2 ∈ p.1.bound := by
  rw [admits_iff, columnsFor] at h
  split at h
  · exact h
  · exact mem_of_mem_zip_widenFirst h

theorem admits_of_mem {k : Key} (h : ∀ p ∈ s.columns.zip k.values, p.2 ∈ p.1.bound) :
    s.Admits k := by
  rw [admits_iff, columnsFor]
  split
  · exact mem_of_mem_zip_widenFirst h
  · exact h

theorem wideColumns_of_legacy_eq_none (h : s.legacy = none) : s.wideColumns = s.columns := by
  rw [wideColumns, h]
  cases s.columns <;> rfl

theorem columnsFor_of_legacy_eq_none (h : s.legacy = none) (count : ℕ) :
    s.columnsFor count = s.columns := by
  rw [columnsFor, wideColumns_of_legacy_eq_none h, ite_self]

/-! ## Lawful columns -/

/-- The legacy value is as long as the value at which the first bound starts. -/
def LegacyAligned (s : Selection) : Prop :=
  ∀ v, s.legacy = some v →
    ∃ b, s.bounds.head? = some b ∧ ∃ lo, b.lower.value? = some lo ∧ lo.length = v.length

variable {V : Vocabularies}

theorem lawful_of_mem_columns (hs : LawfulBounds V s.fields s.bounds)
    (hstarts : LawfulStarts V s.fields s.bounds) (hc : c ∈ s.columns) :
    c.Lawful (V c.field.name) := by
  obtain ⟨b, hb, hloosens⟩ := exists_bound_of_mem_columnsOf hc
  have hlower := hloosens.lower.value?_eq
  refine ⟨fun d hd lo hlo ↦ ?_, fun d hd v hv ↦ ?_, fun d hd lo hlo ↦ ?_⟩
  · exact (hs _ hb d hd).1 lo (.inl (hlower ▸ hlo))
  · exact (hs _ hb d hd).2 v (Vocabulary.length_eq _ hv) (Vocabulary.plain _ hv)
  · have hvalue : b.lower.value? = some lo := by rw [← hlower, hlo]; rfl
    rcases hstarts _ hb d hd lo (hloosens.lower.eq_of_excluded hlo) with hplain | hnext
    · exact (hs _ hb d hd).2 lo ((hs _ hb d hd).1 lo (.inl hvalue)) hplain
    · exact hnext

theorem LegacyAligned.length_eq (h : s.LegacyAligned) {first : Column}
    (hfirst : s.columns.head? = some first) {v : Text} (hv : s.legacy = some v) {n : ℕ}
    (hlength : ∀ lo, first.bound.lower.value? = some lo → lo.length = n) : v.length = n := by
  obtain ⟨b, hb, lo, hlo, hlen⟩ := h v hv
  rw [← hlen]
  exact hlength lo ((loosens_of_head?_columns hfirst hb).lower.value?_eq.trans hlo)

/-- The wide columns agree with the vocabularies. -/
def LawfulColumns (V : Vocabularies) (s : Selection) : Prop :=
  ∀ c ∈ s.wideColumns, c.Lawful (V c.field.name)

theorem lawfulColumns_of_lawful (hcolumns : ∀ c ∈ s.columns, c.Lawful (V c.field.name))
    (hlegacy : s.LegacyAligned) : s.LawfulColumns V := by
  intro c hc
  rcases mem_wideColumns hc with hc | ⟨first, v, hfirst, hv, rfl⟩
  · exact hcolumns c hc
  · obtain ⟨hlength, hnext, -⟩ := hcolumns first (List.mem_of_head? hfirst)
    refine ⟨fun d hd lo hlo ↦ ?_, hnext, nofun⟩
    cases hlo
    exact hlegacy.length_eq hfirst hv (hlength d hd)

/-- The lower bounds of the wide columns are comparable with the vocabularies, and can be moved
past. -/
def SparingColumns (V : Vocabularies) (s : Selection) : Prop :=
  ∀ c ∈ s.wideColumns, c.Sparing (V c.field.name)

theorem LawfulColumns.sparing (h : s.LawfulColumns V) : s.SparingColumns V :=
  fun c hc ↦ (h c hc).sparing

theorem sparingColumns_of_sparing (hcolumns : ∀ c ∈ s.columns, c.Sparing (V c.field.name))
    (hlegacy : s.LegacyAligned) : s.SparingColumns V := by
  intro c hc
  rcases mem_wideColumns hc with hc | ⟨first, v, hfirst, hv, rfl⟩
  · exact hcolumns c hc
  · obtain ⟨hlength, -⟩ := hcolumns first (List.mem_of_head? hfirst)
    refine ⟨fun d hd lo hlo ↦ ?_, nofun⟩
    cases hlo
    exact hlegacy.length_eq hfirst hv (hlength d hd)

end Selection

end CompositeScan
