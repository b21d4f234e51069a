import CompositeScan.Proofs.Scan.Iterate
import CompositeScan.Proofs.Selection.Build

/-!
# Keys of one value

An attribute that became composite may still hold keys of one value. A selection from constraints
can be asked to admit them from the first field's lower literal on, whatever it demands of the other
fields. This module compares such a selection with the one that is not asked
(`Selection.withoutLegacy`), which differs in the legacy value alone: both have the same columns.

What is added are keys of one value (`Selection.admits_iff_withoutLegacy`), and nothing is lost,
because the legacy value is not after the value at which the first column starts
(`Selection.LegacyFirst`): stepping a strict literal only moves it up. For the same reason the wider
range has every admitted key in it, so that a scan finds all of them (`AddsLegacy`).

## What a scan adds

That a key is admitted and in range does not say that a scan comes to it. The comparison of what the
two scans report is made by way of the full check: each reports what the check finds for its own
selection (`Scan.reports_seek_new`), what the check finds grows with the selection
(`Selection.entriesIn_sublist`), and it finds every admitted entry, since the wider range has them
all (`Selection.entriesIn_eq_full`).
-/

namespace CompositeScan

open Constraint (Lawful tightest)
open Search (Cause Conform)

theorem Field.Keeps.exists_le {V : Vocabulary} {f : Field} {term b : Bound Text} {t : Text}
    (h : f.Keeps .lower term b) (hf : f.Steps V) (hterm : f.Spells V term)
    (ht : term.value? = some t) : ∃ x, b.value? = some x ∧ t ≤ x := by
  cases h with
  | same => exact ⟨t, ht, le_refl t⟩
  | stepped hd hexcl hnext _ =>
    subst hexcl
    cases ht
    have hinward := hf.isInward hd (hterm _ hd _ rfl) .lower
    rw [hnext] at hinward
    exact ⟨_, rfl, (Vocabulary.IsNext.lt hinward).le⟩

namespace Selection

variable {V : Vocabularies} {attr : String} {fields : List Field} {constraints : List Constraint}
  {bounds : List (Interval Text)} {s : Selection} {c : Column} {columns : List Column} {t : Text}
  {key : Key}

/-- The selection that has every key checked against all columns. -/
def withoutLegacy (s : Selection) : Selection := { s with legacy := none }

/-- The first field's lower literal. -/
def firstLiteral (fields : List Field) (constraints : List Constraint) : Option Text :=
  fields.head?.bind fun f ↦ (tightest constraints f.name).lower.value?

theorem legacyOf_admitted :
    legacyOf .admitted fields constraints = firstLiteral fields constraints := by
  cases fields <;> rfl

/-! ## The keys added -/

theorem mem_widenFirst_iff {v : Text} :
    (∀ p ∈ (widenFirst (some t) (c :: columns)).zip [v], p.2 ∈ p.1.bound) ↔
      v ∈ c.bound ∨ t ≤ v ∧ c.bound.upper.Above v := by
  simp only [widenFirst]
  split
  · next hbelow =>
    rw [List.zip_cons_cons, List.zip_nil_right, List.forall_mem_singleton]
    refine ⟨.inl, ?_⟩
    rintro (h | ⟨hle, habove⟩)
    · exact h
    · exact ⟨hbelow.mono hle, habove⟩
  · next hbelow =>
    rw [List.zip_cons_cons, List.zip_nil_right, List.forall_mem_singleton]
    refine ⟨.inr, ?_⟩
    rintro (⟨hv, habove⟩ | h)
    · refine ⟨?_, habove⟩
      show t ≤ v
      by_contra hlt
      exact hbelow (hv.mono (not_le.1 hlt).le)
    · exact h

/-- **The keys added** have one value, from the legacy value on and not above the first column. -/
theorem admits_iff_withoutLegacy (hlegacy : s.legacy = some t) (hc : s.columns.head? = some c) :
    s.Admits key ↔ s.withoutLegacy.Admits key ∨
      ∃ v, key.values = [v] ∧ t ≤ v ∧ c.bound.upper.Above v := by
  obtain ⟨columns, hcolumns⟩ := List.head?_eq_some_iff.1 hc
  have hsame : s.withoutLegacy.columns = c :: columns := hcolumns
  rw [admits_iff, admits_iff, columnsFor_of_legacy_eq_none (s := s.withoutLegacy) rfl, columnsFor,
    wideColumns, hlegacy, hsame, hcolumns]
  by_cases hlen : key.values.length = 1
  · obtain ⟨v, hv⟩ := List.length_eq_one_iff.1 hlen
    rw [if_pos hlen, hv, mem_widenFirst_iff, List.zip_cons_cons, List.zip_nil_right,
      List.forall_mem_singleton]
    refine or_congr_right ⟨fun h ↦ ⟨v, rfl, h⟩, ?_⟩
    rintro ⟨_, hw, h⟩
    cases hw
    exact h
  · rw [if_neg hlen]
    refine (or_iff_left ?_).symm
    rintro ⟨v, hv, -⟩
    exact hlen (by rw [hv]; rfl)

/-! ## The wider range -/

/-- The legacy value is not after the value at which the first column starts. -/
def LegacyFirst (s : Selection) : Prop :=
  ∀ t, s.legacy = some t →
    ∃ c, s.columns.head? = some c ∧ ∃ x, c.bound.lower.value? = some x ∧ t ≤ x

theorem LegacyFirst.le_of_mem_range (h : s.LegacyFirst) (ht : s.legacy = some t)
    (hkey : key ∈ Column.range s.columns) : .ofValues [t] ≤ key := by
  obtain ⟨c, hc, x, hx, hle⟩ := h t ht
  obtain ⟨columns, hcolumns⟩ := List.head?_eq_some_iff.1 hc
  have hb : c.bound.lower.IsBounded := Option.isSome_iff_exists.2 ⟨x, hx⟩
  have hvalues : ∃ rest, Column.chainValues (Column.lowerChain s.columns) = x :: rest := by
    rw [hcolumns, Column.lowerChain_cons hb, Column.chainValues_cons hx]
    exact ⟨_, rfl⟩
  obtain ⟨rest, hvalues⟩ := hvalues
  have hstart := Column.ofValues_le_of_below_startOf (by rw [hvalues]; simp)
    (fun b ↦ Column.isBounded_of_mem_lowerChain) hkey.1
  rw [hvalues] at hstart
  exact (Key.ofValues_singleton_le_cons hle rest).trans hstart

/-- To admit legacy keys does not make the range lose a key. -/
theorem LegacyFirst.mem_range (h : s.LegacyFirst) (hkey : key ∈ s.withoutLegacy.range) :
    key ∈ s.range := by
  have hkey : key ∈ Column.range s.columns := hkey
  rw [range]
  split
  · next t ht => exact ⟨h.le_of_mem_range ht hkey, hkey.2⟩
  · exact hkey

theorem LegacyFirst.le_of_admits (h : s.LegacyFirst) (ht : s.legacy = some t)
    (hkey : s.Admits key) : .ofValues [t] ≤ key := by
  obtain ⟨c, hc, x, hx, hle⟩ := h t ht
  obtain ⟨columns, hcolumns⟩ := List.head?_eq_some_iff.1 hc
  obtain ⟨v, values, hvalues⟩ := List.exists_cons_of_ne_nil key.values_ne_nil
  have hmem := mem_of_admits hkey
  rw [wideColumns, hcolumns, ht, hvalues] at hmem
  have htv : t ≤ v := by
    simp only [widenFirst] at hmem
    split at hmem
    · exact hle.trans ((List.forall_mem_cons.1 hmem).1.1.le hx)
    · exact (List.forall_mem_cons.1 hmem).1.1
  rw [← key.ofValues_values, hvalues]
  exact Key.ofValues_singleton_le_cons htv values

theorem upperChain_widenFirst (legacy : Option Text) (columns : List Column) :
    Column.upperChain (widenFirst legacy columns) = Column.upperChain columns := by
  cases columns with
  | nil => rfl
  | cons c columns =>
    simp only [widenFirst]
    split
    · split <;> rfl
    · rfl

/-- The ends of the wide columns are at values of the vocabularies. -/
def Spells (V : Vocabularies) (s : Selection) : Prop :=
  ∀ c ∈ s.wideColumns, c.field.Spells (V c.field.name) c.bound.lower ∧
    c.field.Spells (V c.field.name) c.bound.upper

/-- **Every admitted key is in the wider range**, if its values are as long as those of the
vocabularies. -/
theorem LegacyFirst.mem_range_of_admits (h : s.LegacyFirst) (hspells : s.Spells V)
    (ht : s.legacy = some t)
    (hlen : ∀ p ∈ s.fields.zip key.values, p.1.isFixed → p.2.length = (V p.1.name).width)
    (hkey : s.Admits key) : key ∈ s.range := by
  have haligned : ∀ p ∈ s.wideColumns.zip key.values, p.1.Aligned p.2 := by
    intro p hp
    have hfield : (p.1.field, p.2) ∈ s.fields.zip key.values := by
      rw [← map_field_wideColumns, List.zip_map_left]
      exact List.mem_map_of_mem hp
    have hlength : ∀ {b : Bound Text}, p.1.field.Spells (V p.1.field.name) b →
        p.1.field.isFixed → ∀ x, b.value? = some x → x.length = p.2.length := by
      intro b hb hfixed x hx
      obtain ⟨d, hd⟩ := Option.isSome_iff_exists.1 hfixed
      rw [Vocabulary.length_eq _ (hb d hd x hx), hlen _ hfield hfixed]
    obtain ⟨hlower, hupper⟩ := hspells p.1 (List.of_mem_zip hp).1
    exact ⟨mem_of_admits hkey p hp, hlength hlower, hlength hupper⟩
  have habove := Column.above_endOf haligned key.values_ne_nil
  rw [wideColumns, upperChain_widenFirst, key.ofValues_values] at habove
  rw [range, ht]
  exact ⟨h.le_of_admits ht hkey, habove⟩

/-! ## Selections from constraints -/

theorem legacyFirst_of_merge (h : Lawful V s.fields constraints)
    (hmerge : Constraint.merge attr s.fields constraints = .ok s.bounds)
    (hlegacy : s.legacy = firstLiteral s.fields constraints) : s.LegacyFirst := by
  intro t ht
  rw [hlegacy] at ht
  obtain ⟨f, fields, hfields⟩ := List.exists_cons_of_ne_nil h.ne_nil
  have hf : f ∈ s.fields := by simp [hfields]
  have hspells := (h.wellPosed hmerge).spells hf
  rw [hfields] at hmerge ht
  obtain ⟨b, hb, hkeeps, -⟩ := Constraint.keeps_head_of_merge hmerge
  obtain ⟨x, hx, hle⟩ := hkeeps.exists_le (h.steps f hf) hspells.1 ht
  have hne : s.columns ≠ [] := by
    intro hnil
    have hmap := s.map_field_columns
    rw [hnil, hfields] at hmap
    cases hmap
  obtain ⟨c, columns, hcolumns⟩ := List.exists_cons_of_ne_nil hne
  have hc : s.columns.head? = some c := by rw [hcolumns, List.head?_cons]
  exact ⟨c, hc, x, (loosens_of_head?_columns hc hb).lower.value?_eq.trans hx, hle⟩

theorem spells_of_merge (h : Lawful V s.fields constraints)
    (hmerge : Constraint.merge attr s.fields constraints = .ok s.bounds)
    (hlegacy : s.legacy = firstLiteral s.fields constraints) : s.Spells V := by
  have hcolumns : ∀ c ∈ s.columns, c.field.Spells (V c.field.name) c.bound.lower ∧
      c.field.Spells (V c.field.name) c.bound.upper := by
    intro c hc
    obtain ⟨f, -, rfl, hwidens⟩ :=
      exists_of_forall₂_mem (widens_columnsOf (h.wellPosed hmerge) hmerge) hc
    exact ⟨hwidens.spells_lower, hwidens.spells_upper⟩
  intro c hc
  rcases mem_wideColumns hc with hc | ⟨first, t, hfirst, ht, rfl⟩
  · exact hcolumns c hc
  · refine ⟨fun d hd lit hlit ↦ ?_, (hcolumns first (List.mem_of_head? hfirst)).2⟩
    cases hlit
    have hhead : s.fields.head? = some first.field := by
      rw [← map_field_columns, List.head?_map, hfirst, Option.map_some]
    rw [hlegacy, firstLiteral, hhead] at ht
    exact ((h.wellPosed hmerge).spells (List.mem_of_head? hhead)).1 d hd _ ht

/-! ## Entries -/

section Entries

variable {s' : Selection} {range range' : KeyRange} {store : Store}

theorem entriesIn_sublist (hadmits : ∀ key, s.Admits key → s'.Admits key)
    (hrange : ∀ key ∈ range, key ∈ range') :
    (s.entriesIn range store).Sublist (s'.entriesIn range' store) := by
  refine filterMap_sublist_filterMap fun row _ entry hentry ↦ ?_
  cases hkey : Key.ofBytes? row.key with
  | none => simp only [hkey, reduceCtorEq] at hentry
  | some key =>
    simp only [hkey] at hentry ⊢
    split at hentry
    · next hin => rw [if_pos ⟨hrange key hin.1, hadmits key hin.2⟩, hentry]
    · cases hentry

theorem entriesIn_eq_full (h : ∀ row ∈ store.rows, ∀ key, Key.ofBytes? row.key = some key →
    s.Admits key → key ∈ range) : s.entriesIn range store = s.entriesIn .full store := by
  refine List.filterMap_congr fun row hrow ↦ ?_
  cases hkey : Key.ofBytes? row.key with
  | none => rfl
  | some key =>
    have hiff : key ∈ range ∧ s.Admits key ↔ key ∈ (Interval.full : KeyRange) ∧ s.Admits key :=
      ⟨fun hin ↦ ⟨Interval.mem_full key, hin.2⟩, fun hin ↦ ⟨h row hrow key hkey hin.2, hin.2⟩⟩
    simp only [hiff]

end Entries

end Selection

/-- A scan of the whole range of the selection, over storage that does not fail, gives the entries
and nothing else. -/
def Selection.Finds (s : Selection) (config : Config) (store : Store) (entries : List Entry) :
    Prop :=
  ∃ sought, (Scan.new s config (.new store .never)).start = (none, sought) ∧
    sought.items = entries.map .ok

/-- The wide selection admits what the standard one does, and the keys of one value from the literal
on, if there is one. Its range has all of them in it. -/
structure AddsLegacy (V : Vocabularies) (literal : Option Text) (standard wide : Selection) :
    Prop where
  /-- The keys added have one value, from the literal on and not above the first column. -/
  admits_iff : ∀ key : Key, wide.Admits key ↔ standard.Admits key ∨
    ∃ t v, literal = some t ∧ key.values = [v] ∧ t ≤ v ∧
      ∃ c, standard.columns.head? = some c ∧ c.bound.upper.Above v
  /-- The ranges have one end. -/
  upper_eq : wide.range.upper = standard.range.upper
  /-- The range is wider. -/
  mem_range : ∀ key ∈ standard.range, key ∈ wide.range
  /-- It has every admitted key in it whose values are as long as those of the vocabularies. -/
  mem_range_of_admits : literal.isSome → ∀ key : Key,
    (∀ p ∈ wide.fields.zip key.values, p.1.isFixed → p.2.length = (V p.1.name).width) →
    wide.Admits key → key ∈ wide.range
  /-- If there is a value after each lower bound that is left out, a scan of the wide selection
  finds all that a scan of the standard one does, and all there is, if there is a literal. -/
  finds : (∀ c ∈ standard.columns, ∀ d, c.field.domain? = some d → ∀ lo,
      c.bound.lower = .excluded lo → ∃ next, d.successor lo = .ok next) →
    ∀ (config : Config) (store : Store), (∀ row ∈ store.rows, ∃ key,
      Key.ofBytes? row.key = some key ∧ key.Conforms V standard.fields) →
    standard.Finds config store (standard.entriesIn standard.range store) ∧
    wide.Finds config store (wide.entriesIn wide.range store) ∧
    (standard.entriesIn standard.range store).Sublist (wide.entriesIn wide.range store) ∧
    (literal.isSome → wide.entriesIn wide.range store = wide.entriesIn .full store)

namespace Selection

variable {V : Vocabularies} {attr : String} {fields : List Field} {constraints : List Constraint}
  {bounds : List (Interval Text)} {s : Selection}

theorem LegacyFirst.admits_iff (h : s.LegacyFirst) (key : Key) :
    s.Admits key ↔ s.withoutLegacy.Admits key ∨
      ∃ t v, s.legacy = some t ∧ key.values = [v] ∧ t ≤ v ∧
        ∃ c, s.withoutLegacy.columns.head? = some c ∧ c.bound.upper.Above v := by
  cases ht : s.legacy with
  | none =>
    have hsame : s = s.withoutLegacy := by rw [withoutLegacy, ← ht]
    rw [← hsame]
    exact (or_iff_left fun ⟨t, v, h, _⟩ ↦ Option.some_ne_none t h.symm).symm
  | some t =>
    obtain ⟨c, hc, -⟩ := h t ht
    rw [admits_iff_withoutLegacy ht hc]
    refine or_congr_right ⟨?_, ?_⟩
    · rintro ⟨v, hv, hle, habove⟩
      exact ⟨t, v, rfl, hv, hle, c, hc, habove⟩
    · rintro ⟨_, v, ⟨⟩, hv, hle, c', hc', habove⟩
      obtain rfl : c = c' := Option.some_inj.1 (hc.symm.trans hc')
      exact ⟨v, hv, hle, habove⟩

theorem addsLegacy_withoutLegacy (hlaw : s.LawfulColumns V)
    (hlaw' : s.withoutLegacy.LawfulColumns V) (hfirst : s.LegacyFirst) (hspells : s.Spells V) :
    AddsLegacy V s.legacy s.withoutLegacy s := by
  have hrange : s.legacy.isSome → ∀ key : Key,
      (∀ p ∈ s.fields.zip key.values, p.1.isFixed → p.2.length = (V p.1.name).width) →
      s.Admits key → key ∈ s.range := by
    intro hsome key hlen hkey
    obtain ⟨t, ht⟩ := Option.isSome_iff_exists.1 hsome
    exact hfirst.mem_range_of_admits hspells ht hlen hkey
  refine ⟨hfirst.admits_iff, ?_, fun key ↦ hfirst.mem_range, hrange, ?_⟩
  · rw [range]
    split <;> rfl
  · intro hnext config store hstore
    have hconform := Conform.of_forall_exists hstore
    have htext : ∀ row ∈ store.rows, ∃ key, Key.ofBytes? row.key = some key :=
      fun row hrow ↦ (hstore row hrow).imp fun _ ↦ And.left
    refine ⟨Scan.seek_new_eq_none (c := .new store .never) hlaw' hconform
        (Search.not_cause_of_never hnext htext) config _,
      Scan.seek_new_eq_none (c := .new store .never) hlaw hconform
        (Search.not_cause_of_never hnext htext) config _, ?_, ?_⟩
    · exact entriesIn_sublist (fun key h ↦ (hfirst.admits_iff key).2 (.inl h))
        fun key ↦ hfirst.mem_range
    -- Keys of a conforming store have values of the lengths that the wide range asks for.
    · intro hsome
      apply entriesIn_eq_full
      intro row hrow key hkey
      apply hrange hsome key
      intro p hp hfixed
      obtain ⟨d, hd⟩ := Option.isSome_iff_exists.1 hfixed
      have htakes := hconform row hrow key hkey p hp
      exact Vocabulary.length_eq _ ((Field.takes_iff_of_domain hd).1 htakes)

/-- **Admitting legacy keys adds just those**, and loses nothing. A selection that admits them is
built from the same constraints as one that does not. -/
theorem addsLegacy_of_ofConstraints (h : Lawful V fields constraints) (attr : String) :
    ((∃ wide, ofConstraints .admitted attr fields constraints = .ok wide) ↔
      ∃ standard, ofConstraints .checked attr fields constraints = .ok standard) ∧
    ∀ standard wide, ofConstraints .checked attr fields constraints = .ok standard →
      ofConstraints .admitted attr fields constraints = .ok wide →
      AddsLegacy V (firstLiteral fields constraints) standard wide := by
  simp only [ofConstraints_eq_ok_iff]
  constructor
  · constructor
    · rintro ⟨_, bounds, hsound, hmerge, -⟩
      exact ⟨_, bounds, hsound, hmerge, rfl⟩
    · rintro ⟨_, bounds, hsound, hmerge, -⟩
      exact ⟨_, bounds, hsound, hmerge, rfl⟩
  · rintro _ _ ⟨bounds, hsound, hmerge, rfl⟩ ⟨_, -, hmerge', rfl⟩
    obtain rfl := Except.ok.inj (hmerge.symm.trans hmerge')
    have hlawful : ∀ mode, LawfulColumns V
        ⟨attr, fields, bounds, legacyOf mode fields constraints, hsound⟩ := by
      intro mode
      have hbuild : ofConstraints mode attr fields constraints = .ok _ :=
        ofConstraints_eq_ok_iff.2 ⟨bounds, hsound, hmerge, rfl⟩
      exact lawfulColumns_of_lawful (lawful_columnsOf (h.wellPosed hmerge) hmerge)
        (Built.ofConstraints hbuild).legacyAligned
    rw [← legacyOf_admitted]
    exact addsLegacy_withoutLegacy
      (s := ⟨attr, fields, bounds, legacyOf .admitted fields constraints, hsound⟩)
      (hlawful .admitted) (hlawful .checked) (legacyFirst_of_merge h hmerge legacyOf_admitted)
      (spells_of_merge h hmerge legacyOf_admitted)

theorem addsLegacy_of_ofConstraints_grade :
    ∃ standard wide,
      ofConstraints .checked "rank" Sample.fields
        [⟨"grade", .gt, ['a']⟩, ⟨"name", .lt, ['z']⟩] = .ok standard ∧
      ofConstraints .admitted "rank" Sample.fields
        [⟨"grade", .gt, ['a']⟩, ⟨"name", .lt, ['z']⟩] = .ok wide ∧
      AddsLegacy Sample.vocabularies (some ['a']) standard wide ∧
      ¬standard.Admits (.ofValues [['a']]) ∧ wide.Admits (.ofValues [['a']]) := by
  have hlawful : Lawful Sample.vocabularies Sample.fields
      [⟨"grade", .gt, ['a']⟩, ⟨"name", .lt, ['z']⟩] := by
    refine ⟨by decide, by decide, ?_, by decide⟩
    exact List.forall_mem_cons.2 ⟨Sample.steps_grade _, List.forall_mem_singleton.2 fun d hd ↦ by
      cases hd⟩
  have hbuild : ∀ mode, ofConstraints mode "rank" Sample.fields
      [⟨"grade", .gt, ['a']⟩, ⟨"name", .lt, ['z']⟩] = .ok _ := fun mode ↦
    ofConstraints_eq_ok_iff.2 ⟨_, by decide, rfl, rfl⟩
  exact ⟨_, _, hbuild .checked, hbuild .admitted,
    (addsLegacy_of_ofConstraints hlawful "rank").2 _ _ (hbuild .checked) (hbuild .admitted),
    by decide, by decide⟩

end Selection

end CompositeScan
