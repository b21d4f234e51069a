import CompositeScan.Proofs.Domain.Listed
import CompositeScan.Proofs.Selection.Leap

/-!
# On fixed-length fields leaps are exact

That a leap passes over nothing in range would also be true of one that moves too little. If every
field is of fixed length, its bound stands at values of the vocabulary and some value is within it,
then a leap goes as far as it can: it always has an answer, gives up only if nothing in range is
ahead, and else leads to a key in range, so that only the leading parts of that key may lie between
(`Selection.leapAfter_exact`).

## The readings of the odometer

The values to which the last values of a key turn are a reading of the odometer (`Leap.Reading`):
they fit their columns, all of them, though there may be fewer than there are columns, where a
column has no lower bound to be set back to. If no carry is left, the reading is ahead of the values
or they are themselves in range. This is what one column preserves (`Leap.turnValue_exact`), and so
what the turn of a whole key ends with (`Leap.turn_exact`).
-/

namespace CompositeScan

/-- A column on which the odometer is exact. -/
structure Column.Exact (V : Vocabulary) (c : Column) : Prop where
  /-- The field is of fixed length. -/
  isFixed : c.field.isFixed
  /-- Values are stepped in the vocabulary. -/
  isNext : ∀ d, c.field.domain? = some d → ∀ v ∈ V, V.IsNext v (d.successor v)
  /-- The lower bound is a value. -/
  mem_lower : ∀ lo, c.bound.lower.value? = some lo → lo ∈ V
  /-- Some value is within the bound. -/
  exists_mem : ∃ v ∈ V, v ∈ c.bound

theorem Column.Exact.lawful {V : Vocabulary} {c : Column} (h : c.Exact V) : c.Lawful V where
  length_lower _ _ lo hlo := V.length_eq (h.mem_lower lo hlo)
  isNext := h.isNext
  isNext_lower d hd lo hlo := h.isNext d hd lo (h.mem_lower lo (by rw [hlo]; rfl))

namespace Leap

open Key

variable {V : Vocabularies} {c : Column} {columns : List Column}
  {v w : Text} {values extra : List Text} {pairs : List (Column × Text)} {right : Turned}

/-- Values that fit the leading columns, and no others. -/
structure Reading (V : Vocabularies) (columns : List Column) (values : List Text) : Prop where
  /-- Each value has a column. -/
  length_le : values.length ≤ columns.length
  /-- The values fit. -/
  within : Within V columns values

namespace Reading

theorem nil (V : Vocabularies) (columns : List Column) : Reading V columns [] :=
  ⟨Nat.zero_le _, by simp [Within]⟩

theorem cons (h : Reading V columns values) (hc : c.field.isFixed) (hw : Fits V c w) :
    Reading V (c :: columns) (w :: values) :=
  ⟨Nat.succ_le_succ h.length_le,
    within_cons_iff.2 ⟨hw, Vocabulary.plain _ (hw.2 hc), h.within⟩⟩

theorem of_take {n : ℕ} (h : Reading V (columns.take n) values) : Reading V columns values := by
  obtain ⟨hlen, hfits, hplain⟩ := h
  rw [List.length_take, Nat.le_min] at hlen
  refine ⟨hlen.2, fun p hp ↦ hfits p ?_, hplain⟩
  rwa [zip_take_left, List.take_of_length_le (by simp [hlen.1])]

end Reading

/-! ## The least value of a column -/

/-- To set the column to this place completes a reading, and is ahead of every value that is below
the bound. -/
structure Place.Completes (V : Vocabularies) (c : Column) (place : Place) : Prop where
  /-- A reading of the later columns becomes one of all. -/
  reading : ∀ {columns values}, Reading V columns values →
    Reading V (c :: columns) (place.followedBy values)
  /-- A value that is below the bound is left behind. -/
  lt : ∀ v ∈ V c.field.name, ¬c.bound.lower.Below v → ∀ vs values,
    spell (v :: vs) < spell (place.followedBy values)

theorem completes_none (hlower : c.bound.lower = .unbounded) : Place.none.Completes V c where
  reading _ := .nil V _
  lt v _ hnot := by
    rw [hlower] at hnot
    exact absurd trivial hnot

theorem completes_value (hfixed : c.field.isFixed) (hw : Fits V c w)
    (hlt : ∀ v ∈ V c.field.name, ¬c.bound.lower.Below v → v < w) :
    (Place.value w).Completes V c where
  reading h := h.cons hfixed hw
  lt v hv hnot vs values := spell_cons_lt_cons_of_lt (hlt v hv hnot)
    (Vocabulary.length_eq_of_mem hv (hw.2 hfixed)) vs values

theorem leastPlace_exact (attr : String) (hc : c.Exact (V c.field.name)) :
    ∃ place, leastPlace attr c = .ok place ∧ place.Completes V c := by
  obtain ⟨d, hd⟩ := Option.isSome_iff_exists.1 hc.isFixed
  obtain ⟨u, hu, hbelow, habove⟩ := hc.exists_mem
  rw [leastPlace]
  split
  · next hlower => exact ⟨.none, rfl, completes_none hlower⟩
  · next lo d' hlower hd' =>
    rw [hlower] at hbelow
    refine ⟨.value lo, rfl, completes_value hc.isFixed ⟨⟨?_, ?_⟩, fun _ ↦ ?_⟩ fun v _ hnot ↦ ?_⟩
    · rw [hlower]
      exact le_refl lo
    · exact habove.mono hbelow
    · exact hc.mem_lower lo (by rw [hlower]; rfl)
    · rw [hlower] at hnot
      exact not_le.1 hnot
  · next lo hlower hd' =>
    rw [hd] at hd'
    cases hd'
  · next lo d' hlower hd' =>
    rw [hlower] at hbelow
    have hlo := hc.mem_lower lo (by rw [hlower]; rfl)
    have hnext := hc.isNext d' hd' lo hlo
    -- The value after the bound is there, since `u` is above the bound.
    split
    · next next hsucc =>
      rw [hsucc] at hnext
      refine ⟨.value next, rfl,
        completes_value hc.isFixed ⟨⟨?_, ?_⟩, fun _ ↦ hnext.mem⟩ fun v _ hnot ↦ ?_⟩
      · rw [hlower]
        exact hnext.lt
      · exact habove.mono (hnext.le hu hbelow)
      · rw [hlower] at hnot
        exact lt_of_le_of_lt (not_lt.1 hnot) hnext.lt
    · next cause hsucc =>
      rw [hsucc] at hnext
      cases cause with
      | exhausted last => exact absurd hbelow (hnext u hu)
      | outsideDomain value domain => exact absurd hlo hnext
  · next lo hlower hd' =>
    rw [hd] at hd'
    cases hd'

theorem leastValues_exact (attr : String) (h : ∀ c ∈ columns, c.Exact (V c.field.name)) :
    ∃ values, leastValues attr columns = .ok values ∧ Reading V columns values := by
  induction columns with
  | nil => exact ⟨[], leastValues_nil_eq_ok_iff.2 rfl, .nil V []⟩
  | cons c columns ih =>
    obtain ⟨hc, hcolumns⟩ := List.forall_mem_cons.1 h
    obtain ⟨place, hplace, hcompletes⟩ := leastPlace_exact attr hc
    obtain ⟨values, hvalues, hrest⟩ := ih hcolumns
    exact ⟨place.followedBy values,
      leastValues_cons_eq_ok_iff.2 ⟨place, values, hplace, hvalues, rfl⟩, hcompletes.reading hrest⟩

/-! ## One value turns -/

/-- What a turn of the last values of a key comes to. The values of the key beyond the columns are
`extra`. -/
structure Turned.Exact (V : Vocabularies) (pairs : List (Column × Text)) (extra : List Text)
    (turned : Turned) : Prop where
  /-- The values are a reading. -/
  reading : Reading V (pairs.map Prod.fst) turned.values
  /-- If no carry is left, the reading is ahead of the values, or these are within their bounds and
  stay. -/
  forward : turned.carry = false →
    spell (pairs.map Prod.snd ++ extra) < spell turned.values ∨
      turned.values = pairs.map Prod.snd ∧ ∀ p ∈ pairs, p.2 ∈ p.1.bound

namespace Turned.Exact

theorem of_carry (h : Reading V (pairs.map Prod.fst) values) :
    (Turned.mk true values).Exact V pairs extra :=
  ⟨h, fun hcarry ↦ Bool.noConfusion hcarry⟩

theorem of_lt (h : Reading V (pairs.map Prod.fst) values)
    (hlt : spell (pairs.map Prod.snd ++ extra) < spell values) :
    (Turned.mk false values).Exact V pairs extra :=
  ⟨h, fun _ ↦ .inl hlt⟩

theorem cons (h : right.Exact V pairs extra) (hcarry : right.carry = false)
    (hfixed : c.field.isFixed) (hv : Fits V c v) :
    (Turned.mk false (v :: right.values)).Exact V ((c, v) :: pairs) extra := by
  refine ⟨h.reading.cons hfixed hv, fun _ ↦ ?_⟩
  rcases h.forward hcarry with hlt | ⟨heq, hmem⟩
  · exact .inl (spell_cons_lt_cons_self_iff.2 hlt)
  · exact .inr ⟨congrArg _ heq, List.forall_mem_cons.2 ⟨hv.1, hmem⟩⟩

end Turned.Exact

/-- A value within its bound can move on: it moves forward or is set back. -/
theorem moveOn_exact (attr : String) (hc : c.Exact (V c.field.name)) (hv : Fits V c v)
    (hright : right.Exact V pairs extra) :
    ∃ turned, moveOn attr c v right.values = .ok turned ∧
      turned.Exact V ((c, v) :: pairs) extra := by
  obtain ⟨d, hd⟩ := Option.isSome_iff_exists.1 hc.isFixed
  have hmem := hv.2 hc.isFixed
  have hnext := hc.isNext d hd v hmem
  obtain ⟨place, hplace, hcompletes⟩ := leastPlace_exact attr hc
  have hback : (Turned.mk true (place.followedBy right.values)).Exact V ((c, v) :: pairs) extra :=
    .of_carry (hcompletes.reading hright.reading)
  simp only [moveOn, hd, hplace]
  split
  · next next hsucc =>
    rw [hsucc] at hnext
    by_cases habove : c.bound.upper.Above next
    · rw [if_pos habove]
      refine ⟨_, rfl, .of_lt (hright.reading.cons hc.isFixed ?_) ?_⟩
      · exact ⟨⟨hv.1.1.mono hnext.lt.le, habove⟩, fun _ ↦ hnext.mem⟩
      · exact spell_cons_lt_cons_of_lt hnext.lt (Vocabulary.length_eq_of_mem hmem hnext.mem) _ _
    · rw [if_neg habove]
      exact ⟨_, rfl, hback⟩
  · exact ⟨_, rfl, hback⟩
  · next hsucc =>
    rw [hsucc] at hnext
    exact absurd hmem hnext

theorem turnValue_exact (attr : String) (endsKey : Bool) (hc : c.Exact (V c.field.name))
    (hlater : ∀ p ∈ pairs, p.1.Exact (V p.1.field.name)) (hv : v ∈ V c.field.name)
    (hright : right.Exact V pairs extra) :
    ∃ turned, turnValue attr c v endsKey (pairs.map Prod.fst) right = .ok turned ∧
      turned.Exact V ((c, v) :: pairs) extra := by
  obtain ⟨place, hplace, hcompletes⟩ := leastPlace_exact attr hc
  obtain ⟨values, hvalues, hleast⟩ := leastValues_exact attr (List.forall_mem_map.2 hlater)
  rw [turnValue]
  -- The lines of the odometer's table. No line for variable-length fields applies.
  by_cases hbelow : c.bound.lower.Below v
  · rw [if_neg (not_not.2 hbelow)]
    by_cases habove : c.bound.upper.Above v
    · rw [if_neg (not_not.2 habove)]
      have hfits : Fits V c v := ⟨⟨hbelow, habove⟩, fun _ ↦ hv⟩
      by_cases hcarry : right.carry = true
      · rw [if_pos hcarry]
        exact moveOn_exact attr hc hfits hright
      · rw [if_neg hcarry]
        exact ⟨_, rfl, hright.cons (Bool.eq_false_of_not_eq_true hcarry) hc.isFixed hfits⟩
    · rw [if_pos habove, if_neg fun hvarying ↦ hvarying.1 hc.isFixed, hplace, hvalues]
      exact ⟨_, rfl, .of_carry (hcompletes.reading hleast)⟩
  · obtain ⟨d, hd⟩ := Option.isSome_iff_exists.1 hc.isFixed
    have hraised : raisedPlace attr c v endsKey = .ok place := by
      simp only [raisedPlace, hd, hplace]
    rw [if_pos hbelow, hraised, hvalues]
    exact ⟨_, rfl, .of_lt (hcompletes.reading hleast) (hcompletes.lt v hv hbelow _ values)⟩

/-! ## The turn of a key -/

theorem turn_exact (attr : String) (more : Bool) (extra : List Text)
    (hcolumns : ∀ p ∈ pairs, p.1.Exact (V p.1.field.name))
    (hvalues : ∀ p ∈ pairs, p.2 ∈ V p.1.field.name) :
    ∃ turned, turn attr more pairs = .ok turned ∧ turned.Exact V pairs extra := by
  induction pairs with
  | nil => exact ⟨⟨false, []⟩, rfl, .nil V [], fun _ ↦ .inr ⟨rfl, nofun⟩⟩
  | cons p pairs ih =>
    obtain ⟨c, v⟩ := p
    obtain ⟨hc, hcolumns⟩ := List.forall_mem_cons.1 hcolumns
    obtain ⟨hv, hvalues⟩ := List.forall_mem_cons.1 hvalues
    obtain ⟨right, hright, hexact⟩ := ih hcolumns hvalues
    obtain ⟨turned, hturned, hexact'⟩ :=
      turnValue_exact attr (pairs.isEmpty && !more) hc hcolumns hv hexact
    exact ⟨turned, bind_eq_ok_iff.2 ⟨right, hright, hturned⟩, hexact'⟩

end Leap

namespace Selection

variable {V : Vocabularies} {s : Selection} {k : Key}

/-- The key of a reading is in range, with values of the vocabularies. -/
theorem admits_of_reading {target : Key}
    (hreading : Leap.Reading V s.columns target.values) :
    s.Admits target ∧ target.InVocabulary V s.fields := by
  refine ⟨admits_of_mem fun p hp ↦ (hreading.within.1 p hp).1, fun p hp hfixed ↦ ?_⟩
  rw [← map_field_columns, List.zip_map_left] at hp
  obtain ⟨⟨c, v⟩, hcv, rfl⟩ := List.mem_map.1 hp
  exact (hreading.within.1 _ hcv).2 hfixed

/-- Every column is one on which the odometer is exact, and keys of one value are nothing
special. -/
structure ExactColumns (V : Vocabularies) (s : Selection) : Prop where
  /-- No keys of one value are admitted beside those within the columns. -/
  legacy : s.legacy = none
  /-- The odometer is exact on each column. -/
  exact : ∀ c ∈ s.columns, c.Exact (V c.field.name)

namespace ExactColumns

theorem lawful (h : s.ExactColumns V) : s.LawfulColumns V := by
  intro c hc
  rw [wideColumns_of_legacy_eq_none h.legacy] at hc
  exact (h.exact c hc).lawful

theorem mem_of_inVocabulary (h : s.ExactColumns V) (hk : k.InVocabulary V s.fields) :
    ∀ p ∈ s.columns.zip k.values, p.2 ∈ V p.1.field.name := by
  intro p hp
  have hmem := forall_mem_wideColumns_zip (P := fun f v ↦ f.isFixed → v ∈ V f.name) hk
  rw [wideColumns_of_legacy_eq_none h.legacy] at hmem
  exact hmem p hp (h.exact _ (List.of_mem_zip hp).1).isFixed

/-- The turn of a key leaves a carry, or leads to a greater key, or finds the key in range. -/
theorem exists_turnOf (h : s.ExactColumns V) (hk : k.InVocabulary V s.fields) :
    ∃ turned, s.turnOf k = .ok turned ∧ Leap.Reading V s.columns turned.values ∧
      (turned.carry = false → Key.spell k.values < Key.spell turned.values ∨ s.Admits k) := by
  obtain ⟨turned, hturned, hreading, hforward⟩ := Leap.turn_exact s.attr
    (s.columns.length < k.values.length) (k.values.drop s.columns.length)
    (fun p hp ↦ h.exact _ (List.of_mem_zip hp).1) (h.mem_of_inVocabulary hk)
  rw [map_fst_zip_eq_take] at hreading
  rw [map_snd_zip_eq_take, List.take_append_drop] at hforward
  refine ⟨turned, ?_, hreading.of_take, fun hcarry ↦ ?_⟩
  · rw [turnOf, wideColumns_of_legacy_eq_none h.legacy, hturned]
  · exact (hforward hcarry).imp_right fun hstay ↦ admits_of_mem hstay.2

/-- From a key out of range a leap gives up or leads to a greater key in range. -/
theorem exhausted_or_seek (h : s.ExactColumns V) (hk : k.InVocabulary V s.fields)
    (hout : ¬s.Admits k) :
    s.leapAfter k = .ok .exhausted ∨ ∃ target, s.leapAfter k = .ok (.seek target) ∧ k < target ∧
      s.Admits target ∧ target.InVocabulary V s.fields := by
  obtain ⟨turned, hturned, hreading, hforward⟩ := h.exists_turnOf hk
  have hleap := leapAfter_eq s k
  simp only [hturned] at hleap
  by_cases hcarry : turned.carry = true
  · rw [if_pos hcarry] at hleap
    exact .inl hleap
  · right
    have hlt := (hforward (Bool.eq_false_of_not_eq_true hcarry)).resolve_right hout
    have hne : turned.values ≠ [] := by
      intro hnil
      rw [hnil] at hlt
      exact List.not_lt_nil _ hlt
    have hvalues := Key.values_ofValues hne hreading.within.2
    rw [← hvalues, ← Key.lt_iff_spell] at hlt
    rw [← hvalues] at hreading
    rw [if_neg hcarry, if_pos hlt] at hleap
    exact ⟨_, hleap, hlt, admits_of_reading hreading⟩

end ExactColumns

/-- **On fixed-length fields a leap is exact.** If all fields are of fixed length, each steps its
vocabulary, lower bounds are at values, and some value is within each bound, then a leap from a key
out of range gives up if and only if there is no greater key in range, and else it leads to a
greater key in range, and the keys in range between the two are leading parts of that key. All keys
spoken of have values of the vocabularies in the fields; they may have fewer values than there are
fields, or more. -/
theorem leapAfter_exact (hlegacy : s.legacy = none) (hfixed : ∀ f ∈ s.fields, f.isFixed)
    (hnext : ∀ f ∈ s.fields, ∀ d, f.domain? = some d → ∀ v ∈ V f.name,
      (V f.name).IsNext v (d.successor v))
    (hlower : ∀ p ∈ s.fields.zip s.bounds, ∀ lo, p.2.lower.value? = some lo → lo ∈ V p.1.name)
    (hmem : ∀ c ∈ s.columns, ∃ v ∈ V c.field.name, v ∈ c.bound)
    (hk : k.InVocabulary V s.fields) (hout : ¬s.Admits k) :
    (s.leapAfter k = .ok .exhausted ↔
      ∀ k', k'.InVocabulary V s.fields → s.Admits k' → ¬k < k') ∧
    (s.leapAfter k ≠ .ok .exhausted → ∃ target, s.leapAfter k = .ok (.seek target) ∧ k < target ∧
      s.Admits target ∧ target.InVocabulary V s.fields ∧
      ∀ k', k'.InVocabulary V s.fields → s.Admits k' → k < k' → k' < target →
        k'.values <+: target.values ∧ k'.values ≠ target.values) := by
  have hexact : s.ExactColumns V := by
    refine ⟨hlegacy, fun c hc ↦ ?_⟩
    obtain ⟨b, hb, hloosens⟩ := exists_bound_of_mem_columnsOf hc
    have hf := (List.of_mem_zip hb).1
    exact ⟨hfixed _ hf, hnext _ hf,
      fun lo hlo ↦ hlower _ hb lo (hloosens.lower.value?_eq ▸ hlo), hmem c hc⟩
  -- No leap loses a key in range.
  have hspares : ∀ k', k'.InVocabulary V s.fields → s.Admits k' → k < k' → s.LeapSpares k k' := by
    intro k' hk' hadm hlt
    refine leapSpares hexact.lawful.sparing (hexact.lawful.passableKey hk fun p hp hvarying ↦ ?_)
      hadm hk' hlt
    exact absurd (hfixed _ (List.of_mem_zip hp).1) hvarying
  rcases hexact.exhausted_or_seek hk hout with hleap | ⟨target, hleap, hlt, hadm, htarget⟩
  · refine ⟨iff_of_true hleap fun k' hk' hadm hlt ↦ ?_, absurd hleap⟩
    exact (hspares k' hk' hadm hlt).ne_exhausted hleap
  · rw [hleap]
    refine ⟨iff_of_false nofun fun hnone ↦ hnone target htarget hadm hlt, fun _ ↦ ?_⟩
    refine ⟨target, rfl, hlt, hadm, htarget, fun k' hk' hadm' hlt' hbefore ↦ ?_⟩
    exact ((hspares k' hk' hadm' hlt').le_or_lead hleap).resolve_left (not_le.2 hbefore)

end Selection

namespace Sample

/-- Pairs of grades, the first at most `b` and the second above `a`. -/
def boundedRanks : Selection :=
  ⟨"rank", ranks, [⟨.unbounded, .included ['b']⟩, ⟨.excluded ['a'], .unbounded⟩], none, rfl⟩

end Sample

namespace Selection

theorem leapAfter_exact_boundedRanks :
    (Sample.boundedRanks.leapAfter (.ofValues [['a'], ['a']]) = .ok .exhausted ↔
      ∀ k', k'.InVocabulary Sample.vocabularies Sample.boundedRanks.fields →
        Sample.boundedRanks.Admits k' → ¬Key.ofValues [['a'], ['a']] < k') ∧
    (Sample.boundedRanks.leapAfter (.ofValues [['a'], ['a']]) ≠ .ok .exhausted →
      ∃ target, Sample.boundedRanks.leapAfter (.ofValues [['a'], ['a']]) = .ok (.seek target) ∧
        Key.ofValues [['a'], ['a']] < target ∧ Sample.boundedRanks.Admits target ∧
        target.InVocabulary Sample.vocabularies Sample.boundedRanks.fields ∧
        ∀ k', k'.InVocabulary Sample.vocabularies Sample.boundedRanks.fields →
          Sample.boundedRanks.Admits k' → Key.ofValues [['a'], ['a']] < k' → k' < target →
            k'.values <+: target.values ∧ k'.values ≠ target.values) := by
  refine leapAfter_exact rfl (by decide) ?_ ?_ ?_ (by decide) (by decide)
  · exact List.forall_mem_cons.2 ⟨fun d hd v _ ↦ Sample.isNext_grade hd v,
      List.forall_mem_singleton.2 fun d hd v _ ↦ Sample.isNext_grade hd v⟩
  · refine List.forall_mem_cons.2 ⟨fun lo hlo ↦ ?_, List.forall_mem_singleton.2 fun lo hlo ↦ ?_⟩
    · cases hlo
    · cases hlo
      decide
  · exact List.forall_mem_cons.2
      ⟨⟨['b'], by decide⟩, List.forall_mem_singleton.2 ⟨['b'], by decide⟩⟩

end Selection

end CompositeScan
