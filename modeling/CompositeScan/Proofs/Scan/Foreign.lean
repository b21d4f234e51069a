import CompositeScan.Proofs.Domain.Hex
import CompositeScan.Proofs.Scan.Iterate
import CompositeScan.Proofs.Selection.Build
import Mathlib.Data.List.Nodup

/-!
# Foreign values do no harm

A store may hold rows that were not written by the rules: in a hexadecimal field there may be values
that are no numerals. Such a row may be reported or not, but no other row is lost by it. A scan
reports, in ascending order, every entry in range whose hexadecimal values are numerals
(`Scan.exists_report_of_wellFormed`).

That is because the odometer treats a foreign value with care. It is compared with bounds as any
text of its length is, and the odometer asks for the value after it only to find that there is none
to be known. To step on is safe then; to believe that the domain is exhausted would not be. So the
question which value stands next above one is answered in a way that leaves out no numeral, whatever
the value is (`Field.sparesAbove_of_isStock`).

## Sparing columns

Lawful columns are too much to ask here, since a step from a foreign value leads to no value at all.
What is left of them is `Column.Sparing`, and what is asked of a stored key is `Field.Passable`,
place by place. Both are about the length of a text and about what a step leaves out, so a foreign
value of the right length has them; and the search loses none of the keys to be kept, those that are
`Key.WellFormed`.
-/

namespace CompositeScan

open Search (Keeps)

/-- The field is one of those that the library brings: a hexadecimal counter, or a field of fixed
length that is stepped by character, or one of variable length. -/
def Field.IsStock (f : Field) : Prop := f = .hex f.name ∨ f = .fixed f.name ∨ f = .varying f.name

/-- The vocabularies of such fields: the texts of the length given for the field, and of these only
the numerals if it is hexadecimal. -/
def Vocabularies.stock (fields : List Field) (width : String → ℕ) : Vocabularies := fun name ↦
  { width := width name
    values := {v | v.length = width name ∧ v.Plain ∧ (.hex name ∈ fields → Hex.Numeral v)}
    length_eq := And.left
    plain := fun h ↦ h.2.1 }

namespace Key

/-- The values of the key fit into the fields: they have the length of the field, if it is fixed,
and else do not end in the greatest character. -/
def Fitted (width : String → ℕ) (fields : List Field) (k : Key) : Prop :=
  ∀ p ∈ fields.zip k.values,
    if p.1.isFixed then p.2.length = width p.1.name else p.2.getLast? ≠ some Text.maxDatum

instance (width : String → ℕ) (fields : List Field) (k : Key) : Decidable (k.Fitted width fields) :=
  inferInstanceAs (Decidable (∀ p ∈ _, _))

/-- The values of hexadecimal fields are numerals. -/
def WellFormed (fields : List Field) (k : Key) : Prop :=
  ∀ p ∈ fields.zip k.values, p.1 = .hex p.1.name → Hex.Numeral p.2

end Key

variable {fields : List Field} {width : String → ℕ} {f : Field} {d : Domain} {k : Key}

/-- Stepping a text of the length of the field leaves out no value above it, also if the text is
none of the field's values. -/
theorem Field.sparesAbove_of_isStock (hf : f.IsStock) (hmem : f ∈ fields) (hd : f.domain? = some d)
    {v : Text} (hlen : v.length = width f.name) :
    (Vocabularies.stock fields width f.name).SparesAbove v (d.successor v) := by
  rcases hf with hf | hf | hf <;> rw [hf] at hd <;> cases hd
  · rw [hf] at hmem
    cases hsucc : Domain.hex.successor v with
    | ok next =>
      refine ⟨(Hex.length_eq_of_successor hsucc).trans hlen, fun u hu hlt ↦ ?_⟩
      exact Hex.successor_le_of_lt hsucc (hu.2.2 hmem) (hu.1.trans hlen.symm) hlt
    | error e =>
      cases e with
      | exhausted last =>
        intro u hu
        exact Hex.not_lt_of_successor_eq_exhausted hsucc (hu.2.2 hmem) (hu.1.trans hlen.symm)
      | outsideDomain value domain => trivial
  · cases hsucc : Domain.characters.successor v with
    | ok next =>
      refine ⟨(Text.forksBelow_of_successor hsucc).2.trans hlen, fun u hu hlt ↦ ?_⟩
      exact Text.successor_le_of_lt hsucc hu.2.1 (hu.1.trans hlen.symm) hlt
    | error e =>
      rw [Text.successor_eq_error hsucc]
      intro u hu
      exact Text.not_lt_of_successor_eq_error hsucc hu.2.1 (hu.1.trans hlen.symm)

theorem Key.Fitted.inVocabulary (h : k.Fitted width fields) (hwell : k.WellFormed fields)
    (hnodup : (fields.map Field.name).Nodup) :
    k.InVocabulary (.stock fields width) fields := by
  intro p hp hfixed
  have hlen := h p hp
  rw [if_pos hfixed] at hlen
  obtain ⟨hmem, hvalue⟩ := List.of_mem_zip hp
  refine ⟨hlen, Key.plain_of_mem_values hvalue, fun hhex ↦ hwell p hp ?_⟩
  exact List.inj_on_of_nodup_map hnodup hmem hhex rfl

namespace Selection

variable {s : Selection}

/-- The values of the lower bounds have the lengths of the fields. -/
def FitsBounds (width : String → ℕ) (s : Selection) : Prop :=
  ∀ p ∈ s.fields.zip s.bounds, p.1.isFixed → ∀ lo, p.2.lower.value? = some lo →
    lo.length = width p.1.name

theorem sparingColumns_of_isStock (hbuilt : s.Built) (hstock : ∀ f ∈ s.fields, f.IsStock)
    (hwidth : s.FitsBounds width) : s.SparingColumns (.stock s.fields width) := by
  refine sparingColumns_of_sparing (fun c hc ↦ ?_) hbuilt.legacyAligned
  obtain ⟨b, hb, hloosens⟩ := exists_bound_of_mem_columnsOf hc
  have hmem := (List.of_mem_zip hb).1
  have hlength : ∀ d, c.field.domain? = some d → ∀ lo, c.bound.lower.value? = some lo →
      lo.length = width c.field.name := fun d hd lo hlo ↦
    hwidth _ hb (Field.isFixed_of_domain hd) lo (hloosens.lower.value?_eq ▸ hlo)
  refine ⟨hlength, fun d hd lo hlo ↦ ?_⟩
  exact Field.sparesAbove_of_isStock (hstock _ hmem) hmem hd (hlength d hd lo (by rw [hlo]; rfl))

theorem passableKey_of_fitted (hstock : ∀ f ∈ s.fields, f.IsStock)
    (hk : k.Fitted width s.fields) : s.PassableKey (.stock s.fields width) k := by
  intro p hp
  have hfit := hk p hp
  have hmem := (List.of_mem_zip hp).1
  cases hd : p.1.domain? with
  | some d =>
    rw [if_pos (Field.isFixed_of_domain hd)] at hfit
    rw [Field.passable_iff_of_domain hd]
    exact ⟨hfit, Field.sparesAbove_of_isStock (hstock _ hmem) hmem hd hfit⟩
  | none =>
    rw [if_neg (Field.not_isFixed_of_varying hd)] at hfit
    exact (Field.passable_iff_of_varying hd).2 (.of_getLast?_ne hfit)

end Selection

namespace Sample

/-- Names counted above `0e`. -/
def counters : Selection :=
  ⟨"counter", [.hex "number", .varying "name"], [⟨.excluded ['0', 'e'], .unbounded⟩, .full], none,
    rfl⟩

theorem built_counters : counters.Built :=
  .ofBounds (show Selection.ofBounds "counter" [.hex "number", .varying "name"]
    [⟨.excluded ['0', 'e'], .unbounded⟩, .full] = _ from rfl)

/-- A counted name, and before it one whose counter is no numeral. -/
def foreignStore : Store :=
  ⟨[⟨Key.bytes (.ofValues [['0', 'g'], ['x']]), []⟩,
    ⟨Key.bytes (.ofValues [['1', '0'], ['y']]), [1]⟩], by decide⟩

end Sample

namespace Scan

variable {s : Selection} {store : Store}

/-- **Foreign values cost no row.** Of a selection on fields that the library brings, sought in any
range of a store whose values fit into the fields, iterating meets no error, as long as each
excluded lower bound can be moved past, and gives entries of the range in ascending order: all those
whose hexadecimal values are numerals. -/
theorem exists_report_of_wellFormed (hbuilt : s.Built) (hstock : ∀ f ∈ s.fields, f.IsStock)
    (hwidth : s.FitsBounds width)
    (hlower : ∀ c ∈ s.columns, ∀ d, c.field.domain? = some d → ∀ lo, c.bound.lower = .excluded lo →
      ∃ next, d.successor lo = .ok next)
    (hstore : ∀ row ∈ store.rows,
      ∃ key, Key.ofBytes? row.key = some key ∧ key.Fitted width s.fields)
    (config : Config) (range : KeyRange) :
    ∃ sought, ∃ found : List Entry,
      (new s config (.new store .never)).seek range = (none, sought) ∧
        sought.items = found.map .ok ∧ found.Pairwise (fun a b ↦ a.key < b.key) ∧
        found.Sublist (s.entriesIn range store) ∧
        ∀ entry ∈ s.entriesIn range store, entry.key.WellFormed s.fields → entry ∈ found := by
  have hfitted := Search.forall_key_of_exists hstore
  -- Leaps spare the keys that are in the vocabularies.
  have hleaps : Search.LeapsSpare s (·.InVocabulary (.stock s.fields width) s.fields)
      store.rows := by
    intro row hrow k hk k' hk' hadm hlt
    have hpass := Selection.passableKey_of_fitted hstock (hfitted row hrow k hk)
    exact Selection.leapSpares (Selection.sparingColumns_of_isStock hbuilt hstock hwidth) hpass hadm
      hk' hlt
  obtain ⟨⟨found, hkeeps, hreports⟩, -⟩ := exists_reports_seek_new (c := .new store .never) hleaps
    (show (new s config (.new store .never)).seek range = _ from rfl)
  have htext : ∀ row ∈ store.rowsIn (range.map Key.bytes), ∃ key, Key.ofBytes? row.key = some key :=
    fun row hrow ↦ (hstore row (Store.mem_rowsIn.1 hrow).1).imp fun _ ↦ And.left
  obtain ⟨hnone, hitems⟩ :=
    hreports.eq_of_forall_not (Search.not_cause_of_never hlower htext _)
  refine ⟨_, found, Prod.ext hnone rfl, hitems, ?_, hkeeps.sublist, fun entry hentry hwell ↦ ?_⟩
  · exact (s.pairwise_entriesIn range store).sublist hkeeps.sublist
  · obtain ⟨-, row, hrow, hrowentry⟩ := Selection.mem_entriesIn.1 hentry
    have hfit := hfitted row hrow entry.key (Selection.entryOf?_eq_some_iff.1 hrowentry).1
    have hnodup := (Selection.defect?_eq_none_iff.1 s.sound).2.2.1
    exact hkeeps.mem entry hentry (hfit.inVocabulary hwell hnodup)

theorem exists_report_of_wellFormed_counters :
    ∃ sought, ∃ found : List Entry,
      (new Sample.counters {} (.new Sample.foreignStore .never)).seek .full = (none, sought) ∧
        sought.items = found.map .ok ∧ found.Pairwise (fun a b ↦ a.key < b.key) ∧
        found.Sublist (Sample.counters.entriesIn .full Sample.foreignStore) ∧
        ∀ entry ∈ Sample.counters.entriesIn .full Sample.foreignStore,
          entry.key.WellFormed Sample.counters.fields → entry ∈ found := by
  have hwidth : Sample.counters.FitsBounds fun _ ↦ 2 := by
    refine List.forall_mem_cons.2 ⟨fun _ lo hlo ↦ ?_, List.forall_mem_singleton.2 nofun⟩
    cases hlo
    rfl
  refine exists_report_of_wellFormed Sample.built_counters ?_ hwidth ?_ ?_ {} .full
  · exact List.forall_mem_cons.2 ⟨.inl rfl, List.forall_mem_singleton.2 (.inr (.inr rfl))⟩
  · refine List.forall_mem_cons.2 ⟨fun d hd lo hlo ↦ ?_, List.forall_mem_singleton.2 nofun⟩
    cases hd
    cases hlo
    exact ⟨['0', 'f'], rfl⟩
  · exact List.forall_mem_cons.2 ⟨⟨.ofValues [['0', 'g'], ['x']], by decide⟩,
      List.forall_mem_singleton.2 ⟨.ofValues [['1', '0'], ['y']], by decide⟩⟩

end Scan

end CompositeScan
