import CompositeScan.Proofs.Scan.Iterate
import CompositeScan.Proofs.Selection.Build

/-!
# Scans are complete

Two guarantees for whoever runs a scan. Of a selection that was built, a scan reports just the
entries that a full check finds, or some of the first ones and the error that ended it
(`Scan.reports_entriesIn`). And of a query that was put as constraints, no row is lost on the way:
if one stored key meets the constraints, a selection is built, the scan of its range does not fail,
and the entry is among those reported (`Scan.exists_report_of_met`).

Neither needs a look at the search any more. What is added here to `Scan.reports_seek_new` is where
its premises come from: lawful columns from bounds that agree with the vocabularies, in the first
case, and from constraints that some values meet in the second, where a leap can not get stuck
either, since those values are beyond every lower end that leaves its value out.

## Where a bound starts

A field of fixed length is asked to step the texts that may be values to the next value, and only
these: what it makes of a text with a separator is its own affair. But a bound may leave out such a
text as well, and then a leap goes on at whatever text the field leads to from there. So this text
has to be stepped to the least value above it, too (`LawfulStarts`). It is a condition that can not
be spared: without it a leap may go on behind values that are in range, and a scan ends in good
order with its entries missing (`Scan.not_reports_entriesIn_afterSeparator`).
-/

namespace CompositeScan

open Constraint (WellPosed Met Solves)
open Search (Cause Conform)

/-! ## Any range -/

namespace Sample

/-- Names graded above the least grade. -/
def aboveLeast : Selection :=
  ⟨"rank", fields, [⟨.excluded ['a'], .unbounded⟩, .full], none, rfl⟩

theorem built_aboveLeast : aboveLeast.Built :=
  .ofBounds (show Selection.ofBounds "rank" fields [⟨.excluded ['a'], .unbounded⟩, .full] = _ from
    rfl)

theorem lawfulBounds_aboveLeast :
    LawfulBounds vocabularies aboveLeast.fields aboveLeast.bounds := by
  refine List.forall_mem_cons.2 ⟨fun d hd ↦ ⟨fun v hv ↦ ?_, fun v _ _ ↦ isNext_grade hd v⟩,
    List.forall_mem_singleton.2 fun d hd ↦ by cases hd⟩
  rcases hv with hv | hv <;> cases hv
  rfl

theorem lawfulStarts_aboveLeast :
    LawfulStarts vocabularies aboveLeast.fields aboveLeast.bounds := by
  refine List.forall_mem_cons.2 ⟨fun d hd lo hlo ↦ ?_, List.forall_mem_singleton.2 nofun⟩
  cases hlo
  exact .inl (by decide)

/-- A graded name in the selection and one outside. -/
def store : Store :=
  ⟨[⟨Key.bytes (.ofValues [['a'], ['x']]), []⟩, ⟨Key.bytes (.ofValues [['d'], ['y']]), [1]⟩],
    by decide⟩

theorem conforms_store : ∀ row ∈ store.rows,
    ∃ key, Key.ofBytes? row.key = some key ∧ key.Conforms vocabularies fields :=
  List.forall_mem_cons.2 ⟨⟨.ofValues [['a'], ['x']], by decide⟩,
    List.forall_mem_singleton.2 ⟨.ofValues [['d'], ['y']], by decide⟩⟩

end Sample

namespace Scan

/-- The items of a scan that is sent to a range: the failure of the seek, if it fails, and what the
iteration then gives. -/
def itemsIn (s : Scan) (range : KeyRange) : List Item :=
  (s.seek range).1.toList.map .error ++ (s.seek range).2.items

/-- The items of a scan that is sent to a range and walked. -/
def walkIn (s : Scan) (range : KeyRange) : List Item :=
  (s.seek range).1.toList.map .error ++ (s.seek range).2.walk

/-- The storage cursor of a scan that was sent to a range and iterated to the end. -/
def cursorIn (s : Scan) (range : KeyRange) : Cursor := (s.seek range).2.drain.2.cursor

variable {V : Vocabularies} {selection : Selection} {store : Store}

/-- **A scan reports what a full check finds.** If fields and bounds agree with the vocabularies,
where a bound starts after a text with a separator as well, and the stored keys conform, then
iterating a fresh scan of any range, just as walking it, gives the entries in the range in the order
of the store; or else the first ones and then an error, and the storage cursor shows its cause: its
last seek or its last advance failed, or it stands at a row of the range whose key is not text, or
from which a leap would have to move past an excluded lower bound without a value after it. -/
theorem reports_entriesIn (hbuilt : selection.Built)
    (hlaw : LawfulBounds V selection.fields selection.bounds)
    (hstarts : LawfulStarts V selection.fields selection.bounds)
    (hstore : Conform V selection.fields store.rows) (config : Config) (faults : FaultPlan)
    (range : KeyRange) :
    Reports (selection.entriesIn range store)
        (Cause selection faults (store.rowsIn (range.map Key.bytes))
          ((new selection config (.new store faults)).cursorIn range))
        ((new selection config (.new store faults)).itemsIn range) ∧
      (new selection config (.new store faults)).walkIn range =
        (new selection config (.new store faults)).itemsIn range := by
  have hcolumns := hbuilt.lawfulColumns hlaw hstarts
  obtain ⟨hreports, hwalk⟩ := reports_seek_new (c := .new store faults) hcolumns hstore rfl
  exact ⟨hreports, congrArg _ hwalk⟩

theorem reports_entriesIn_aboveLeast :
    Reports (Sample.aboveLeast.entriesIn .full Sample.store)
        (Cause Sample.aboveLeast .never (Sample.store.rowsIn (Interval.full.map Key.bytes))
          ((new Sample.aboveLeast {} (.new Sample.store .never)).cursorIn .full))
        ((new Sample.aboveLeast {} (.new Sample.store .never)).itemsIn .full) ∧
      (new Sample.aboveLeast {} (.new Sample.store .never)).walkIn .full =
        (new Sample.aboveLeast {} (.new Sample.store .never)).itemsIn .full :=
  reports_entriesIn Sample.built_aboveLeast Sample.lawfulBounds_aboveLeast
    Sample.lawfulStarts_aboveLeast (.of_forall_exists Sample.conforms_store) {} .never .full

end Scan

namespace Sample

/-- Grades of two characters. -/
def pairs : List Text := [['a', 'a'], ['b', 'a'], ['b', 'b']]

/-- A field whose values are such grades. It also steps two texts that are none: one with a
separator, and one of another length. -/
def paired (name : String) : Field :=
  .fixedIn name (.listed (['a', Text.separator] :: ['c'] :: pairs))

/-- Names whose grade is after a text with a separator. -/
def afterSeparator : Selection :=
  ⟨"rank", [.varying "name", paired "grade"],
    [.full, ⟨.excluded ['a', Text.separator], .unbounded⟩], none, rfl⟩

/-- Every fixed-length field has the pairs for its vocabulary. -/
def pairVocabularies : Vocabularies := fun _ ↦ .listed pairs 2 (by decide)

theorem built_afterSeparator : afterSeparator.Built :=
  .ofBounds (show Selection.ofBounds "rank" [.varying "name", paired "grade"]
    [.full, ⟨.excluded ['a', Text.separator], .unbounded⟩] = _ from rfl)

theorem isNext_paired {name : String} {v : Text} (hlen : v.length = 2) (hplain : v.Plain)
    {d : Domain} (hd : (paired name).domain? = some d) :
    (pairVocabularies name).IsNext v (d.successor v) := by
  cases hd
  have hseparator : ['a', Text.separator] ≠ v := by
    rintro rfl
    exact absurd hplain (by decide)
  have hlength : ['c'] ≠ v := by
    rintro rfl
    cases hlen
  have hskip : Domain.itemAfter (['a', Text.separator] :: ['c'] :: pairs) v =
      Domain.itemAfter pairs v := by
    simp [Domain.itemAfter, hseparator, hlength]
  simp only [Domain.listed, hskip]
  exact Vocabulary.isNext_listed (by decide) v

theorem lawfulBounds_afterSeparator :
    LawfulBounds pairVocabularies afterSeparator.fields afterSeparator.bounds := by
  refine List.forall_mem_cons.2 ⟨nofun, List.forall_mem_singleton.2 fun d hd ↦ ⟨fun v hv ↦ ?_,
    fun v hlen hplain ↦ isNext_paired hlen hplain hd⟩⟩
  rcases hv with hv | hv <;> cases hv
  rfl

/-- A name under each of the grades. -/
def pairStore : Store :=
  ⟨[⟨Key.bytes (.ofValues [['x'], ['a', 'a']]), []⟩,
    ⟨Key.bytes (.ofValues [['x'], ['b', 'a']]), []⟩,
    ⟨Key.bytes (.ofValues [['x'], ['b', 'b']]), []⟩], by decide⟩

instance (name : String) : DecidablePred (· ∈ pairVocabularies name) :=
  fun v ↦ inferInstanceAs (Decidable (v ∈ pairs))

theorem conform_pairStore : Conform pairVocabularies afterSeparator.fields pairStore.rows :=
  .of_forall_exists <| List.forall_mem_cons.2 ⟨⟨.ofValues [['x'], ['a', 'a']], by decide⟩,
    List.forall_mem_cons.2 ⟨⟨.ofValues [['x'], ['b', 'a']], by decide⟩,
      List.forall_mem_singleton.2 ⟨.ofValues [['x'], ['b', 'b']], by decide⟩⟩⟩

/-- A new scan of them that leaps at once. -/
def pairScan : Scan := .new afterSeparator ⟨0, none⟩ (.new pairStore .never)

/-- Its storage cursor at the first of them. -/
def atFirstPair : Cursor := (pairScan.cursor.seek .full).2

/-- Its storage cursor when the scan has leapt from there. -/
def pastPairs : Cursor :=
  (atFirstPair.seek (Interval.dropBefore .full (.ofValues [['x'], ['c']]))).2

end Sample

namespace Scan

/-- The first grade is out of range. The leap from there goes on at the text that is none, which is
behind the other two. -/
theorem itemsIn_pairScan : Sample.pairScan.itemsIn .full = [] := by
  have hleap : Search.move ⟨Sample.afterSeparator, 0, some .full⟩ (.stepping 0)
      Sample.atFirstPair = .goOn (.chasing (.ofValues [['x'], ['c']])) Sample.pastPairs := rfl
  have hover : Search.move ⟨Sample.afterSeparator, 0, some .full⟩
      (.chasing (.ofValues [['x'], ['c']])) Sample.pastPairs =
        .stop .exhausted Sample.pastPairs := rfl
  have hseek : Sample.pairScan.seek .full = (none, { Sample.pairScan with
      cursor := Sample.pastPairs, range := some .full, position := .exhausted }) :=
    congrArg ({ Sample.pairScan with range := some .full } : Scan).settle
      ((search_of_goOn hleap).trans (search_of_stop hover))
  rw [itemsIn, hseek, items_eq_walk Position.noConfusion rfl, walk_of_position_exhausted rfl]
  rfl

/-- Where a bound starts after a text with a separator and that text is not stepped to the least
value above it, entries are lost. -/
theorem not_reports_entriesIn_afterSeparator :
    Sample.afterSeparator.Built ∧
    LawfulBounds Sample.pairVocabularies Sample.afterSeparator.fields
      Sample.afterSeparator.bounds ∧
    Conform Sample.pairVocabularies Sample.afterSeparator.fields Sample.pairStore.rows ∧
    Sample.pairScan.itemsIn .full = [] ∧
    Sample.afterSeparator.entriesIn .full Sample.pairStore =
      [⟨.ofValues [['x'], ['b', 'a']], []⟩, ⟨.ofValues [['x'], ['b', 'b']], []⟩] ∧
    ∀ cause, ¬Reports (Sample.afterSeparator.entriesIn .full Sample.pairStore) cause
      (Sample.pairScan.itemsIn .full) := by
  have hentries : Sample.afterSeparator.entriesIn .full Sample.pairStore =
      [⟨.ofValues [['x'], ['b', 'a']], []⟩, ⟨.ofValues [['x'], ['b', 'b']], []⟩] := by decide
  refine ⟨Sample.built_afterSeparator, Sample.lawfulBounds_afterSeparator,
    Sample.conform_pairStore, itemsIn_pairScan, hentries, ?_⟩
  rintro cause (hall | ⟨found, e, -, -, hfound⟩)
  · rw [itemsIn_pairScan, hentries] at hall
    cases hall
  · rw [itemsIn_pairScan] at hfound
    simp at hfound

end Scan

namespace Selection

variable {V : Vocabularies} {mode : LegacyKeys} {attr : String} {fields : List Field}
  {constraints : List Constraint} {s : Selection} {key : Key}

/-! ## Keys that meet the constraints -/

theorem solves_take_of_met (hlen : fields.length ≤ key.values.length)
    (hkey : key.Conforms V fields) (hmet : Met constraints fields key.values) :
    Solves V fields constraints (key.values.take fields.length) := by
  have hlen' : fields.length = (key.values.take fields.length).length := by simp [hlen]
  have hzip := zip_append_of_length_eq fields hlen' (key.values.drop fields.length)
  rw [List.take_append_drop] at hzip
  rw [Constraint.met_iff] at hmet
  refine List.forall₂_iff_zip.2 ⟨hlen', fun {f v} hp ↦ ?_⟩
  rw [← hzip] at hp
  exact ⟨hkey _ hp, hmet _ hp⟩

theorem admits_and_mem_range {values : List Text} (extra : List Text)
    (h : List.Forall₂ Column.Aligned s.columns values) (hkey : values ++ extra = key.values)
    (hlegacy : ∀ v, s.legacy = some v → .ofValues [v] ≤ key) : s.Admits key ∧ key ∈ s.range := by
  have hmem : key ∈ Column.range s.columns := by
    have hin := Column.mem_range h extra (by rw [hkey]; exact key.values_ne_nil)
    rwa [hkey, key.ofValues_values] at hin
  constructor
  · refine admits_of_mem fun p hp ↦ ?_
    rw [← hkey, zip_append_of_length_eq _ h.length_eq] at hp
    exact (List.forall₂_zip h hp).mem
  · rw [range]
    split
    · next v hv => exact ⟨hlegacy v hv, hmem.2⟩
    · exact hmem

theorem ofValues_le_of_legacyOf {values : List Text} (extra : List Text)
    (hnodup : (fields.map Field.name).Nodup)
    (hvalues : Solves V fields constraints values) (hkey : values ++ extra = key.values) {v : Text}
    (hv : legacyOf mode fields constraints = some v) : .ofValues [v] ≤ key := by
  cases mode with
  | checked => cases hv
  | admitted =>
    cases hvalues with
    | nil => cases hv
    | @cons f w fields values hw _ =>
      rw [legacyOf, Constraint.terms_eq_map hnodup] at hv
      rw [← key.ofValues_values, ← hkey, List.cons_append]
      exact Key.ofValues_singleton_le_cons (hw.2.1.le hv) _

/-- No leap gets stuck if some values meet the constraints: where a lower value is left out, there
is one after it. -/
theorem not_stuck_of_met {bounds : List (Interval Text)} {values : List Text} {e : Error}
    (h : WellPosed V fields constraints)
    (hmerge : Constraint.merge attr fields constraints = .ok bounds)
    (hvalues : Solves V fields constraints values) :
    ¬Leap.Stuck attr (columnsOf fields bounds) e := by
  rintro ⟨c, hc, d, lo, cause, hd, hlo, hsucc, -⟩
  obtain ⟨f, hf, rfl, hwidens⟩ := exists_of_forall₂_mem (widens_columnsOf h hmerge) hc
  obtain ⟨v, -, htakes, hmem⟩ := exists_of_forall₂_mem hvalues.flip hf
  have hlomem := hwidens.spells_lower d hd lo (by rw [hlo]; rfl)
  have hlt := (hwidens.mem v htakes hmem).1
  have hnext := (h.steps _ hf d hd lo hlomem).1
  rw [hlo] at hlt
  rw [hsucc] at hnext
  cases cause with
  | exhausted last => exact hnext v ((Field.takes_iff_of_domain hd).1 htakes) hlt
  | outsideDomain value domain => exact hnext hlomem

end Selection

namespace Scan

variable {V : Vocabularies} {fields : List Field} {constraints : List Constraint} {store : Store}
  {row : Row} {key : Key}

/-- **No matching row is lost.** If a stored key carries a value for every field and meets all
constraints, the constraints are built into a selection, a scan of its whole range ends without an
error, and the entry is among those it reports. -/
theorem exists_report_of_met (h : WellPosed V fields constraints)
    (hstore : ∀ row ∈ store.rows, ∃ key, Key.ofBytes? row.key = some key ∧ key.Conforms V fields)
    (hrow : row ∈ store.rows) (hkey : Key.ofBytes? row.key = some key)
    (hlen : fields.length ≤ key.values.length) (hmet : Met constraints fields key.values)
    (mode : LegacyKeys) (attr : String) (config : Config) :
    ∃ selection sought, ∃ entries : List Entry,
      Selection.ofConstraints mode attr fields constraints = .ok selection ∧
      (new selection config (.new store .never)).start = (none, sought) ∧
      sought.items = entries.map .ok ∧ ⟨key, row.value⟩ ∈ entries := by
  have hconform := Conform.of_forall_exists hstore
  have hvalues := Selection.solves_take_of_met hlen (hconform row hrow key hkey) hmet
  have hsplit := List.take_append_drop fields.length key.values
  obtain ⟨selection, hbuild⟩ := Selection.exists_ofConstraints h hvalues mode attr
  obtain ⟨bounds, hsound, hmerge, rfl⟩ := Selection.ofConstraints_eq_ok_iff.1 hbuild
  have haligned := Selection.aligned_columnsOf h hmerge hvalues
  have hlaw := Selection.lawfulColumns_of_lawful (Selection.lawful_columnsOf h hmerge)
    (Selection.Built.ofConstraints hbuild).legacyAligned
  obtain ⟨hadm, hrange⟩ := Selection.admits_and_mem_range
    (s := ⟨attr, fields, bounds, Selection.legacyOf mode fields constraints, hsound⟩) _ haligned
    hsplit fun v ↦ Selection.ofValues_le_of_legacyOf _ h.nodup hvalues hsplit
  obtain ⟨hreports, -⟩ := reports_seek_new (c := .new store .never) hlaw hconform rfl
  obtain ⟨hnone, hitems⟩ := hreports.eq_of_forall_not fun e he ↦
    Selection.not_stuck_of_met h hmerge hvalues (he.stuck_of_never fun r hr ↦
      (hstore r (Store.mem_rowsIn.1 hr).1).imp fun _ ↦ And.left)
  refine ⟨_, _, _, hbuild, Prod.ext hnone rfl, hitems, ?_⟩
  exact Selection.mem_entriesIn.2
    ⟨hrange, row, hrow, Selection.entryOf?_eq_some_iff.2 ⟨hkey, hadm, rfl⟩⟩

theorem exists_report_of_met_grade :
    ∃ selection sought, ∃ entries : List Entry,
      Selection.ofConstraints .admitted "rank" Sample.fields
        [⟨"grade", .gt, ['a']⟩, ⟨"name", .lt, ['z']⟩] = .ok selection ∧
      (new selection {} (.new Sample.store .never)).start = (none, sought) ∧
      sought.items = entries.map .ok ∧ ⟨.ofValues [['d'], ['y']], [1]⟩ ∈ entries := by
  have hrow : ⟨Key.bytes (.ofValues [['d'], ['y']]), [1]⟩ ∈ Sample.store.rows := by decide
  refine exists_report_of_met ⟨⟨by decide, by decide, ?_, by decide⟩, by decide⟩
    Sample.conforms_store hrow (by decide) (by decide) (by decide) .admitted "rank" {}
  exact List.forall_mem_cons.2 ⟨Sample.steps_grade _, List.forall_mem_singleton.2 fun d hd ↦ by
    cases hd⟩

end Scan

end CompositeScan
