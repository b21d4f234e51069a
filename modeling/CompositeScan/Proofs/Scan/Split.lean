import CompositeScan.Proofs.Scan.Complete
import CompositeScan.Proofs.Stream.Merge
import CompositeScan.Scan.Split
import Mathlib.Data.List.Sort

/-!
# Splitting a scan does not change its result

Whatever the points, the parts into which a range is cut hold between them the keys of the range
(`KeyRange.mem_cut`), and each part comes before the next (`KeyRange.pairwise_cut`). The entries in
a range ascend, so the entries in the parts, one after the other, can only be those in the whole
range (`Selection.flatMap_entriesIn_cut`). What is left to show of a scan that is split is that none
of the parts fails, and then concatenating the parts or merging them gives the same entries as the
single scan does (`Scan.items_of_split`).

## Merging the parts

How the parts are merged is not settled here. All that is asked of a merge is that it hands out, at
each step, a head that goes before the others (`Merged`); and since entries of different keys can be
merged in one way only, this leaves it no choice (`Scan.eq_of_merged_partItems`). That a heap of
streams is a merge in this sense is a fact about heaps, and `Scan.mergeStreams_partItems` is the
case of it.

Points that lie outside the range, or come twice, or not in order, cut nothing off. So nothing is
asked of the points, and the cuts are dealt with one at a time.
-/

namespace CompositeScan

open Search (Cause Conform)

/-! ## Parts of a range -/

namespace Interval

variable {α : Type} [LinearOrder α] {r left right : Interval α} {x y : α}

theorem mem_split (h : r.split? x = some (left, right)) : y ∈ r ↔ y ∈ left ∨ y ∈ right := by
  rw [split?] at h
  split at h
  · next hx =>
    cases h
    constructor
    · rintro ⟨hlower, hupper⟩
      rcases lt_or_ge y x with hlt | hge
      · exact .inl ⟨hlower, hlt⟩
      · exact .inr ⟨hge, hupper⟩
    · rintro (⟨hlower, hlt⟩ | ⟨hge, hupper⟩)
      · exact ⟨hlower, hx.2.mono (le_of_lt hlt)⟩
      · exact ⟨hx.1.mono hge, hupper⟩
  · cases h

theorem lt_of_mem_split {z : α} (h : r.split? x = some (left, right)) (hy : y ∈ left)
    (hz : z ∈ right) : y < z := by
  rw [split?] at h
  split at h
  · cases h
    exact lt_of_lt_of_le (α := α) hy.2 hz.1
  · cases h

end Interval

namespace KeyRange

variable {k : Key}

theorem mem_cut (range : KeyRange) (points : List Key) :
    k ∈ range ↔ ∃ part ∈ cut range points, k ∈ part := by
  fun_induction cut range points with
  | case1 range => simp
  | case2 range point points left right hsplit ih =>
    rw [Interval.mem_split hsplit, ih, List.exists_mem_cons_iff]
  | case3 range point points hsplit ih => exact ih

theorem pairwise_cut (range : KeyRange) (points : List Key) :
    (cut range points).Pairwise fun a b ↦ ∀ x ∈ a, ∀ y ∈ b, x < y := by
  fun_induction cut range points with
  | case1 range => exact List.pairwise_singleton _ _
  | case2 range point points left right hsplit ih =>
    refine List.pairwise_cons.2 ⟨fun part hpart x hx y hy ↦ ?_, ih⟩
    exact Interval.lt_of_mem_split hsplit hx ((mem_cut _ _).2 ⟨part, hpart, hy⟩)
  | case3 range point points hsplit ih => exact ih

end KeyRange

/-! ## Entries of the parts -/

namespace Selection

variable {s : Selection} {range : KeyRange} {store : Store}

theorem mem_range_of_mem_entriesIn {entry : Entry} (h : entry ∈ s.entriesIn range store) :
    entry.key ∈ range := (mem_entriesIn.1 h).1

/-- The entries in the parts are together those in the range, in the same order. -/
theorem flatMap_entriesIn_cut (s : Selection) (range : KeyRange) (store : Store)
    (points : List Key) :
    (KeyRange.cut range points).flatMap (s.entriesIn · store) = s.entriesIn range store := by
  have hparts : ((KeyRange.cut range points).flatMap (s.entriesIn · store)).Pairwise
      fun a b ↦ a.key < b.key := by
    refine List.pairwise_flatMap.2 ⟨fun part _ ↦ pairwise_entriesIn s part store, ?_⟩
    refine (KeyRange.pairwise_cut range points).imp fun hbefore x hx y hy ↦ ?_
    exact hbefore _ (mem_range_of_mem_entriesIn hx) _ (mem_range_of_mem_entriesIn hy)
  -- Both lists ascend, so it is enough that they hold the same entries.
  have : Std.Asymm fun a b : Entry ↦ a.key < b.key := ⟨fun _ _ ↦ lt_asymm⟩
  refine hparts.eq_of_mem_iff (pairwise_entriesIn s range store) fun entry ↦ ?_
  simp only [List.mem_flatMap, mem_entriesIn, KeyRange.mem_cut range points]
  constructor
  · rintro ⟨part, hpart, hmem, hrow⟩
    exact ⟨⟨part, hpart, hmem⟩, hrow⟩
  · rintro ⟨⟨part, hpart, hmem⟩, hrow⟩
    exact ⟨part, hpart, hmem, hrow⟩

end Selection

/-! ## Split scans -/

namespace Scan

variable {V : Vocabularies} {selection : Selection} {cursor : Cursor}

/-- The items that the scans of the parts report. -/
def partItems (selection : Selection) (cursor : Cursor) (points : List Key) : List (List Item) :=
  (split selection cursor points).map fun part ↦ (drainSought part).1

theorem partItems_eq (hlaw : selection.LawfulColumns V)
    (hstore : Conform V selection.fields cursor.store.rows)
    (hcause : ∀ c e, ¬Cause selection cursor.faults cursor.store.rows c e) (points : List Key) :
    partItems selection cursor points =
      ((KeyRange.cut selection.range points).map (selection.entriesIn · cursor.store)).map
        (·.map .ok) := by
  rw [partItems, split, List.map_map, List.map_map]
  refine List.map_congr_left fun range _ ↦ ?_
  obtain ⟨sought, hseek, hitems⟩ := seek_new_eq_none (c := cursor.fork) hlaw hstore hcause {} range
  rw [Function.comp_apply, Function.comp_apply, part, hseek]
  exact hitems

/-- However the parts are merged, the entries in the range come out. -/
theorem eq_of_merged_partItems (hlaw : selection.LawfulColumns V)
    (hstore : Conform V selection.fields cursor.store.rows)
    (hcause : ∀ c e, ¬Cause selection cursor.faults cursor.store.rows c e) (points : List Key)
    {merged : List Item} (h : Merged (partItems selection cursor points) merged) :
    merged = (selection.entriesIn selection.range cursor.store).map .ok := by
  rw [partItems_eq hlaw hstore hcause points] at h
  exact h.eq_map_ok (Selection.flatMap_entriesIn_cut selection selection.range cursor.store points)
    (Selection.pairwise_entriesIn selection selection.range cursor.store)

/-- **Splitting does not change the result.** If no excluded lower bound is without a value after
it, storage never fails and the stored keys conform, then the parts into which points cut the range
of the selection have no key in common and hold between them the keys of the range; the entries of
the parts, one after the other, are those of the single scan, which ascend; and however the parts
are merged, the result is the same. -/
theorem items_of_split (hbuilt : selection.Built)
    (hlaw : LawfulBounds V selection.fields selection.bounds)
    (hstarts : LawfulStarts V selection.fields selection.bounds)
    (hnext : ∀ c ∈ selection.columns, ∀ d, c.field.domain? = some d → ∀ lo,
      c.bound.lower = .excluded lo → ∃ next, d.successor lo = .ok next)
    (hfaults : cursor.faults = .never)
    (hstore : ∀ row ∈ cursor.store.rows,
      ∃ key, Key.ofBytes? row.key = some key ∧ key.Conforms V selection.fields)
    (points : List Key) (config : Config) :
    ((KeyRange.cut selection.range points).Pairwise fun a b ↦ ∀ k, ¬(k ∈ a ∧ k ∈ b)) ∧
    (∀ k, k ∈ selection.range ↔ ∃ part ∈ KeyRange.cut selection.range points, k ∈ part) ∧
    ∃ sought, ∃ entries : List Entry,
      (new selection config cursor).start = (none, sought) ∧
      sought.items = entries.map .ok ∧
      (entries.Pairwise fun a b ↦ a.key < b.key) ∧
      (partItems selection cursor points).flatten = entries.map .ok ∧
      ∀ merged, Merged (partItems selection cursor points) merged → merged = entries.map .ok := by
  have hcolumns := hbuilt.lawfulColumns hlaw hstarts
  have hconform := Conform.of_forall_exists hstore
  -- Nothing is left that could end a scan before its time, be it of the whole range or of a part.
  have hcause : ∀ c e, ¬Cause selection cursor.faults cursor.store.rows c e := by
    rw [hfaults]
    exact Search.not_cause_of_never hnext fun row hrow ↦ (hstore row hrow).imp fun _ ↦ And.left
  obtain ⟨sought, hseek, hitems⟩ := seek_new_eq_none hcolumns hconform hcause config selection.range
  refine ⟨?_, fun k ↦ KeyRange.mem_cut _ _, sought, _, hseek, hitems,
    Selection.pairwise_entriesIn selection selection.range cursor.store, ?_,
    fun merged ↦ eq_of_merged_partItems hcolumns hconform hcause points⟩
  · exact (KeyRange.pairwise_cut _ _).imp fun hbefore k hk ↦ lt_irrefl k (hbefore k hk.1 k hk.2)
  · rw [partItems_eq hcolumns hconform hcause points, ← List.map_flatten,
      ← Selection.flatMap_entriesIn_cut selection selection.range cursor.store points]
    rfl

theorem items_of_split_aboveLeast :
    ((KeyRange.cut Sample.aboveLeast.range [.ofValues [['c']]]).Pairwise
      fun a b ↦ ∀ k, ¬(k ∈ a ∧ k ∈ b)) ∧
    (∀ k, k ∈ Sample.aboveLeast.range ↔
      ∃ part ∈ KeyRange.cut Sample.aboveLeast.range [.ofValues [['c']]], k ∈ part) ∧
    ∃ sought, ∃ entries : List Entry,
      (new Sample.aboveLeast {} (.new Sample.store .never)).start = (none, sought) ∧
      sought.items = entries.map .ok ∧
      (entries.Pairwise fun a b ↦ a.key < b.key) ∧
      (partItems Sample.aboveLeast (.new Sample.store .never) [.ofValues [['c']]]).flatten =
        entries.map .ok ∧
      ∀ merged,
        Merged (partItems Sample.aboveLeast (.new Sample.store .never) [.ofValues [['c']]]) merged →
          merged = entries.map .ok := by
  refine items_of_split Sample.built_aboveLeast Sample.lawfulBounds_aboveLeast
    Sample.lawfulStarts_aboveLeast (fun c hc d hd lo hlo ↦ ?_) rfl Sample.conforms_store _ {}
  rcases List.mem_cons.1 hc with rfl | hc
  · cases hd
    cases hlo
    exact ⟨['b'], by decide⟩
  · rcases List.mem_singleton.1 hc with rfl
    cases hd

/-- A heap of streams is one way to merge the parts. -/
theorem mergeStreams_partItems (hlaw : selection.LawfulColumns V)
    (hstore : Conform V selection.fields cursor.store.rows)
    (hcause : ∀ c e, ¬Cause selection cursor.faults cursor.store.rows c e) (points : List Key) :
    mergeStreams (partItems selection cursor points) =
      (selection.entriesIn selection.range cursor.store).map .ok := by
  refine eq_of_merged_partItems hlaw hstore hcause points (mergeStreams_merged fun items hmem ↦ ?_)
  rw [partItems_eq hlaw hstore hcause points] at hmem
  obtain ⟨_, hentries, rfl⟩ := List.mem_map.1 hmem
  obtain ⟨part, -, rfl⟩ := List.mem_map.1 hentries
  exact Item.ascending_map_ok.2 ((Selection.pairwise_entriesIn _ _ _).imp le_of_lt)

end Scan

end CompositeScan
