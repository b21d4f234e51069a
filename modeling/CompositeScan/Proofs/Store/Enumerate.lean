import CompositeScan.Proofs.Store.Ahead
import Mathlib.Data.List.Induction

/-!
# A cursor enumerates a range

A cursor that was sent to a range and is advanced until it stands nowhere comes to each row of the
range once, in the order of the keys, with the value inserted last (`Cursor.seek_enumerates`). The
rows are those inserted before the cursor was made: it has its own copy of the store.

Rows are stored under bytes, ranges are given by keys. That the two agree is because the stored form
of keys has the order of keys and is read back without loss, so among the rows under keys that are
text the cursor comes to those of the keys in the range, in the order of keys.

## Crossed ends

A store is an ordered map, and to ask such a map for the rows between crossed ends is an error from
which there is no recovery. The ends of a range are not checked when it is made, and a cursor that
stands at the last row before an excluded end asks for the rows between the two. Each time it is the
cursor that looks at the ends first (`Cursor.firstRow_of_crossed_or_searchable`).
-/

namespace CompositeScan

namespace Key

variable {bytes : Bytes} {k : Key}

theorem ofBytes?_eq_some_iff : ofBytes? bytes = some k ↔ bytes = k.bytes := by
  constructor
  · intro h
    exact (bytes_eq_of_ofBytes? h).symm
  · rintro rfl
    exact k.ofBytes?_bytes

end Key

/-! ## The rows of a store -/

/-- The row is the last one inserted under its key. -/
def Latest (inserts : List Row) (row : Row) : Prop :=
  ∃ before later, inserts = before ++ row :: later ∧ ∀ r ∈ later, r.key ≠ row.key

variable {inserts rows : List Row} {row r : Row}

theorem latest_concat_iff :
    Latest (inserts ++ [r]) row ↔ row = r ∨ Latest inserts row ∧ row.key ≠ r.key := by
  constructor
  · rintro ⟨before, later, hinserts, hlater⟩
    rcases List.eq_nil_or_concat later with rfl | ⟨later, last, rfl⟩
    · left
      exact (List.append_inj_right' hinserts rfl |> List.singleton_inj.1).symm
    · right
      rw [List.concat_eq_append, ← List.cons_append, ← List.append_assoc] at hinserts
      obtain ⟨rfl, hlast⟩ := List.append_inj' hinserts rfl
      rw [List.singleton_inj] at hlast
      subst hlast
      refine ⟨⟨before, later, rfl, fun x hx ↦ hlater x (by simp [hx])⟩, ?_⟩
      exact (hlater r (by simp)).symm
  · rintro (rfl | ⟨⟨before, later, rfl, hlater⟩, hne⟩)
    · exact ⟨inserts, [], rfl, nofun⟩
    · refine ⟨before, later ++ [r], by simp, fun x hx ↦ ?_⟩
      rcases List.mem_append.1 hx with hx | hx
      · exact hlater x hx
      · rw [List.mem_singleton.1 hx]
        exact hne.symm

theorem mem_insertRow_iff (h : rows.Pairwise fun a b ↦ a.key < b.key) :
    r ∈ insertRow row rows ↔ r = row ∨ r ∈ rows ∧ r.key ≠ row.key := by
  fun_induction insertRow row rows with
  | case1 => simp
  | case2 first rows hlt =>
    -- All rows are after the one inserted.
    have hafter : ∀ x ∈ first :: rows, x.key ≠ row.key := by
      intro x hx
      rcases List.mem_cons.1 hx with rfl | hx
      · exact hlt.ne'
      · exact (hlt.trans ((List.pairwise_cons.1 h).1 x hx)).ne'
    rw [List.mem_cons, and_iff_left_of_imp (hafter r)]
  | case3 first rows hlt heq =>
    have hafter : ∀ x ∈ rows, x.key ≠ row.key := fun x hx ↦
      (heq ▸ (List.pairwise_cons.1 h).1 x hx).ne'
    rw [List.mem_cons, List.mem_cons]
    refine or_congr_right ⟨fun hr ↦ ⟨.inr hr, hafter r hr⟩, ?_⟩
    rintro ⟨rfl | hr, hne⟩
    · exact absurd heq.symm hne
    · exact hr
  | case4 first rows hlt hne ih =>
    rw [List.mem_cons, ih (List.pairwise_cons.1 h).2, List.mem_cons]
    constructor
    · rintro (rfl | rfl | ⟨hr, hkey⟩)
      · exact .inr ⟨.inl rfl, Ne.symm hne⟩
      · exact .inl rfl
      · exact .inr ⟨.inr hr, hkey⟩
    · rintro (rfl | ⟨rfl | hr, hkey⟩)
      · exact .inr (.inl rfl)
      · exact .inl rfl
      · exact .inr (.inr ⟨hr, hkey⟩)

/-- A store holds each row that is the last one inserted under its key. -/
theorem Store.mem_ofRows_iff : row ∈ (ofRows inserts).rows ↔ Latest inserts row := by
  induction inserts using List.reverseRecOn with
  | nil =>
    refine iff_of_false List.not_mem_nil ?_
    rintro ⟨before, later, hinserts, -⟩
    simp at hinserts
  | append_singleton inserts r ih =>
    have hrows : (ofRows (inserts ++ [r])).rows = insertRow r (ofRows inserts).rows := by
      rw [ofRows, List.foldl_append]
      rfl
    rw [hrows, mem_insertRow_iff (ofRows inserts).sorted, ih, latest_concat_iff]

theorem exists_latest_iff {key : Bytes} :
    (∃ row, Latest inserts row ∧ row.key = key) ↔ ∃ row ∈ inserts, row.key = key := by
  constructor
  · rintro ⟨row, ⟨before, later, rfl, -⟩, hkey⟩
    exact ⟨row, by simp, hkey⟩
  · rintro ⟨row, hrow, hkey⟩
    induction inserts using List.reverseRecOn with
    | nil => cases hrow
    | append_singleton inserts r ih =>
      by_cases hr : r.key = key
      · exact ⟨r, latest_concat_iff.2 (.inl rfl), hr⟩
      · rcases List.mem_append.1 hrow with hrow | hrow
        · obtain ⟨last, hlast, hlastkey⟩ := ih hrow
          refine ⟨last, latest_concat_iff.2 (.inr ⟨hlast, ?_⟩), hlastkey⟩
          rw [hlastkey]
          exact Ne.symm hr
        · rw [List.mem_singleton.1 hrow] at hkey
          exact absurd hkey hr

namespace Cursor

variable {c : Cursor} {range : KeyRange}

/-! ## Advancing to the end -/

/-- The rows to which a cursor comes: that at which it stands and, as long as advancing succeeds,
those after it. -/
def visit (c : Cursor) : List Row :=
  match _h : c.current with
  | none => []
  | some row =>
    match _hadv : c.advance with
    | (none, c') => row :: c'.visit
    | (some _, _) => [row]
termination_by c.remaining
decreasing_by
  have hlt := remaining_advance_lt (c := c) (by rw [_hadv]) (by simp [_h])
  rwa [_hadv] at hlt

/-- A cursor over storage that never fails comes to all rows ahead. -/
theorem visit_eq_ahead (h : c.faults = .never) : c.visit = c.ahead := by
  fun_induction visit c with
  | case1 c hcur => rw [ahead_of_current_eq_none hcur]
  | case2 c row hcur c' hadv ih =>
    obtain ⟨hsame, -, hahead⟩ := advance_eq_none hadv
    rw [ih (hsame.faults.trans h), hahead, ahead_of_current hcur, List.tail_cons]
  | case3 c row hcur failure c' hadv =>
    obtain ⟨n, -, hn⟩ := faults_of_advance hadv
    rw [h] at hn
    cases hn

/-- The rows under keys that are text, by their keys. -/
def visitKeys (c : Cursor) : List Key := c.visit.filterMap fun row ↦ Key.ofBytes? row.key

/-- The first row in a range is searched only where the store can be asked for it. -/
theorem firstRow_of_crossed_or_searchable (c : Cursor) (r : Interval Bytes) :
    r.Crossed ∧ c.firstRow r = none ∨
      ∃ h : r.Searchable, c.firstRow r = c.store.first r h := by
  rw [firstRow]
  split
  · next hcrossed => exact .inl ⟨hcrossed, rfl⟩
  · next hcrossed => exact .inr ⟨Interval.searchable_of_not_crossed hcrossed, rfl⟩

/-- The cursor comes to just the rows of a range, of those inserted. -/
structure Enumerates (inserts : List Row) (range : KeyRange) (c : Cursor) : Prop where
  /-- The rows ascend, so that each is visited once. -/
  ascending : c.visit.Pairwise fun a b ↦ a.key < b.key
  /-- They are the last ones inserted under their keys, of the keys in the range. -/
  mem_visit_iff : ∀ row, row ∈ c.visit ↔ Latest inserts row ∧ row.key ∈ range.map Key.bytes
  /-- As keys, too, those that are text ascend. -/
  keys_ascending : c.visitKeys.Pairwise (· < ·)
  /-- They are the keys in the range under which a row was inserted. -/
  mem_visitKeys_iff : ∀ k, k ∈ c.visitKeys ↔ k ∈ range ∧ ∃ row ∈ inserts, row.key = k.bytes

theorem enumerates_of_visit_eq (h : c.visit = (Store.ofRows inserts).rowsIn (range.map Key.bytes)) :
    c.Enumerates inserts range where
  ascending := h ▸ Store.pairwise_rowsIn
  mem_visit_iff row := by rw [h, Store.mem_rowsIn, Store.mem_ofRows_iff]
  keys_ascending := by
    rw [visitKeys, h]
    refine Store.pairwise_rowsIn.filterMap _ fun row row' hlt k hk k' hk' ↦ ?_
    rw [Key.ofBytes?_eq_some_iff] at hk hk'
    rwa [hk, hk', Key.bytes_lt_bytes_iff] at hlt
  mem_visitKeys_iff k := by
    rw [visitKeys, h, List.mem_filterMap, ← exists_latest_iff]
    constructor
    · rintro ⟨row, hrow, hk⟩
      rw [Key.ofBytes?_eq_some_iff] at hk
      obtain ⟨hmem, hin⟩ := Store.mem_rowsIn.1 hrow
      rw [hk, Interval.bytes_mem_map_iff] at hin
      exact ⟨hin, row, Store.mem_ofRows_iff.1 hmem, hk⟩
    · rintro ⟨hin, row, hlatest, hk⟩
      refine ⟨row, Store.mem_rowsIn.2 ⟨Store.mem_ofRows_iff.2 hlatest, ?_⟩, ?_⟩
      · rwa [hk, Interval.bytes_mem_map_iff]
      · exact Key.ofBytes?_eq_some_iff.2 hk

/-- **A cursor enumerates the range it is sent to.** However the store was filled, and whatever a
cursor over it did before, to send it to a range and advance it to the end visits the rows in the
range, and never asks the store for rows between crossed ends. The order of the bytes and that of
the keys are one, and of the bytes exactly the stored forms of keys are read, each as its key. -/
theorem seek_enumerates (c : Cursor) (inserts : List Row) (range : KeyRange) :
    let taken : Cursor := { c with store := .ofRows inserts, faults := .never }
    (taken.seek range).1 = none ∧ (taken.seek range).2.Enumerates inserts range ∧
      (∀ (c' : Cursor) (r : Interval Bytes), r.Crossed ∧ c'.firstRow r = none ∨
        ∃ h : r.Searchable, c'.firstRow r = c'.store.first r h) ∧
      (∀ a b : Key, a.bytes < b.bytes ↔ a < b) ∧
      ∀ bytes k, Key.ofBytes? bytes = some k ↔ bytes = k.bytes := by
  intro taken
  have hseek : taken.seek range = (none, (taken.seek range).2) := rfl
  obtain ⟨hsame, -, hahead⟩ := seek_eq_none hseek
  refine ⟨rfl, enumerates_of_visit_eq ?_, firstRow_of_crossed_or_searchable,
    fun _ _ ↦ Key.bytes_lt_bytes_iff, fun _ _ ↦ Key.ofBytes?_eq_some_iff⟩
  rw [visit_eq_ahead hsame.faults, hahead]

end Cursor

end CompositeScan
