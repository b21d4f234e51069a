import CompositeScan.Proofs.Interval
import CompositeScan.Proofs.Key.Order
import CompositeScan.Store.Cursor

/-!
# What lies ahead of a cursor

A cursor is judged by the rows it stands before: the row at which it stands and those it would come
to by advancing (`Cursor.ahead`). Of the operations that succeed, a seek makes these the rows in
range, an advance drops the first of them, and a seek forward within the same range drops those
before its start. Nothing else about a cursor matters to a scan.

The rows ahead are rows of the store in their order, and so they are told apart by their keys; a
range that was moved forward has in it those rows of the old range that are at or after the new
start, which is why a seek can be seen as dropping rows. The ends are compared as bytes, and this
comes to the same as comparing keys (`Interval.bytes_mem_map_iff`).

An operation that fails has no equation here. It leaves the store alone and counts the attempt, and
by its number the failure is found in the plan (`Cursor.faults_of_seek`,
`Cursor.faults_of_advance`).
-/

namespace CompositeScan

namespace Key

variable {a b : Key}

theorem bytes_lt_bytes_iff : a.bytes < b.bytes ↔ a < b := by
  refine ⟨fun h ↦ ?_, bytes_lt_bytes⟩
  rcases lt_trichotomy a b with hlt | rfl | hgt
  · exact hlt
  · exact absurd h (lt_irrefl _)
  · exact absurd h (lt_asymm (bytes_lt_bytes hgt))

theorem bytes_le_bytes_iff : a.bytes ≤ b.bytes ↔ a ≤ b := by
  rw [← not_lt, bytes_lt_bytes_iff, not_lt]

end Key

theorem Interval.bytes_mem_map_iff {r : KeyRange} {key : Key} :
    key.bytes ∈ r.map Key.bytes ↔ key ∈ r := by
  obtain ⟨lower, upper⟩ := r
  have hlower : (lower.map Key.bytes).Below key.bytes ↔ lower.Below key := by
    cases lower with
    | unbounded => rfl
    | included lo => exact Key.bytes_le_bytes_iff
    | excluded lo => exact Key.bytes_lt_bytes_iff
  have hupper : (upper.map Key.bytes).Above key.bytes ↔ upper.Above key := by
    cases upper with
    | unbounded => rfl
    | included hi => exact Key.bytes_le_bytes_iff
    | excluded hi => exact Key.bytes_lt_bytes_iff
  exact and_congr hlower hupper

namespace Store

variable {s : Store} {range : Interval Bytes} {row : Row}

/-- The rows in a range. -/
def rowsIn (s : Store) (range : Interval Bytes) : List Row := s.rows.filter fun r ↦ r.key ∈ range

theorem mem_rowsIn : row ∈ s.rowsIn range ↔ row ∈ s.rows ∧ row.key ∈ range := by
  simp [rowsIn]

theorem pairwise_rowsIn : (s.rowsIn range).Pairwise fun a b ↦ a.key < b.key :=
  s.sorted.filter _

/-- Behind the first row in a range stand the rows that come after it and before the same end. -/
theorem rowsIn_eq_cons (h : s.rows.find? (fun r ↦ r.key ∈ range) = some row) :
    s.rowsIn range = row :: s.rowsIn ⟨.excluded row.key, range.upper⟩ := by
  obtain ⟨rows, sorted⟩ := s
  simp only [rowsIn] at h ⊢
  induction rows with
  | nil => cases h
  | cons r rows ih =>
    obtain ⟨hr, hrows⟩ := List.pairwise_cons.1 sorted
    by_cases hin : r.key ∈ range
    · rw [List.find?_cons_of_pos (by simpa using hin), Option.some_inj] at h
      subst h
      have hself : ¬r.key ∈ (⟨.excluded r.key, range.upper⟩ : Interval Bytes) := fun hmem ↦
        lt_irrefl r.key hmem.1
      rw [List.filter_cons_of_pos (by simpa using hin),
        List.filter_cons_of_neg (by simpa using hself)]
      congr 1
      refine List.filter_congr fun x hx ↦ ?_
      rw [decide_eq_decide]
      exact ⟨fun hmem ↦ ⟨hr x hx, hmem.2⟩, fun hmem ↦ ⟨hin.1.mono (hr x hx).le, hmem.2⟩⟩
    · rw [List.find?_cons_of_neg (by simpa using hin)] at h
      have hafter : r.key < row.key := hr row (List.mem_of_find?_eq_some h)
      have hout : ¬r.key ∈ (⟨.excluded row.key, range.upper⟩ : Interval Bytes) := fun hmem ↦
        lt_asymm hafter hmem.1
      rw [List.filter_cons_of_neg (by simpa using hin),
        List.filter_cons_of_neg (by simpa using hout)]
      exact ih hrows h

end Store

namespace Cursor

variable {c c' : Cursor} {range : KeyRange} {row : Row} {failure : Failure}

/-- The guard against crossed ends makes no difference to what is found, since no row lies between
them. -/
theorem firstRow_eq_find? (c : Cursor) (r : Interval Bytes) :
    c.firstRow r = c.store.rows.find? fun row ↦ row.key ∈ r := by
  rw [firstRow]
  split
  · next hcrossed =>
    symm
    rw [List.find?_eq_none]
    intro row _ hrow
    exact Interval.not_crossed_of_mem (by simpa using hrow) hcrossed
  · rfl

/-- The rows from where the cursor stands to the end of the range last sought. -/
def ahead (c : Cursor) : List Row :=
  match c.current with
  | some row => row :: c.store.rowsIn ⟨.excluded row.key, c.stop⟩
  | none => []

theorem ahead_of_current (h : c.current = some row) :
    c.ahead = row :: c.store.rowsIn ⟨.excluded row.key, c.stop⟩ := by
  rw [ahead, h]

theorem ahead_of_current_eq_none (h : c.current = none) : c.ahead = [] := by
  rw [ahead, h]

theorem ahead_of_firstRow {r : Interval Bytes} (hcur : c.current = c.firstRow r)
    (hstop : c.stop = r.upper) : c.ahead = c.store.rowsIn r := by
  rw [firstRow_eq_find?] at hcur
  cases hrow : c.store.rows.find? fun row ↦ row.key ∈ r with
  | some row =>
    rw [ahead_of_current (hcur.trans hrow), hstop]
    exact (Store.rowsIn_eq_cons hrow).symm
  | none =>
    rw [ahead_of_current_eq_none (hcur.trans hrow)]
    exact (List.filter_eq_nil_iff.2 (List.find?_eq_none.1 hrow)).symm

/-- What an operation that succeeds leaves alone. -/
structure SameStore (c c' : Cursor) : Prop where
  /-- The snapshot. -/
  store : c'.store = c.store
  /-- The plan of faults. -/
  faults : c'.faults = c.faults

theorem SameStore.refl (c : Cursor) : c.SameStore c := ⟨rfl, rfl⟩

theorem SameStore.trans {c₁ c₂ c₃ : Cursor} (h : c₁.SameStore c₂) (h' : c₂.SameStore c₃) :
    c₁.SameStore c₃ := ⟨h'.store.trans h.store, h'.faults.trans h.faults⟩

theorem seek_eq_none (h : c.seek range = (none, c')) :
    c.SameStore c' ∧ c'.stop = range.upper.map Key.bytes ∧
      c'.ahead = c.store.rowsIn (range.map Key.bytes) := by
  simp only [seek] at h
  split at h
  · cases h
  · cases h
    exact ⟨⟨rfl, rfl⟩, rfl, ahead_of_firstRow (r := range.map Key.bytes) rfl rfl⟩

theorem advance_eq_none (h : c.advance = (none, c')) :
    c.SameStore c' ∧ c'.stop = c.stop ∧ c'.ahead = c.ahead.tail := by
  simp only [advance] at h
  split at h
  · cases h
  · split at h
    · next hcur =>
      cases h
      refine ⟨⟨rfl, rfl⟩, rfl, ?_⟩
      rw [ahead_of_current_eq_none hcur, List.tail_nil]
      exact ahead_of_current_eq_none hcur
    · next row hcur =>
      cases h
      refine ⟨⟨rfl, rfl⟩, rfl, ?_⟩
      rw [ahead_of_current hcur, List.tail_cons]
      exact ahead_of_firstRow (r := ⟨.excluded row.key, c.stop⟩) rfl rfl

/-- A seek to a start further on, in the range last sought, drops the rows before that start. -/
theorem ahead_seek_dropBefore {start : Key} (h : c.seek (range.dropBefore start) = (none, c'))
    (hcur : c.current = some row) (hlt : row.key < start.bytes)
    (hstop : c.stop = range.upper.map Key.bytes) :
    c'.ahead = c.ahead.filter fun r ↦ start.bytes ≤ r.key := by
  obtain ⟨-, -, hahead⟩ := seek_eq_none h
  rw [hahead, ahead_of_current hcur, List.filter_cons_of_neg (by simpa using hlt), Store.rowsIn,
    Store.rowsIn, List.filter_filter]
  refine List.filter_congr fun r _ ↦ ?_
  rw [← Bool.decide_and, decide_eq_decide, hstop]
  exact ⟨fun hmem ↦ ⟨hmem.1, hlt.trans_le hmem.1, hmem.2⟩, fun hmem ↦ ⟨hmem.1, hmem.2.2⟩⟩

theorem faults_of_seek (h : c.seek range = (some failure, c')) :
    ∃ n, c'.attempts.seeks = n + 1 ∧ c.faults.seek n = some failure := by
  simp only [seek] at h
  split at h
  · next hfault =>
    cases h
    exact ⟨_, rfl, hfault⟩
  · cases h

theorem faults_of_advance (h : c.advance = (some failure, c')) :
    ∃ n, c'.attempts.advances = n + 1 ∧ c.faults.advance n = some failure := by
  simp only [advance] at h
  split at h
  · next hfault =>
    cases h
    exact ⟨_, rfl, hfault⟩
  · split at h <;> cases h

end Cursor

end CompositeScan
