import CompositeScan.Interval
import CompositeScan.Text.Utf8

/-!
# The store

Rows of bytes under distinct keys of bytes, in ascending order of the keys. The order is part of the
type, so a range of keys is always a run of neighbouring rows. A store is a value: a cursor that was
made from it keeps seeing it as it was.

## Asking for a range

The rows between two ends are asked of an ordered map, and for ends that are crossed there is no
answer to be had from it. So `Store.first` takes a proof that its range can be searched, and whoever
asks has to look at the ends before. `Store.countAfter` is how progress is measured: to seek a key
further on leaves fewer rows after it.
-/

namespace CompositeScan

/-- A key with its value. -/
structure Row where
  /-- The key. -/
  key : Bytes
  /-- The value. -/
  value : Bytes
  deriving DecidableEq

/-- Puts a row into ascending rows, in place of one with the same key. -/
def insertRow (row : Row) : List Row → List Row
  | [] => [row]
  | r :: rows =>
    if row.key < r.key then row :: r :: rows
    else if row.key = r.key then row :: rows
    else r :: insertRow row rows

theorem mem_insertRow {row r : Row} {rows : List Row} (h : r ∈ insertRow row rows) :
    r = row ∨ r ∈ rows := by
  fun_induction insertRow row rows <;> grind

theorem pairwise_insertRow {row : Row} {rows : List Row}
    (h : rows.Pairwise fun a b ↦ a.key < b.key) :
    (insertRow row rows).Pairwise fun a b ↦ a.key < b.key := by
  fun_induction insertRow row rows with
  | case1 => simp
  | case2 r rows hlt =>
    refine List.pairwise_cons.2 ⟨fun s hs ↦ ?_, h⟩
    rcases List.mem_cons.1 hs with rfl | hs
    · exact hlt
    · exact List.lt_trans hlt ((List.pairwise_cons.1 h).1 s hs)
  | case3 r rows hlt heq =>
    exact List.pairwise_cons.2
      ⟨fun s hs ↦ heq ▸ (List.pairwise_cons.1 h).1 s hs, (List.pairwise_cons.1 h).2⟩
  | case4 r rows hlt hne ih =>
    obtain ⟨hr, hrows⟩ := List.pairwise_cons.1 h
    refine List.pairwise_cons.2 ⟨fun s hs ↦ ?_, ih hrows⟩
    rcases mem_insertRow hs with rfl | hs
    · exact Std.lt_of_le_of_ne (List.not_lt.1 hlt) (Ne.symm hne)
    · exact hr s hs

/-- Rows in ascending order of distinct keys. -/
structure Store where
  /-- The rows. -/
  rows : List Row
  /-- The keys ascend. -/
  sorted : rows.Pairwise fun a b ↦ a.key < b.key

namespace Store

/-- The store without rows. -/
def empty : Store := ⟨[], .nil⟩

/-- Inserts a row, in place of one with the same key. -/
def insert (s : Store) (key value : Bytes) : Store :=
  ⟨insertRow ⟨key, value⟩ s.rows, pairwise_insertRow s.sorted⟩

/-- The store of rows inserted in turn. -/
def ofRows (rows : List Row) : Store := rows.foldl (fun s r ↦ s.insert r.key r.value) empty

/-- The number of rows. -/
def size (s : Store) : Nat := s.rows.length

/-- The first row in a range. The store is an ordered map, which can not be asked for the rows
between ends that are crossed. -/
def first (s : Store) (range : Interval Bytes) (_h : range.Searchable) : Option Row :=
  s.rows.find? fun r ↦ r.key ∈ range

/-- How many rows lie after `key`. -/
def countAfter (s : Store) (key : Bytes) : Nat := s.rows.countP fun r ↦ key < r.key

/-- A row after `key` has fewer rows after it than `key` has. -/
theorem countAfter_lt {s : Store} {row : Row} {key : Bytes} (hrow : row ∈ s.rows)
    (hlt : key < row.key) : s.countAfter row.key < s.countAfter key := by
  obtain ⟨before, later, hrows⟩ := List.append_of_mem hrow
  simp only [countAfter, hrows, List.countP_append, List.countP_cons]
  have hle : ∀ l : List Row,
      l.countP (fun r ↦ row.key < r.key) ≤ l.countP fun r ↦ key < r.key := fun l ↦
    List.countP_mono_left fun r _ h ↦ by
      simp only [decide_eq_true_eq] at h ⊢
      exact List.lt_trans hlt h
  have h₁ := hle before
  have h₂ := hle later
  simp only [hlt, List.lt_irrefl, decide_true, decide_false, Bool.false_eq_true, if_true, if_false]
  omega

theorem countAfter_lt_size {s : Store} {row : Row} (hrow : row ∈ s.rows) :
    s.countAfter row.key < s.size := by
  obtain ⟨before, later, hrows⟩ := List.append_of_mem hrow
  have h₁ : before.countP (fun r ↦ row.key < r.key) ≤ before.length := List.countP_le_length
  have h₂ : later.countP (fun r ↦ row.key < r.key) ≤ later.length := List.countP_le_length
  simp only [countAfter, size, hrows, List.countP_append, List.countP_cons, List.length_append,
    List.length_cons, List.lt_irrefl, decide_false, Bool.false_eq_true, if_false]
  omega

end Store

end CompositeScan
