import CompositeScan.Error
import CompositeScan.Store.Basic

/-!
# Cursors over a store

A cursor stands at a row of a snapshot, or nowhere. It can be sent to the first row of a range,
after which it sees only rows before the end of that range, and moved on by one row.

Storage may fail. A plan of faults says which attempts to seek and to advance do, by their number; a
failed attempt leaves the cursor where it was and does not count as use of the store.

## Attempts and use

Two tallies are kept because they answer different questions. Whether an attempt fails is settled by
how many were made, failed ones included, and an attempt to advance a cursor that stands nowhere is
one of them. What was used of the store is what a caller is told, and there a failed attempt and an
advance from nowhere are left out.

A fork makes no use of the store and begins with none, but goes on counting attempts where the
cursor was, so that it meets the failures that lie ahead.
-/

namespace CompositeScan

/-- A number of seeks and a number of advances. -/
structure Tally where
  /-- The seeks. -/
  seeks : Nat := 0
  /-- The advances. -/
  advances : Nat := 0
  deriving DecidableEq

namespace Tally

/-- One more seek. -/
def countSeek (t : Tally) : Tally := { t with seeks := t.seeks + 1 }

/-- One more advance. -/
def countAdvance (t : Tally) : Tally := { t with advances := t.advances + 1 }

/-- Both together. -/
def add (s t : Tally) : Tally := ⟨s.seeks + t.seeks, s.advances + t.advances⟩

/-- All together. -/
def sum (tallies : List Tally) : Tally := tallies.foldl add {}

end Tally

/-- Which attempts to use the storage fail, counted from zero, and how. -/
structure FaultPlan where
  /-- The failure of the seek of a number. -/
  seek : Nat → Option Failure
  /-- The failure of the advance of a number. -/
  advance : Nat → Option Failure

namespace FaultPlan

/-- Storage that never fails. -/
def never : FaultPlan := ⟨fun _ ↦ none, fun _ ↦ none⟩

/-- Storage that fails once it was used a number of times, if a number is given. -/
def after (seeks advances : Option Nat) (failure : Failure) : FaultPlan where
  seek n := if seeks.any (· ≤ n) then some failure else none
  advance n := if advances.any (· ≤ n) then some failure else none

end FaultPlan

/-- A position in a snapshot of a store. -/
structure Cursor where
  /-- The snapshot. -/
  store : Store
  /-- Which attempts fail. -/
  faults : FaultPlan
  /-- The attempts made so far. -/
  attempts : Tally
  /-- The use made of the store: the attempts that did not fail. -/
  usage : Tally
  /-- The end of the range last sought. -/
  stop : Bound Bytes
  /-- The row at which the cursor stands. -/
  current : Option Row

namespace Cursor

/-- A cursor that stands nowhere yet. -/
def new (store : Store) (faults : FaultPlan) : Cursor := ⟨store, faults, {}, {}, .unbounded, none⟩

/-- The first row in a range of bytes. Where the ends are crossed there is none, and the store is
not asked. -/
def firstRow (c : Cursor) (range : Interval Bytes) : Option Row :=
  if h : range.Crossed then none
  else c.store.first range (Interval.searchable_of_not_crossed h)

/-- Goes to the first row of a range of keys. -/
def seek (c : Cursor) (range : KeyRange) : Option Failure × Cursor :=
  let tried := { c with attempts := c.attempts.countSeek }
  match c.faults.seek c.attempts.seeks with
  | some failure => (some failure, tried)
  | none =>
    let range := range.map Key.bytes
    (none, { tried with
      usage := c.usage.countSeek, stop := range.upper, current := c.firstRow range })

/-- Goes to the next row of the range last sought. -/
def advance (c : Cursor) : Option Failure × Cursor :=
  let tried := { c with attempts := c.attempts.countAdvance }
  match c.faults.advance c.attempts.advances with
  | some failure => (some failure, tried)
  | none =>
    match c.current with
    | none => (none, tried)
    | some row =>
      (none, { tried with
        usage := c.usage.countAdvance, current := c.firstRow ⟨.excluded row.key, c.stop⟩ })

/-- An independent cursor on the same snapshot that stands nowhere yet and will meet the failures
this one would meet. -/
def fork (c : Cursor) : Cursor :=
  { c with usage := {}, stop := .unbounded, current := none }

/-! ## How much is left -/

/-- How many rows there are at the cursor and after it. -/
def remaining (c : Cursor) : Nat :=
  match c.current with
  | some row => c.store.countAfter row.key + 1
  | none => 0

theorem mem_of_firstRow {c : Cursor} {range : Interval Bytes} {row : Row}
    (h : c.firstRow range = some row) : row ∈ c.store.rows ∧ row.key ∈ range := by
  rw [firstRow] at h
  split at h
  · cases h
  · exact ⟨List.mem_of_find?_eq_some h, by simpa using List.find?_some h⟩

@[simp] theorem store_seek (c : Cursor) (range : KeyRange) : (c.seek range).2.store = c.store := by
  simp only [seek]; split <;> rfl

@[simp] theorem store_advance (c : Cursor) : c.advance.2.store = c.store := by
  simp only [advance]
  split
  · rfl
  · split <;> rfl

theorem seeks_usage_of_seek_eq_some {c c' : Cursor} {range : KeyRange} {failure : Failure}
    (h : c.seek range = (some failure, c')) : c'.usage.seeks = c.usage.seeks := by
  simp only [seek] at h
  split at h <;> cases h
  rfl

theorem seeks_usage_of_seek_eq_none {c c' : Cursor} {range : KeyRange}
    (h : c.seek range = (none, c')) : c'.usage.seeks = c.usage.seeks + 1 := by
  simp only [seek] at h
  split at h <;> cases h
  rfl

theorem seeks_usage_of_advance {c c' : Cursor} {failure : Option Failure}
    (h : c.advance = (failure, c')) : c'.usage.seeks = c.usage.seeks := by
  simp only [advance] at h
  split at h
  · cases h
    rfl
  · split at h <;> cases h <;> rfl

/-- A seek past a key leaves no more rows than there are after that key. -/
theorem remaining_seek_le {c : Cursor} {range : KeyRange} {key : Bytes}
    (hok : (c.seek range).1 = none)
    (hafter : ∀ x, (range.lower.map Key.bytes).Below x → key < x) :
    (c.seek range).2.remaining ≤ c.store.countAfter key := by
  simp only [seek] at hok ⊢
  split at hok
  · simp at hok
  · simp only [remaining, *]
    split
    · next row hrow =>
      obtain ⟨hmem, hin⟩ := mem_of_firstRow hrow
      exact Store.countAfter_lt hmem (hafter _ hin.1)
    · exact Nat.zero_le _

theorem remaining_seek_le_size {c : Cursor} {range : KeyRange} (hok : (c.seek range).1 = none) :
    (c.seek range).2.remaining ≤ c.store.size := by
  simp only [seek] at hok ⊢
  split at hok
  · simp at hok
  · simp only [remaining, *]
    split
    · next row hrow => exact Store.countAfter_lt_size (mem_of_firstRow hrow).1
    · exact Nat.zero_le _

/-- An advance leaves fewer rows, if there were any. -/
theorem remaining_advance_lt {c : Cursor} (hok : c.advance.1 = none) (hcur : c.current.isSome) :
    c.advance.2.remaining < c.remaining := by
  obtain ⟨row, hrow⟩ := Option.isSome_iff_exists.1 hcur
  simp only [advance, hrow] at hok ⊢
  split at hok
  · simp at hok
  · simp only [remaining, *]
    split
    · next next hnext =>
      obtain ⟨hmem, hin⟩ := mem_of_firstRow hnext
      exact Nat.succ_lt_succ (Store.countAfter_lt hmem hin.1)
    · exact Nat.succ_pos _

end Cursor

end CompositeScan
