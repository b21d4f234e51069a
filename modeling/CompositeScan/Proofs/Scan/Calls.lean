import CompositeScan.Proofs.Scan.Progress

/-!
# Calls on a scan

A scan is used by calls: it is sent to a range, advanced, asked for an item or forked, in any order,
and its storage may fail at any time. A fork goes its own way, so the past of a scan is one line of
calls: those on the scan it was forked from, up to the fork, and then its own. `Scan.run` makes such
a line of calls, and `Scan.lastRange` reads off to which range the scan was last sent.

## The invariant

`Scan.Descends` is what every call keeps (`Scan.Descends.after`). Between calls the scan and its
storage cursor may disagree in one way only: after a fork the scan stands at an entry and its cursor
nowhere. Otherwise the cursor stands at the row of the entry and sees the range to its end. All rows
that a call looks at lie in the range to which the scan was last sent, and that is why the entry it
stops at does.

## What does not enter

The invariant does not say how the scan came by its calls, nor which of them failed: an error leaves
a scan exhausted, and nothing is claimed of an exhausted scan but that its selection, its snapshot
and its range are the old ones. So storage that fails costs the proof nothing, and a line of calls
is dealt with one call at a time.
-/

namespace CompositeScan

/-- A call on a scan. -/
inductive Call where
  /-- Sends the scan to a range. -/
  | seek (range : KeyRange)
  /-- Sends the scan to the whole range of its selection. -/
  | start
  /-- Moves the scan to the next entry. -/
  | advance
  /-- Asks for the next item. -/
  | next
  /-- Forks the scan, to go on with the fork. -/
  | fork
  deriving DecidableEq

/-! ## Storage -/

namespace Cursor

variable {c c' : Cursor} {row : Row}

theorem mem_ahead_of_current (h : c.current = some row) : row ∈ c.ahead := by
  rw [ahead_of_current h]
  exact List.mem_cons_self

theorem sameStore_seek (c : Cursor) (range : KeyRange) : c.SameStore (c.seek range).2 := by
  rcases hmoved : c.seek range with ⟨_ | failure, c'⟩
  · exact (seek_eq_none hmoved).1
  · obtain ⟨attempts, rfl⟩ := exists_attempts_of_seek hmoved
    exact ⟨rfl, rfl⟩

theorem sameStore_advance (c : Cursor) : c.SameStore c.advance.2 := by
  rcases hmoved : c.advance with ⟨_ | failure, c'⟩
  · exact (advance_eq_none hmoved).1
  · obtain ⟨attempts, rfl⟩ := exists_attempts_of_advance hmoved
    exact ⟨rfl, rfl⟩

theorem current_advance_eq_none (h : c.advance = (none, c')) (hcur : c.current = none) :
    c'.current = none := by
  simp only [advance, hcur] at h
  split at h
  · cases h
  · cases h
    rfl

end Cursor

theorem search_of_current_eq_none {goal : Search.Goal} {pace : Search.Pace} {c : Cursor}
    (h : c.current = none) : search goal pace c = (.exhausted, c) := by
  apply search_of_stop
  rw [Search.move, h]

namespace Scan

variable {s first : Scan} {last : Option KeyRange} {range : KeyRange} {entry : Entry} {e : Error}
  {reseek : Bool}

/-! ## Pasts -/

/-- A new scan of a store. Its storage cursor stands nowhere yet. -/
def fresh (selection : Selection) (config : Config) (store : Store) (faults : FaultPlan) : Scan :=
  new selection config (.new store faults)

/-- The scan after a call. -/
def after (s : Scan) : Call → Scan
  | .seek range => (s.seek range).2
  | .start => s.start.2
  | .advance => s.advance.2
  | .next => s.next.2
  | .fork => s.fork

/-- The scan after calls, one after the other. -/
def run (s : Scan) (calls : List Call) : Scan := calls.foldl after s

/-- The range to which a call sends the scan. A scan that was not sought yet is sent to its whole
range when it is asked for an item. -/
def rangeOf (s : Scan) : Call → Option KeyRange
  | .seek range => some range
  | .start => some s.selection.range
  | .next => if s.position = .unsought ∧ s.deferred = none then some s.selection.range else none
  | .advance => none
  | .fork => none

/-- The range to which calls send the scan last. -/
def lastRange (s : Scan) : List Call → Option KeyRange
  | [] => none
  | call :: calls => ((s.after call).lastRange calls).or (s.rangeOf call)

/-! ## What calls come down to -/

/-- A scan is as its search leaves it, if the first move ends the search. -/
theorem resume_of_stop (finding : Finding) {c c' : Cursor}
    (h : Search.move s.goal (.stepping 0) c = .stop finding c') :
    s.resume (none, c) = s.settle (finding, c') := by
  rw [resume, search_of_stop h]

theorem next_of_deferred (h : s.deferred = some e) :
    s.next = (some (.error e), { s with deferred := none }) := by
  rw [next, h]

theorem next_of_sought (hpos : s.position ≠ .unsought) (hdef : s.deferred = none) :
    s.next = s.yieldCurrent := by
  simp only [next, hdef]

theorem next_of_start {sought : Scan} (hpos : s.position = .unsought) (hdef : s.deferred = none)
    (h : s.start = (none, sought)) : s.next = sought.yieldCurrent := by
  simp only [next, hdef, hpos, h]

theorem next_of_start_eq_some {sought : Scan} (hpos : s.position = .unsought)
    (hdef : s.deferred = none) (h : s.start = (some e, sought)) :
    s.next = (some (.error e), sought) := by
  simp only [next, hdef, hpos, h]

theorem yieldCurrent_of_on (h : s.position = .on entry reseek) :
    s.yieldCurrent = (some (.ok entry), { s.advance.2 with deferred := s.advance.1 }) := by
  simp only [yieldCurrent, h]

theorem position_ne_unsought_of_exhausted (h : s.position = .exhausted) :
    s.position ≠ .unsought := by
  rw [h]
  exact Position.noConfusion

theorem yieldCurrent_of_exhausted (h : s.position = .exhausted) : s.yieldCurrent = (none, s) := by
  simp only [yieldCurrent, h]

theorem next_of_exhausted (h : s.position = .exhausted) (hdef : s.deferred = none) :
    s.next = (none, s) := by
  rw [next_of_sought (position_ne_unsought_of_exhausted h) hdef, yieldCurrent_of_exhausted h]

theorem position_of_fork_eq_unsought (h : s.fork.position = .unsought) :
    s.position = .unsought := by
  rcases hpos : s.position with _ | _ | _ <;> simp [fork, hpos] at h ⊢

theorem position_of_fork_eq_on (h : s.fork.position = .on entry reseek) :
    reseek = true ∧ ∃ reseek', s.position = .on entry reseek' := by
  rcases hpos : s.position with _ | _ | _ <;> simp [fork, hpos] at h ⊢
  exact ⟨h.2, h.1⟩

/-! ## The invariant -/

/-- An entry of the store, in a range, whose key is admitted. -/
structure EntryIn (selection : Selection) (store : Store) (range : KeyRange) (entry : Entry) :
    Prop where
  /-- Its value is stored under its key. -/
  stored : ⟨entry.key.bytes, entry.value⟩ ∈ store.rows
  /-- Its key is admitted. -/
  admits : selection.Admits entry.key
  /-- Its key is in the range. -/
  mem : entry.key ∈ range

/-- What is true of a scan between calls. The calls began with `first` and last sent the scan to
`last`. -/
structure Descends (s first : Scan) (last : Option KeyRange) : Prop where
  /-- The selection is the same. -/
  selection_eq : s.selection = first.selection
  /-- So is the configuration. -/
  config_eq : s.config = first.config
  /-- So are the snapshot and the plan of faults. -/
  sameStore : first.cursor.SameStore s.cursor
  /-- The range is the one last sought. -/
  range_eq : s.range = last
  /-- A scan that was not sought was sent nowhere, and no more was its cursor. -/
  unsought : s.position = .unsought →
    last = none ∧ s.deferred = none ∧ s.cursor.current = none
  /-- A scan that stands at an entry was sent to a range with the entry in it. Its cursor stands at
  the row of the entry, unless it has to seek it again. -/
  on : ∀ {entry reseek}, s.position = .on entry reseek → ∃ range, last = some range ∧
    EntryIn first.selection first.cursor.store range entry ∧
    (reseek = false → s.cursor.stop = range.upper.map Key.bytes ∧
      s.cursor.current = some ⟨entry.key.bytes, entry.value⟩)

theorem descends_fresh (selection : Selection) (config : Config) (store : Store)
    (faults : FaultPlan) :
    (fresh selection config store faults).Descends (fresh selection config store faults) none :=
  ⟨rfl, rfl, .refl _, rfl, fun _ ↦ ⟨rfl, rfl, rfl⟩, nofun⟩

/-- Nothing is asked of the storage cursor of a scan that is exhausted. -/
theorem descends_of_exhausted (hselection : s.selection = first.selection)
    (hconfig : s.config = first.config) (hstore : first.cursor.SameStore s.cursor)
    (hrange : s.range = last) (hpos : s.position = .exhausted) : s.Descends first last := by
  refine ⟨hselection, hconfig, hstore, hrange, ?_, ?_⟩
  · intro h
    rw [hpos] at h
    cases h
  · intro entry reseek h
    rw [hpos] at h
    cases h

/-- A scan goes on to an entry in its range, if all rows do that lie ahead of its storage cursor. -/
theorem descends_resume {moved : Option Failure × Cursor}
    (hselection : s.selection = first.selection) (hconfig : s.config = first.config)
    (hstore : first.cursor.SameStore moved.2) (hrange : s.range = some range)
    (hmoved : moved.1 = none → moved.2.stop = range.upper.map Key.bytes ∧
      moved.2.ahead ⊆ first.cursor.store.rowsIn (range.map Key.bytes)) :
    (s.resume moved).2.Descends first (some range) := by
  obtain ⟨_ | failure, c⟩ := moved
  · obtain ⟨hstop, hahead⟩ := hmoved rfl
    have hgoal : s.goal.range = some range := hrange
    have hforward := search_forward (.stepping 0) hgoal hstop
    simp only [resume]
    rcases hsearch : search s.goal (.stepping 0) c with ⟨finding, c'⟩
    rw [hsearch] at hforward
    have hstore' := hstore.trans hforward.toSameStore
    cases finding with
    | found entry =>
      obtain ⟨row, hcur, hentry⟩ := entryOf?_of_search_found hsearch
      obtain ⟨hkey, hadmits, hvalue⟩ := Selection.entryOf?_eq_some_iff.1 hentry
      obtain rfl : row = ⟨entry.key.bytes, entry.value⟩ := by
        rw [Key.bytes_eq_of_ofBytes? hkey, hvalue]
      -- The search only drops rows, so the row found was ahead when it began.
      have hmem := hforward.sublist.subset (Cursor.mem_ahead_of_current hcur)
      obtain ⟨hstored, hin⟩ := Store.mem_rowsIn.1 (hahead hmem)
      have hin := Interval.bytes_mem_map_iff.1 hin
      refine ⟨hselection, hconfig, hstore', hrange, Position.noConfusion, ?_⟩
      rintro _ _ ⟨⟩
      exact ⟨range, rfl, ⟨hstored, hselection ▸ hadmits, hin⟩,
        fun _ ↦ ⟨hforward.stop.trans hstop, hcur⟩⟩
    | exhausted => exact descends_of_exhausted hselection hconfig hstore' hrange rfl
    | failed e => exact descends_of_exhausted hselection hconfig hstore' hrange rfl
  · exact descends_of_exhausted hselection hconfig hstore hrange rfl

/-- To send a scan to a range, nothing needs to be known about where it stood. -/
theorem descends_seek (hselection : s.selection = first.selection)
    (hconfig : s.config = first.config) (hstore : first.cursor.SameStore s.cursor) :
    (s.seek range).2.Descends first (some range) := by
  refine descends_resume (s := { s with range := some range }) hselection hconfig
    (hstore.trans (Cursor.sameStore_seek _ _)) rfl ?_
  intro hnone
  obtain ⟨-, hstop, hahead⟩ := Cursor.seek_eq_none (Prod.ext hnone rfl)
  rw [hahead, hstore.store]
  exact ⟨hstop, List.Subset.refl _⟩

theorem EntryIn.rowsIn_subset {selection : Selection} {store : Store}
    (h : EntryIn selection store range entry) :
    store.rowsIn ⟨.excluded entry.key.bytes, range.upper.map Key.bytes⟩ ⊆
      store.rowsIn (range.map Key.bytes) := by
  intro row hrow
  obtain ⟨hmem, hlt, habove⟩ := Store.mem_rowsIn.1 hrow
  have hbelow := (Interval.bytes_mem_map_iff.2 h.mem).1
  exact Store.mem_rowsIn.2 ⟨hmem, hbelow.mono (le_of_lt hlt), habove⟩

namespace Descends

theorem advance_of_unsought (h : s.Descends first last) (hpos : s.position = .unsought) :
    (s.resume s.cursor.advance).2.Descends first last := by
  have hstore := h.sameStore.trans (Cursor.sameStore_advance s.cursor)
  obtain ⟨-, -, hcur⟩ := h.unsought hpos
  rcases hmoved : s.cursor.advance with ⟨_ | failure, c⟩
  · rw [hmoved] at hstore
    have hnone := Cursor.current_advance_eq_none hmoved hcur
    rw [resume, search_of_current_eq_none hnone]
    exact descends_of_exhausted h.selection_eq h.config_eq hstore h.range_eq rfl
  · rw [hmoved] at hstore
    exact descends_of_exhausted h.selection_eq h.config_eq hstore h.range_eq rfl

theorem advance (h : s.Descends first last) : s.advance.2.Descends first last := by
  rcases hpos : s.position with _ | ⟨entry, _ | _⟩ | _
  · simp only [Scan.advance, hpos]
    exact h.advance_of_unsought hpos
  · obtain ⟨range, rfl, hentry, hcursor⟩ := h.on hpos
    obtain ⟨hstop, hcur⟩ := hcursor rfl
    -- The cursor stands at the row of the entry and passes it.
    simp only [Scan.advance, hpos]
    refine descends_resume h.selection_eq h.config_eq
      (h.sameStore.trans (Cursor.sameStore_advance _)) h.range_eq ?_
    intro hnone
    obtain ⟨-, hstop', hahead⟩ := Cursor.advance_eq_none (Prod.ext hnone rfl)
    rw [hahead, Cursor.ahead_of_current hcur, hstop, h.sameStore.store]
    exact ⟨hstop'.trans hstop, hentry.rowsIn_subset⟩
  · obtain ⟨range, rfl, hentry, -⟩ := h.on hpos
    -- The cursor of a fork stands nowhere. It is sent behind the entry, in the range last sought.
    simp only [Scan.advance, hpos, h.range_eq]
    refine descends_resume h.selection_eq h.config_eq
      (h.sameStore.trans (Cursor.sameStore_seek _ _)) h.range_eq ?_
    intro hnone
    obtain ⟨-, hstop, hahead⟩ := Cursor.seek_eq_none (Prod.ext hnone rfl)
    rw [hahead, h.sameStore.store]
    exact ⟨hstop, hentry.rowsIn_subset⟩
  · simp only [Scan.advance, hpos]
    exact h

/-- An error that is put aside or handed out has no part in the invariant of a sought scan. -/
theorem withDeferred (h : s.Descends first last) (hpos : s.position ≠ .unsought)
    (e : Option Error) : ({ s with deferred := e } : Scan).Descends first last :=
  ⟨h.selection_eq, h.config_eq, h.sameStore, h.range_eq, fun h' ↦ absurd h' hpos, h.on⟩

theorem yieldCurrent (h : s.Descends first last) : s.yieldCurrent.2.Descends first last := by
  rw [Scan.yieldCurrent]
  split
  · next entry reseek hpos =>
    refine h.advance.withDeferred (position_advance_ne_unsought ?_) _
    rw [hpos]
    exact Position.noConfusion
  · exact h

theorem fork (h : s.Descends first last) : s.fork.Descends first last := by
  refine ⟨h.selection_eq, h.config_eq, ⟨h.sameStore.store, h.sameStore.faults⟩, h.range_eq, ?_, ?_⟩
  · intro hpos
    obtain ⟨hlast, -, -⟩ := h.unsought (position_of_fork_eq_unsought hpos)
    exact ⟨hlast, rfl, rfl⟩
  · intro entry reseek hpos
    obtain ⟨rfl, reseek', hpos'⟩ := position_of_fork_eq_on hpos
    obtain ⟨range, hlast, hentry, -⟩ := h.on hpos'
    exact ⟨range, hlast, hentry, nofun⟩

theorem next (h : s.Descends first last) :
    s.next.2.Descends first ((s.rangeOf .next).or last) := by
  by_cases hdef : s.deferred = none
  · by_cases hpos : s.position = .unsought
    · have hsought : s.start.2.Descends first (some s.selection.range) :=
        descends_seek h.selection_eq h.config_eq h.sameStore
      rw [rangeOf, if_pos ⟨hpos, hdef⟩, Option.some_or]
      rcases hstart : s.start with ⟨_ | e, sought⟩
      · rw [hstart] at hsought
        rw [next_of_start hpos hdef hstart]
        exact hsought.yieldCurrent
      · rw [hstart] at hsought
        rw [next_of_start_eq_some hpos hdef hstart]
        exact hsought
    · rw [rangeOf, if_neg fun hboth ↦ hpos hboth.1, Option.none_or, next_of_sought hpos hdef]
      exact h.yieldCurrent
  · have hpos : s.position ≠ .unsought := fun hpos ↦ hdef (h.unsought hpos).2.1
    obtain ⟨e, he⟩ := Option.ne_none_iff_exists'.1 hdef
    rw [rangeOf, if_neg fun hboth ↦ hpos hboth.1, Option.none_or, next_of_deferred he]
    exact h.withDeferred hpos none

/-- **One call** keeps the invariant. -/
theorem after (h : s.Descends first last) (call : Call) :
    (s.after call).Descends first ((s.rangeOf call).or last) := by
  cases call with
  | seek range => exact descends_seek h.selection_eq h.config_eq h.sameStore
  | start => exact descends_seek h.selection_eq h.config_eq h.sameStore
  | advance => exact h.advance
  | next => exact h.next
  | fork => exact h.fork

/-- **Any number of calls** keep the invariant. -/
theorem run (h : s.Descends first last) (calls : List Call) :
    (s.run calls).Descends first ((s.lastRange calls).or last) := by
  induction calls generalizing s last with
  | nil => exact h
  | cons call calls ih =>
    -- A range that a later call seeks replaces the one this call seeks.
    rw [lastRange, Option.or_assoc]
    exact ih (h.after call)

end Descends

theorem descends_run_fresh (selection : Selection) (config : Config) (store : Store)
    (faults : FaultPlan) (calls : List Call) :
    ((fresh selection config store faults).run calls).Descends
      (fresh selection config store faults)
      ((fresh selection config store faults).lastRange calls) := by
  have hrun := (descends_fresh selection config store faults).run calls
  rwa [Option.or_none] at hrun

end Scan

end CompositeScan
