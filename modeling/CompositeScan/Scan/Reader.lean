import CompositeScan.Scan.Basic

/-!
# Scans kept in registers

A `Reader` is a scan as it is held in memory: the state, the current entry, the mark that the
storage cursor has to be sent to that entry, and the count of seeks are registers of their own, and
an operation writes them one after the other.

Nothing in the type keeps the registers in step, and within an operation they are out of step. While
a reader goes on from an entry, the state still says that it is positioned and the entry left behind
is still the current one; the search writes the entry it finds before it writes the state; and where
the storage fails, an operation ends between two writes. Only `Reader.failClosed`, last thing of
all, puts an end to that.

The loop of the search is `Reader.turn`, taken again and again. A turn asks what `Search.move` asks,
so it leaves fewer rows ahead of the storage cursor for the same reason.
-/

namespace CompositeScan

/-- What a reader is about. -/
inductive ReadState where
  /-- It is not at an entry yet. -/
  | seeking
  /-- It is at an entry. -/
  | positioned
  /-- It is past the last entry, or broke off. -/
  | exhausted
  deriving DecidableEq

/-- A scan in registers. -/
structure Reader where
  /-- Which keys are in range. -/
  selection : Selection
  /-- How the scan is driven. -/
  config : Config
  /-- The storage cursor. -/
  storage : Cursor
  /-- The range last sought. -/
  range : Option KeyRange
  /-- What the reader is about. -/
  state : ReadState
  /-- The entry it is at. -/
  current : Option Entry
  /-- The storage cursor was forked and has to be sent behind the current entry. -/
  reseekPending : Bool
  /-- How many times the storage was sought. -/
  seeks : Nat
  /-- An error met while an entry was handed out. -/
  deferred : Option Error

namespace Reader

open Search (Pace)

/-- What an operation comes to: the error it met, if any, and the reader after it. -/
abbrev Outcome := Option Error × Reader

/-- Goes on with the reader, unless an error was met. -/
def Outcome.andThen (outcome : Outcome) (f : Reader → Outcome) : Outcome :=
  match outcome with
  | (none, r) => f r
  | (some e, r) => (some e, r)

/-- A reader that was not sought yet. -/
def new (selection : Selection) (config : Config) (storage : Cursor) : Reader where
  selection := selection
  config := config
  storage := storage
  range := none
  state := .seeking
  current := none
  reseekPending := false
  seeks := 0
  deferred := none

/-- The reader is at an entry. -/
def hasCurrent (r : Reader) : Bool := r.state == .positioned

/-- What the reader searches. -/
def goal (r : Reader) : Search.Goal := ⟨r.selection, r.config.missLimit.toNat, r.range⟩

/-- Sends the storage cursor to a range. A seek that fails is not counted. -/
def seekStorage (r : Reader) (range : KeyRange) : Outcome :=
  match r.storage.seek range with
  | (some failure, c) => (some (.storage failure), { r with storage := c })
  | (none, c) => (none, { r with storage := c, seeks := r.seeks + 1 })

/-- Moves the storage cursor on by one row. -/
def stepStorage (r : Reader) : Outcome :=
  match r.storage.advance with
  | (some failure, c) => (some (.storage failure), { r with storage := c })
  | (none, c) => (none, { r with storage := c })

/-- There is nothing more to read. -/
def exhaust (r : Reader) : Reader := { r with state := .exhausted, current := none }

/-- A reader that met an error reads no more. -/
def failClosed : Outcome → Outcome
  | (none, r) => (none, r)
  | (some e, r) => (some e, r.exhaust)

/-! ## The search -/

/-- What a turn of the search comes to. -/
inductive Turn where
  /-- The search is over. -/
  | done (outcome : Outcome)
  /-- The search goes on. -/
  | again (pace : Pace) (r : Reader)

/-- Goes on with the search, unless an error was met. -/
def Outcome.again (outcome : Outcome) (pace : Pace) : Turn :=
  match outcome with
  | (none, r) => .again pace r
  | (some e, r) => .done (some e, r)

/-- Seeks the shortest leading part of `target` that is ahead of `key`, unless it is beyond the
range. -/
def skipTo (r : Reader) (key target : Key) : Turn :=
  let next := (target.leadAfter? key).getD target
  match r.range.filter (·.upper.Above next) with
  | some range => (r.seekStorage (range.dropBefore next)).again (.chasing target)
  | none => .done (none, r.exhaust)

/-- Goes on past a key out of range, after `misses` others that were stepped over in a row. -/
def passOver (r : Reader) (key : Key) (misses : Nat) : Turn :=
  if misses < r.config.missLimit.toNat then r.stepStorage.again (.stepping (misses + 1))
  else match r.selection.leapAfter key with
    | .error e => .done (some e, r)
    | .ok (.seek target) => r.skipTo key target
    | .ok .exhausted => .done (none, r.exhaust)
    | .ok .step => r.stepStorage.again (.stepping 0)

/-- The reader at an entry that was found: the entry is written first, then the state. -/
def settle (r : Reader) (entry : Entry) : Reader :=
  let r := { r with current := some entry }
  { r with state := .positioned }

/-- One turn of the search. -/
def turn (r : Reader) (pace : Pace) : Turn :=
  match r.storage.current with
  | none => .done (none, r.exhaust)
  | some row =>
    match Key.ofBytes? row.key with
    | none => .done (some (.invalidEncoding row.key), r)
    | some key =>
      if r.selection.Admits key then .done (none, r.settle ⟨key, row.value⟩)
      else match pace with
        | .chasing target =>
          if key < target then r.skipTo key target else r.passOver key 0
        | .stepping misses => r.passOver key misses

/-! ### A turn is a move -/

/-- The reader when its storage cursor was moved. -/
def moved (r : Reader) (c : Cursor) : Reader :=
  { r with storage := c, seeks := r.seeks + c.usage.seeks - r.storage.usage.seeks }

/-- What a turn comes to that makes a move of the search. -/
def ofMove (r : Reader) : Search.Move → Turn
  | .goOn pace c => .again pace (r.moved c)
  | .stop (.found entry) c => .done (none, (r.moved c).settle entry)
  | .stop .exhausted c => .done (none, (r.moved c).exhaust)
  | .stop (.failed e) c => .done (some e, r.moved c)

@[simp] theorem moved_storage (r : Reader) : r.moved r.storage = r := by
  simp [moved]

theorem seekStorage_eq (r : Reader) (range : KeyRange) :
    r.seekStorage range =
      ((r.storage.seek range).1.map .storage, r.moved (r.storage.seek range).2) := by
  rw [seekStorage]
  split
  · next failure c h => simp [moved, h, Cursor.seeks_usage_of_seek_eq_some h]
  · next c h =>
    have hseeks : r.seeks + c.usage.seeks - r.storage.usage.seeks = r.seeks + 1 := by
      rw [Cursor.seeks_usage_of_seek_eq_none h]
      omega
    simp only [h, moved, hseeks, Option.map_none]

theorem stepStorage_eq (r : Reader) :
    r.stepStorage = (r.storage.advance.1.map .storage, r.moved r.storage.advance.2) := by
  rw [stepStorage]
  split
  · next failure c h => simp [moved, h, Cursor.seeks_usage_of_advance h]
  · next c h => simp [moved, h, Cursor.seeks_usage_of_advance h]

theorem again_stepStorage (r : Reader) (pace : Pace) :
    r.stepStorage.again pace = r.ofMove (Search.stepOver r.storage pace) := by
  rw [stepStorage_eq, Search.stepOver]
  rcases r.storage.advance with ⟨_ | failure, c⟩ <;> rfl

theorem skipTo_eq (r : Reader) (key target : Key) :
    r.skipTo key target = r.ofMove (Search.leapTo r.goal r.storage key target) := by
  simp only [skipTo, Search.leapTo, goal]
  rcases r.range with _ | range
  · simp [ofMove]
  · by_cases habove : range.upper.Above ((target.leadAfter? key).getD target)
    · simp only [Option.filter_some, habove, decide_true, if_true, seekStorage_eq]
      rcases r.storage.seek _ with ⟨_ | failure, c⟩ <;> rfl
    · simp [Option.filter_some, habove, ofMove]

theorem passOver_eq (r : Reader) (key : Key) (misses : Nat) :
    r.passOver key misses = r.ofMove (Search.passOver r.goal r.storage key misses) := by
  simp only [passOver, Search.passOver, again_stepStorage, skipTo_eq]
  by_cases hmisses : misses < r.config.missLimit.toNat
  · simp only [goal, hmisses, if_true]
  · simp only [goal, hmisses, if_false]
    rcases r.selection.leapAfter key with e | _ | _ | _
    · simp [ofMove]
    · rfl
    · simp [ofMove]
    · rfl

/-- **One turn** makes one move of the search. -/
theorem turn_eq (r : Reader) (pace : Pace) :
    r.turn pace = r.ofMove (Search.move r.goal pace r.storage) := by
  rw [turn, Search.move]
  rcases r.storage.current with _ | row
  · simp [ofMove]
  · rcases hkey : Key.ofBytes? row.key with _ | key
    · simp [ofMove, hkey]
    · by_cases hadm : r.selection.Admits key
      · simp [ofMove, hkey, goal, hadm]
      · simp only [hkey, goal, hadm, if_false]
        cases pace with
        | stepping misses => exact r.passOver_eq key misses
        | chasing target =>
          by_cases hlt : key < target
          · simp only [hlt, if_true]
            exact r.skipTo_eq key target
          · simp only [hlt, if_false]
            exact r.passOver_eq key 0

/-- A turn after which the search goes on leaves fewer rows ahead. -/
theorem remaining_lt_of_turn {r r' : Reader} {pace pace' : Pace}
    (h : r.turn pace = .again pace' r') : r'.storage.remaining < r.storage.remaining := by
  rw [turn_eq] at h
  rcases hmove : Search.move r.goal pace r.storage with ⟨_ | _ | _, c⟩ | ⟨pace'', c⟩ <;>
    rw [hmove] at h <;> cases h
  exact Search.remaining_lt_of_move hmove

/-- Moves the storage cursor on until it is at a row in range, or there is none. -/
def findInRange (r : Reader) (pace : Pace) : Outcome :=
  match _h : r.turn pace with
  | .done outcome => outcome
  | .again pace' r' => r'.findInRange pace'
termination_by r.storage.remaining
decreasing_by exact remaining_lt_of_turn (by assumption)

/-! ## Calls -/

/-- Goes to the first entry of a range. -/
def seek (r : Reader) (range : KeyRange) : Outcome :=
  let r := { r with range := some range }
  let r := { r with state := .seeking }
  let r := { r with current := none }
  let r := { r with reseekPending := false }
  failClosed ((r.seekStorage range).andThen (·.findInRange (.stepping 0)))

/-- Goes to the first entry of the whole range of the selection. -/
def start (r : Reader) : Outcome := r.seek r.selection.range

/-- Moves the storage cursor on from the current entry. If it was forked, it is sent behind that
entry instead. -/
def advanceStorage (r : Reader) : Outcome :=
  if r.reseekPending then
    let r := { r with reseekPending := false }
    match r.range, r.current with
    | some range, some entry => r.seekStorage (range.dropThrough entry.key)
    | _, _ => (none, r.exhaust)
  else r.stepStorage

/-- Goes to the next entry. -/
def advance (r : Reader) : Outcome :=
  if r.state = .exhausted then (none, r)
  else failClosed (r.advanceStorage.andThen fun r ↦
    if r.state = .exhausted then (none, r) else r.findInRange (.stepping 0))

/-- An independent reader at the same entry. -/
def fork (r : Reader) : Reader :=
  { r with
    storage := r.storage.fork
    reseekPending := r.state == .positioned
    seeks := 0
    deferred := none }

/-- Hands out the current entry and goes on to the next one. An error met there is put aside. -/
def yieldCurrent (r : Reader) : Option Item × Reader :=
  if r.state = .positioned then
    match r.current with
    | some entry =>
      match r.advance with
      | (some e, r) => (some (.ok entry), { r with deferred := some e })
      | (none, r) => (some (.ok entry), r)
    | none => (none, r)
  else (none, r)

/-- Hands out the next item. A reader that was not sought yet seeks its whole range first. -/
def next (r : Reader) : Option Item × Reader :=
  match r.deferred with
  | some e => (some (.error e), { r with deferred := none })
  | none =>
    if r.state = .seeking ∧ r.range = none then
      match r.start with
      | (some e, r) => (some (.error e), r)
      | (none, r) => r.yieldCurrent
    else r.yieldCurrent

end Reader

end CompositeScan
