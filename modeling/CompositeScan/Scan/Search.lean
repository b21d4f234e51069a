import CompositeScan.Selection.Leap
import CompositeScan.Store.Cursor

/-!
# Searching the next row in range

From where a cursor stands, the search goes on to the first row whose key the selection admits.
Rows out of range are stepped over one at a time, which is cheap when matches are dense; after a
number of misses in a row the search leaps to the next key that could match.

A key with fewer values than a leap's target sorts before it and may be in range, so the search
never seeks the whole target at once: it seeks the shortest leading part of the target that lies
ahead, and chases the target from there as long as the keys it meets are before it.

One move of the search is `Search.move`. Every move that does not end the search leaves fewer rows
ahead of the cursor, whatever the domains of the fields answer, and that is why `search` ends.
-/

namespace CompositeScan

/-- A key with the value stored under it. -/
structure Entry where
  /-- The key. -/
  key : Key
  /-- The value. -/
  value : Bytes
  deriving DecidableEq

/-- What a search comes to. -/
inductive Finding where
  /-- An entry in range, at which the cursor stands. -/
  | found (entry : Entry)
  /-- There is none ahead. -/
  | exhausted
  /-- The search broke off. -/
  | failed (e : Error)

namespace Search

/-- How a search goes on past a key out of range. -/
inductive Pace where
  /-- It steps, after a number of misses in a row. -/
  | stepping (misses : Nat)
  /-- It leaps on towards a key. -/
  | chasing (target : Key)

/-- One move of a search. -/
inductive Move where
  /-- The search is over. -/
  | stop (finding : Finding) (cursor : Cursor)
  /-- The search goes on. -/
  | goOn (pace : Pace) (cursor : Cursor)

/-- What a search is for. -/
structure Goal where
  /-- Which keys are in range. -/
  selection : Selection
  /-- How many misses in a row are stepped over. -/
  threshold : Nat
  /-- The range to which the search is confined. -/
  range : Option KeyRange

/-- Steps to the next row. -/
def stepOver (c : Cursor) (pace : Pace) : Move :=
  match c.advance with
  | (some failure, c') => .stop (.failed (.storage failure)) c'
  | (none, c') => .goOn pace c'

/-- Seeks the shortest leading part of `target` that is ahead of `key`, unless it is beyond the
range of the search. -/
def leapTo (goal : Goal) (c : Cursor) (key target : Key) : Move :=
  let next := (target.leadAfter? key).getD target
  match goal.range with
  | none => .stop .exhausted c
  | some range =>
    if range.upper.Above next then
      match c.seek (range.dropBefore next) with
      | (some failure, c') => .stop (.failed (.storage failure)) c'
      | (none, c') => .goOn (.chasing target) c'
    else .stop .exhausted c

/-- Goes on past a key out of range, after `misses` others that were stepped over in a row. -/
def passOver (goal : Goal) (c : Cursor) (key : Key) (misses : Nat) : Move :=
  if misses < goal.threshold then stepOver c (.stepping (misses + 1))
  else match goal.selection.leapAfter key with
    | .error e => .stop (.failed e) c
    | .ok (.seek target) => leapTo goal c key target
    | .ok .exhausted => .stop .exhausted c
    | .ok .step => stepOver c (.stepping 0)

/-- One move of a search. -/
def move (goal : Goal) (pace : Pace) (c : Cursor) : Move :=
  match c.current with
  | none => .stop .exhausted c
  | some row =>
    match Key.ofBytes? row.key with
    | none => .stop (.failed (.invalidEncoding row.key)) c
    | some key =>
      if goal.selection.Admits key then .stop (.found ⟨key, row.value⟩) c
      else match pace with
        | .chasing target =>
          if key < target then leapTo goal c key target else passOver goal c key 0
        | .stepping misses => passOver goal c key misses

/-! ## Every move is progress -/

/-- The part of a target that is sought is ahead of the key. -/
theorem lt_getD_leadAfter? {key target : Key} (h : key < target) :
    key < (target.leadAfter? key).getD target := by
  cases hp : target.leadAfter? key with
  | none => exact h
  | some p => exact Key.lt_of_leadAfter? hp

theorem remaining_stepOver_lt {c c' : Cursor} {pace pace' : Pace}
    (h : stepOver c pace = .goOn pace' c') (hcur : c.current.isSome) :
    c'.remaining < c.remaining := by
  simp only [stepOver] at h
  split at h
  · simp at h
  · next hadv =>
    cases h
    simpa [hadv] using Cursor.remaining_advance_lt (by rw [hadv]) hcur

theorem remaining_leapTo_lt {goal : Goal} {c c' : Cursor} {pace : Pace} {key target : Key}
    {row : Row} (h : leapTo goal c key target = .goOn pace c') (hcur : c.current = some row)
    (hrow : key.bytes = row.key) (hlt : key < target) : c'.remaining < c.remaining := by
  simp only [leapTo] at h
  split at h
  · simp at h
  · split at h
    · split at h
      · simp at h
      · next hseek =>
        cases h
        have hle : (c.seek _).2.remaining ≤ c.store.countAfter row.key :=
          Cursor.remaining_seek_le (by rw [hseek]) fun x hx ↦
            Std.lt_of_lt_of_le (hrow ▸ Key.bytes_lt_bytes (lt_getD_leadAfter? hlt)) hx
        rw [hseek] at hle
        simp only [Cursor.remaining, hcur] at hle ⊢
        omega
    · simp at h

/-- A move that goes on leaves fewer rows ahead. -/
theorem remaining_lt_of_move {goal : Goal} {pace pace' : Pace} {c c' : Cursor}
    (h : move goal pace c = .goOn pace' c') : c'.remaining < c.remaining := by
  simp only [move] at h
  split at h
  · simp at h
  · next row hcur =>
    have hsome : c.current.isSome := by simp [hcur]
    split at h
    · simp at h
    · next key hkey =>
      have hbytes := Key.bytes_eq_of_ofBytes? hkey
      have pass : ∀ misses, passOver goal c key misses = .goOn pace' c' →
          c'.remaining < c.remaining := by
        intro misses h
        simp only [passOver] at h
        split at h
        · exact remaining_stepOver_lt h hsome
        · split at h
          · simp at h
          · next hleap => exact remaining_leapTo_lt h hcur hbytes (Selection.lt_of_leapAfter hleap)
          · simp at h
          · exact remaining_stepOver_lt h hsome
      split at h
      · simp at h
      · split at h
        · split at h
          · next hlt => exact remaining_leapTo_lt h hcur hbytes hlt
          · exact pass 0 h
        · next misses => exact pass misses h

end Search

/-- Goes on to the first row in range, at or after where the cursor stands. -/
def search (goal : Search.Goal) (pace : Search.Pace) (c : Cursor) : Finding × Cursor :=
  match _h : Search.move goal pace c with
  | .stop finding c' => (finding, c')
  | .goOn pace' c' => search goal pace' c'
termination_by c.remaining
decreasing_by exact Search.remaining_lt_of_move (by assumption)

namespace Search

theorem passOver_ne_found (goal : Goal) (c c' : Cursor) (key : Key) (misses : Nat)
    (entry : Entry) : passOver goal c key misses ≠ .stop (.found entry) c' := by
  grind [passOver, leapTo, stepOver]

theorem leapTo_ne_found (goal : Goal) (c c' : Cursor) (key target : Key) (entry : Entry) :
    leapTo goal c key target ≠ .stop (.found entry) c' := by
  grind [leapTo]

/-- The entry a move finds is the row at which the cursor stands, and its key is admitted. -/
theorem move_eq_found {goal : Goal} {pace : Pace} {c c' : Cursor} {entry : Entry}
    (h : move goal pace c = .stop (.found entry) c') :
    c' = c ∧ goal.selection.Admits entry.key ∧
      ∃ row, c.current = some row ∧ Key.ofBytes? row.key = some entry.key ∧
        row.value = entry.value := by
  simp only [move] at h
  split at h
  · simp at h
  · next row hcur =>
    split at h
    · simp at h
    · next key hkey =>
      split at h
      · next hadm => cases h; exact ⟨rfl, hadm, row, hcur, hkey, rfl⟩
      · split at h
        · split at h
          · exact (leapTo_ne_found _ _ _ _ _ _ h).elim
          · exact (passOver_ne_found _ _ _ _ _ _ h).elim
        · exact (passOver_ne_found _ _ _ _ _ _ h).elim

end Search

theorem remaining_of_search_found {goal : Search.Goal} {pace : Search.Pace} {c c' : Cursor}
    {entry : Entry} (h : search goal pace c = (.found entry, c')) :
    0 < c'.remaining ∧ c'.remaining ≤ c.remaining := by
  fun_induction search goal pace c with
  | case1 pace c finding c'' hmove =>
    cases h
    obtain ⟨rfl, -, row, hcur, -⟩ := Search.move_eq_found hmove
    simp [Cursor.remaining, hcur]
  | case2 pace c pace' c'' hmove ih =>
    obtain ⟨hpos, hle⟩ := ih h
    exact ⟨hpos, Nat.le_trans hle (Nat.le_of_lt (Search.remaining_lt_of_move hmove))⟩

end CompositeScan
