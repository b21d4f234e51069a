import CompositeScan.Scan.Basic

/-!
# Iterating a scan

`Scan.drain` takes items from a scan until it gives none. It ends because every item given leaves
less to do: an entry leaves fewer rows ahead of the storage cursor, and an error that waited is gone
once it is handed out.

Rows are not counted alone. A scan that was not sought yet may find all of them, and one that was
forked is not sure of its storage cursor, so its rows are those after its entry in the store; each
of the two counts for one more than a scan whose cursor stands where it is said to. Nothing of this
depends on what the scan finds, so iterating ends whatever the fields and the storage do.
-/

namespace CompositeScan.Scan

/-- How many rows lie ahead of a scan, at most, counted so that it is zero only at the end. -/
def ahead (s : Scan) : Nat :=
  match s.position with
  | .unsought => s.cursor.store.size + 2
  | .on _ false => s.cursor.remaining + 1
  | .on entry true => s.cursor.store.countAfter entry.key.bytes + 2
  | .exhausted => 0

/-- How much there is left to hand out, at most. -/
def workload (s : Scan) : Nat := 2 * s.ahead + s.deferred.toList.length

theorem ahead_search_le {s s' : Scan} {c : Cursor} {e : Option Error}
    (h : s.settle (search s.goal (.stepping 0) c) = (e, s')) :
    s'.ahead = 0 ∨ 0 < c.remaining ∧ s'.ahead ≤ c.remaining + 1 := by
  generalize hs : search s.goal (.stepping 0) c = r at h
  obtain ⟨finding, c'⟩ := r
  cases finding with
  | found entry =>
    obtain ⟨hpos, hle⟩ := remaining_of_search_found hs
    simp only [settle, Prod.mk.injEq] at h
    obtain ⟨-, rfl⟩ := h
    right
    simp only [ahead]
    omega
  | exhausted => simp only [settle, Prod.mk.injEq] at h; obtain ⟨-, rfl⟩ := h; exact .inl rfl
  | failed e => simp only [settle, Prod.mk.injEq] at h; obtain ⟨-, rfl⟩ := h; exact .inl rfl

/-- A scan that searches on from where its storage cursor went has no more ahead than that cursor
has. -/
theorem ahead_resume_le {s s' : Scan} {moved : Option Failure × Cursor} {e : Option Error}
    (h : s.resume moved = (e, s')) :
    s'.ahead = 0 ∨ moved.1 = none ∧ 0 < moved.2.remaining ∧ s'.ahead ≤ moved.2.remaining + 1 := by
  obtain ⟨failure, c⟩ := moved
  cases failure with
  | some failure => simp only [resume, Prod.mk.injEq] at h; obtain ⟨-, rfl⟩ := h; exact .inl rfl
  | none => exact (ahead_search_le h).imp_right fun hle ↦ ⟨rfl, hle⟩

theorem ahead_seek_le {s s' : Scan} {range : KeyRange} {e : Option Error}
    (h : s.seek range = (e, s')) : s'.ahead ≤ s.cursor.store.size + 1 := by
  rcases ahead_resume_le h with h0 | ⟨hnone, -, hle⟩
  · omega
  · exact Nat.le_trans hle (Nat.succ_le_succ (Cursor.remaining_seek_le_size hnone))

theorem ahead_advance_lt {s s' : Scan} {entry : Entry} {reseek : Bool} {e : Option Error}
    (hpos : s.position = .on entry reseek) (h : s.advance = (e, s')) : s'.ahead < s.ahead := by
  cases reseek with
  | false =>
    simp only [advance, hpos] at h
    have hs : s.ahead = s.cursor.remaining + 1 := by simp [ahead, hpos]
    rcases ahead_resume_le h with h0 | ⟨hnone, hpos', hle⟩
    · omega
    · cases hcur : s.cursor.current with
      | some row =>
        have := Cursor.remaining_advance_lt hnone (by simp [hcur])
        omega
      | none =>
        have : s.cursor.advance.2.remaining = 0 := by
          simp only [Cursor.advance, hcur]
          split <;> simp [Cursor.remaining]
        omega
  | true =>
    simp only [advance, hpos] at h
    have hs : s.ahead = s.cursor.store.countAfter entry.key.bytes + 2 := by simp [ahead, hpos]
    split at h
    · next range hrange =>
      rcases ahead_resume_le h with h0 | ⟨hnone, -, hle⟩
      · omega
      · have : (s.cursor.seek _).2.remaining ≤ s.cursor.store.countAfter entry.key.bytes :=
          Cursor.remaining_seek_le hnone fun x hx ↦ hx
        omega
    · simp only [Prod.mk.injEq] at h
      obtain ⟨-, rfl⟩ := h
      rw [hs]
      exact Nat.succ_pos _

theorem workload_yieldCurrent_lt {s s' : Scan} {item : Item}
    (h : s.yieldCurrent = (some item, s')) : s'.workload < 2 * s.ahead := by
  simp only [yieldCurrent] at h
  split at h
  · next entry reseek hpos =>
    simp only [Prod.mk.injEq] at h
    obtain ⟨-, rfl⟩ := h
    have : s.advance.2.ahead < s.ahead := ahead_advance_lt hpos rfl
    simp only [workload, ahead] at this ⊢
    cases s.advance.1 <;> simp <;> omega
  · simp at h

theorem deferred_resume (s : Scan) (moved : Option Failure × Cursor) :
    (s.resume moved).2.deferred = s.deferred := by
  obtain ⟨failure, c⟩ := moved
  cases failure with
  | some failure => rfl
  | none =>
    simp only [resume]
    generalize search s.goal (.stepping 0) c = r
    obtain ⟨finding, c'⟩ := r
    cases finding <;> rfl

theorem deferred_start (s : Scan) : s.start.2.deferred = s.deferred :=
  deferred_resume { s with range := some s.selection.range } _

/-- Every item handed out leaves less to do. -/
theorem workload_next_lt {s s' : Scan} {item : Item} (h : s.next = (some item, s')) :
    s'.workload < s.workload := by
  simp only [next] at h
  split at h
  · next e hdef =>
    simp only [Prod.mk.injEq] at h
    obtain ⟨-, rfl⟩ := h
    simp [workload, ahead, hdef]
  · next hdef =>
    have hw : s.workload = 2 * s.ahead := by simp [workload, hdef]
    rw [hw]
    split at h
    · next hpos =>
      have hs : s.ahead = s.cursor.store.size + 2 := by simp [ahead, hpos]
      split at h
      · next e sought hsought =>
        have hle := ahead_seek_le hsought
        have hdef' : sought.deferred = s.deferred := by
          simpa [hsought] using deferred_start s
        simp only [Prod.mk.injEq] at h
        obtain ⟨-, rfl⟩ := h
        simp only [workload, hdef', hdef, Option.toList_none, List.length_nil]
        omega
      · next sought hsought =>
        have hlt := workload_yieldCurrent_lt h
        have hle := ahead_seek_le hsought
        omega
    · exact workload_yieldCurrent_lt h

/-- The items of a scan until it gives none, and the scan after that. -/
def drain (s : Scan) : List Item × Scan :=
  match _h : s.next with
  | (none, s') => ([], s')
  | (some item, s') => (item :: s'.drain.1, s'.drain.2)
termination_by s.workload
decreasing_by all_goals exact workload_next_lt (by assumption)

/-- The items of a scan until it gives none. -/
def items (s : Scan) : List Item := s.drain.1

end CompositeScan.Scan
