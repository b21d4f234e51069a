import CompositeScan.Proofs.Scan.Calls

/-!
# Scans that agree

What a scan is still to give depends on little: the selection, the configuration, the range, where
the scan stands, and the row at which its storage cursor stands in which range. How often the
storage was used does not matter, as long as it never fails. Two scans that have all this in common
agree (`Scan.Agrees`), and then they give the same items (`Scan.Agrees.walk_eq`).

Agreement is built from below: cursors on the same store agree as soon as they were sent to the same
range (`Cursor.Peers.seek`), and go on to agree when they are advanced (`Cursor.Agrees.advance`); so
every move of a search takes cursors that agree to cursors that agree, and the search comes to the
same finding (`search_agrees`).

## What agreement leaves out

The attempts made and the use made of the store are left out, because a fork and the scan it was
made from differ in them from the start. Storage that fails would tell the two apart, since attempts
fail by their number: what is said here holds of storage that never does.
-/

namespace CompositeScan

namespace Cursor

variable {c d : Cursor} {range : KeyRange}

/-- Two cursors are on the same snapshot of a store that never fails. -/
structure Peers (c d : Cursor) : Prop where
  /-- The snapshot is the same. -/
  store : d.store = c.store
  /-- The first one never meets a failure. -/
  never_left : c.faults = .never
  /-- Neither does the second one. -/
  never_right : d.faults = .never

/-- Two cursors stand at the same row of the same range, and differ at most in how often they used
the store. -/
structure Agrees (c d : Cursor) : Prop extends c.Peers d where
  /-- The range ends at the same bound. -/
  stop : d.stop = c.stop
  /-- The row is the same. -/
  current : d.current = c.current

theorem seek_of_never (h : c.faults = .never) (range : KeyRange) :
    c.seek range = (none, { c with
      attempts := c.attempts.countSeek
      usage := c.usage.countSeek
      stop := range.upper.map Key.bytes
      current := c.firstRow (range.map Key.bytes) }) := by
  simp [seek, h, FaultPlan.never, Interval.map]

theorem advance_of_current {row : Row} (h : c.faults = .never) (hcur : c.current = some row) :
    c.advance = (none, { c with
      attempts := c.attempts.countAdvance
      usage := c.usage.countAdvance
      current := c.firstRow ⟨.excluded row.key, c.stop⟩ }) := by
  simp [advance, h, hcur, FaultPlan.never]

theorem advance_of_current_eq_none (h : c.faults = .never) (hcur : c.current = none) :
    c.advance = (none, { c with attempts := c.attempts.countAdvance }) := by
  simp [advance, h, hcur, FaultPlan.never]

theorem Peers.of_sameStore {c' d' : Cursor} (h : c.Peers d) (hc : c.SameStore c')
    (hd : d.SameStore d') : c'.Peers d' :=
  ⟨hd.store.trans (h.store.trans hc.store.symm), hc.faults.trans h.never_left,
    hd.faults.trans h.never_right⟩

/-- Where cursors stood does not matter once they are sent to a range. -/
theorem Peers.seek (h : c.Peers d) (range : KeyRange) :
    (c.seek range).1 = none ∧ (d.seek range).1 = none ∧
      (c.seek range).2.Agrees (d.seek range).2 := by
  have hpeers := h.of_sameStore (c.sameStore_seek range) (d.sameStore_seek range)
  rw [seek_of_never h.never_left, seek_of_never h.never_right] at hpeers ⊢
  refine ⟨rfl, rfl, hpeers, rfl, ?_⟩
  simp only [firstRow, h.store]

theorem Agrees.advance (h : c.Agrees d) :
    c.advance.1 = none ∧ d.advance.1 = none ∧ c.advance.2.Agrees d.advance.2 := by
  have hpeers := h.toPeers.of_sameStore c.sameStore_advance d.sameStore_advance
  rcases hcur : c.current with _ | row
  · have hcur' := h.current.trans hcur
    rw [advance_of_current_eq_none h.never_left hcur,
      advance_of_current_eq_none h.never_right hcur'] at hpeers ⊢
    exact ⟨rfl, rfl, hpeers, h.stop, h.current⟩
  · have hcur' := h.current.trans hcur
    rw [advance_of_current h.never_left hcur, advance_of_current h.never_right hcur'] at hpeers ⊢
    refine ⟨rfl, rfl, hpeers, h.stop, ?_⟩
    simp only [firstRow, h.store, h.stop]

end Cursor

namespace Search

variable {goal : Goal} {pace : Pace} {c c' d : Cursor}

/-- Two moves come to the same, at cursors that agree. -/
inductive Move.Agrees : Move → Move → Prop where
  /-- Both end the search with the same finding. -/
  | stop (finding : Finding) {c d : Cursor} (h : c.Agrees d) :
    Agrees (.stop finding c) (.stop finding d)
  /-- Both go on at the same pace. -/
  | goOn (pace : Pace) {c d : Cursor} (h : c.Agrees d) : Agrees (.goOn pace c) (.goOn pace d)

theorem stepOver_agrees (h : c.Agrees d) (pace : Pace) :
    (stepOver c pace).Agrees (stepOver d pace) := by
  obtain ⟨hc, hd, hagrees⟩ := h.advance
  rw [stepOver, stepOver, ← Prod.mk.eta (p := c.advance), ← Prod.mk.eta (p := d.advance), hc, hd]
  exact .goOn pace hagrees

theorem leapTo_agrees (h : c.Agrees d) (goal : Goal) (key target : Key) :
    (leapTo goal c key target).Agrees (leapTo goal d key target) := by
  simp only [leapTo]
  split
  · exact .stop .exhausted h
  · next range hrange =>
    split
    · obtain ⟨hc, hd, hagrees⟩ :=
        h.toPeers.seek (range.dropBefore ((target.leadAfter? key).getD target))
      rw [← Prod.mk.eta (p := c.seek _), ← Prod.mk.eta (p := d.seek _), hc, hd]
      exact .goOn (.chasing target) hagrees
    · exact .stop .exhausted h

theorem passOver_agrees (h : c.Agrees d) (goal : Goal) (key : Key) (misses : ℕ) :
    (passOver goal c key misses).Agrees (passOver goal d key misses) := by
  rw [passOver, passOver]
  split
  · exact stepOver_agrees h _
  · split
    · next e hleap => exact .stop (.failed e) h
    · next target hleap => exact leapTo_agrees h goal key target
    · exact .stop .exhausted h
    · exact stepOver_agrees h _

/-- **One move** comes to the same at cursors that agree. -/
theorem move_agrees (h : c.Agrees d) (goal : Goal) (pace : Pace) :
    (move goal pace c).Agrees (move goal pace d) := by
  rw [move, move, h.current]
  split
  · exact .stop .exhausted h
  · next row hcur =>
    split
    · exact .stop _ h
    · next key hkey =>
      split
      · exact .stop _ h
      · split
        · next target =>
          split
          · exact leapTo_agrees h goal key target
          · exact passOver_agrees h goal key 0
        · next misses => exact passOver_agrees h goal key misses

end Search

/-- **A search comes to the same** from cursors that agree. -/
theorem search_agrees {c d : Cursor} (h : c.Agrees d) (goal : Search.Goal) (pace : Search.Pace) :
    (search goal pace c).1 = (search goal pace d).1 ∧
      (search goal pace c).2.Agrees (search goal pace d).2 := by
  -- The second cursor follows the moves of the first one.
  fun_induction search goal pace c generalizing d with
  | case1 pace c finding c' hmove =>
    have hagrees := Search.move_agrees h goal pace
    rw [hmove] at hagrees
    generalize hmove' : Search.move goal pace d = m at hagrees
    rcases hagrees with ⟨_, hagrees⟩ | _
    rw [search_of_stop hmove']
    exact ⟨rfl, hagrees⟩
  | case2 pace c pace' c' hmove ih =>
    have hagrees := Search.move_agrees h goal pace
    rw [hmove] at hagrees
    generalize hmove' : Search.move goal pace d = m at hagrees
    rcases hagrees with _ | ⟨_, hagrees⟩
    rw [search_of_goOn hmove']
    exact ih hagrees

namespace Scan

variable {s t : Scan} {c d : Cursor} {entry : Entry} {e : Error}

/-! ## Scans -/

/-- Two scans have everything in common that decides what they are still to give, but for an error
that waits. -/
structure Agrees (s t : Scan) : Prop where
  /-- The selection is the same. -/
  selection_eq : t.selection = s.selection
  /-- So is the configuration. -/
  config_eq : t.config = s.config
  /-- So is the range. -/
  range_eq : t.range = s.range
  /-- They stand at the same entry, or nowhere for the same reason. -/
  position_eq : t.position = s.position
  /-- Their storage cursors agree. -/
  cursor : s.cursor.Agrees t.cursor

theorem walk_of_current (h : s.current = some entry) :
    s.walk = .ok entry :: (s.advance.1.toList.map .error ++ s.advance.2.walk) := by
  rw [walk]
  split
  · next entry' h' =>
    rw [h, Option.some_inj] at h'
    rw [h']
  · next h' =>
    rw [h] at h'
    cases h'

theorem resume_agrees {moved moved' : Option Failure × Cursor}
    (hselection : t.selection = s.selection) (hconfig : t.config = s.config)
    (hrange : t.range = s.range)
    (h : moved.1 = none ∧ moved'.1 = none ∧ moved.2.Agrees moved'.2) :
    (s.resume moved).1 = (t.resume moved').1 ∧ (s.resume moved).2.Agrees (t.resume moved').2 := by
  obtain ⟨_, c⟩ := moved
  obtain ⟨_, d⟩ := moved'
  obtain ⟨rfl, rfl, hcursor⟩ := h
  have hgoal : t.goal = s.goal := by rw [goal, goal, hselection, hconfig, hrange]
  have hsearch := search_agrees hcursor s.goal (.stepping 0)
  simp only [resume, hgoal]
  generalize search s.goal (.stepping 0) c = found at hsearch ⊢
  generalize search s.goal (.stepping 0) d = found' at hsearch ⊢
  obtain ⟨finding, c'⟩ := found
  obtain ⟨finding', d'⟩ := found'
  obtain ⟨rfl, hcursor'⟩ : finding = finding' ∧ c'.Agrees d' := hsearch
  cases finding with
  | found entry => exact ⟨rfl, hselection, hconfig, hrange, rfl, hcursor'⟩
  | exhausted => exact ⟨rfl, hselection, hconfig, hrange, rfl, hcursor'⟩
  | failed e => exact ⟨rfl, hselection, hconfig, hrange, rfl, hcursor'⟩

theorem seek_agrees (hselection : t.selection = s.selection) (hconfig : t.config = s.config)
    (h : s.cursor.Peers t.cursor) (range : KeyRange) :
    (s.seek range).1 = (t.seek range).1 ∧ (s.seek range).2.Agrees (t.seek range).2 :=
  resume_agrees (s := { s with range := some range }) (t := { t with range := some range })
    hselection hconfig rfl (h.seek range)

namespace Agrees

theorem current_eq (h : s.Agrees t) : t.current = s.current := by
  rw [current, current, h.position_eq]

theorem advance (h : s.Agrees t) :
    s.advance.1 = t.advance.1 ∧ s.advance.2.Agrees t.advance.2 := by
  simp only [Scan.advance, h.position_eq, h.range_eq]
  split
  · exact ⟨rfl, h⟩
  · next entry hpos =>
    split
    · next range hrange =>
      exact resume_agrees h.selection_eq h.config_eq h.range_eq (h.cursor.toPeers.seek _)
    · exact ⟨rfl, h.selection_eq, h.config_eq, rfl, rfl, h.cursor⟩
  · exact resume_agrees h.selection_eq h.config_eq h.range_eq h.cursor.advance

/-- **Scans that agree see the same** when they are walked. -/
theorem walk_eq (h : s.Agrees t) : s.walk = t.walk := by
  fun_induction walk s generalizing t with
  | case1 s entry hcur ih =>
    obtain ⟨hmet, hagrees⟩ := h.advance
    rw [walk_of_current (h.current_eq.trans hcur), hmet, ih hagrees]
  | case2 s hcur =>
    rw [walk_of_current_eq_none (h.current_eq.trans hcur)]

end Agrees

end Scan

end CompositeScan
