import CompositeScan.Proofs.Scan.Calls
import CompositeScan.Scan.Reader

/-!
# A reader is a scan

`Scan.toReader` writes a scan into registers. Every call on the reader then does what it does on the
scan: it meets the same error or hands out the same item, and it leaves the registers of the scan
that comes after (`Scan.Descends.after_toReader`). So between calls a reader is always the registers
of some scan, and whatever holds of scans is passed on to it (`Reader.run_new`).

## Between two writes

In the middle of a call the registers are not those of any scan. What can be said of them there is
`Scan.underway`: they are up to date but for the state and the current entry, in which anything may
stand, and no seek is put off any more. Every way out of the search overwrites both, and so does
`Reader.failClosed` where the call breaks off, so that what stood there is forgotten
(`Scan.failClosed_findInRange`). Nothing else is needed, because every call begins with registers of
that kind: a seek writes its own, and going on from an entry clears the mark of the seek that was
put off before it reads the entry.

The one thing that a reader asks and a scan does not is whether it has a range, before it seeks the
whole of it on its own. A scan that was not sought has none, which is part of its invariant.
-/

namespace CompositeScan

open Search (Pace)

/-- What a scan is about at a position. -/
def Position.state : Position → ReadState
  | unsought => .seeking
  | on _ _ => .positioned
  | exhausted => .exhausted

namespace Reader

variable {r r' : Reader} {pace pace' : Pace} {outcome : Outcome}

theorem findInRange_of_done (h : r.turn pace = .done outcome) : r.findInRange pace = outcome := by
  rw [findInRange]
  split
  · next h' =>
    rw [h] at h'
    cases h'
    rfl
  · next h' =>
    rw [h] at h'
    cases h'

theorem findInRange_of_again (h : r.turn pace = .again pace' r') :
    r.findInRange pace = r'.findInRange pace' := by
  rw [findInRange]
  split
  · next h' =>
    rw [h] at h'
    cases h'
  · next h' =>
    rw [h] at h'
    cases h'
    rfl

variable {range : KeyRange} {entry : Entry}

theorem advanceStorage_of_stepping (h : r.reseekPending = false) :
    r.advanceStorage = r.stepStorage := by
  rw [advanceStorage, h]
  rfl

theorem advanceStorage_of_reseek (h : r.reseekPending = true) (hrange : r.range = some range)
    (hcurrent : r.current = some entry) :
    r.advanceStorage =
      ({ r with reseekPending := false } : Reader).seekStorage (range.dropThrough entry.key) := by
  simp only [advanceStorage, h, if_true, hrange, hcurrent]

theorem advanceStorage_of_range_eq_none (h : r.reseekPending = true) (hrange : r.range = none) :
    r.advanceStorage = (none, ({ r with reseekPending := false } : Reader).exhaust) := by
  simp only [advanceStorage, h, if_true, hrange]

/-- The reader after a call. -/
def after (r : Reader) : Call → Reader
  | .seek range => (r.seek range).2
  | .start => r.start.2
  | .advance => r.advance.2
  | .next => r.next.2
  | .fork => r.fork

/-- The reader after calls, one after the other. -/
def run (r : Reader) (calls : List Call) : Reader := calls.foldl after r

/-- The range that a call passes to a seek. A reader that was not sought yet passes its whole range
when it is asked for an item. -/
def rangeOf (r : Reader) : Call → Option KeyRange
  | .seek range => some range
  | .start => some r.selection.range
  | .next => if r.state = .seeking ∧ r.deferred = none then some r.selection.range else none
  | .advance => none
  | .fork => none

/-- The range that calls pass to a seek last. -/
def lastRange (r : Reader) : List Call → Option KeyRange
  | [] => none
  | call :: calls => ((r.after call).lastRange calls).or (r.rangeOf call)

end Reader

namespace Scan

open Reader (Outcome failClosed)

/-- The scan in registers. -/
def toReader (s : Scan) : Reader where
  selection := s.selection
  config := s.config
  storage := s.cursor
  range := s.range
  state := s.position.state
  current := s.current
  reseekPending := match s.position with
    | .on _ reseek => reseek
    | _ => false
  seeks := s.seeks
  deferred := s.deferred

/-- The registers in the middle of a call: the state and the current entry are not written yet. -/
def underway (s : Scan) (state : ReadState) (current : Option Entry) : Reader :=
  { s.toReader with state := state, current := current, reseekPending := false }

/-- What a call on the scan comes to, in registers. -/
def toOutcome (outcome : Option Error × Scan) : Outcome := (outcome.1, outcome.2.toReader)

variable {s first : Scan} {last : Option KeyRange} {entry : Entry} {state : ReadState}
  {current : Option Entry} {reseek : Bool}

theorem reseekPending_of_on (h : s.position = .on entry reseek) :
    s.toReader.reseekPending = reseek := by
  simp only [toReader, h]

theorem reseekPending_of_unsought (h : s.position = .unsought) :
    s.toReader.reseekPending = false := by
  simp only [toReader, h]

theorem toReader_eq_underway (h : s.toReader.reseekPending = false) :
    s.toReader = s.underway s.position.state s.current := by
  rw [underway, ← h]
  rfl

theorem state_toReader_eq_seeking_iff :
    s.toReader.state = .seeking ↔ s.position = .unsought := by
  rcases hpos : s.position with _ | _ | _ <;> simp [toReader, hpos, Position.state]

theorem state_toReader_eq_exhausted_iff :
    s.toReader.state = .exhausted ↔ s.position = .exhausted := by
  rcases hpos : s.position with _ | _ | _ <;> simp [toReader, hpos, Position.state]

/-! ## In the middle of a call -/

/-- To move the storage cursor touches neither the state nor the current entry. -/
theorem moved_underway (s : Scan) (state : ReadState) (current : Option Entry) (c : Cursor) :
    (s.underway state current).moved c =
      ({ s with cursor := c } : Scan).underway state current := by
  have hseeks : s.seeks + c.usage.seeks - s.cursor.usage.seeks = c.usage.seeks := by
    rw [seeks, Nat.add_sub_cancel_left]
  simp only [underway, Reader.moved, toReader, hseeks]
  rfl

/-- A search writes the registers of the scan that it settles, whatever stood in the state and the
current entry before. -/
theorem failClosed_findInRange (s : Scan) (state : ReadState) (current : Option Entry)
    (pace : Pace) :
    failClosed ((s.underway state current).findInRange pace) =
      toOutcome (s.settle (search s.goal pace s.cursor)) := by
  suffices h : ∀ goal c, s.goal = goal →
      failClosed ((({ s with cursor := c } : Scan).underway state current).findInRange pace) =
        toOutcome (s.settle (search goal pace c)) from h s.goal s.cursor rfl
  intro goal c hgoal
  fun_induction search goal pace c with
  | case1 pace c finding c' hmove =>
    have hturn := Reader.turn_eq (({ s with cursor := c } : Scan).underway state current) pace
    rw [show Search.move _ pace _ = _ from hgoal ▸ hmove] at hturn
    cases finding <;> rw [Reader.findInRange_of_done hturn, moved_underway] <;> rfl
  | case2 pace c pace' c' hmove ih =>
    have hturn := Reader.turn_eq (({ s with cursor := c } : Scan).underway state current) pace
    rw [show Search.move _ pace _ = _ from hgoal ▸ hmove] at hturn
    rw [Reader.findInRange_of_again hturn, moved_underway]
    exact ih

/-- Once the storage cursor was moved, a call goes on as the scan does. -/
theorem failClosed_andThen (s : Scan) (moved : Option Failure × Cursor) {f : Reader → Outcome}
    (hf : ∀ c, f (({ s with cursor := c } : Scan).underway state current) =
      (({ s with cursor := c } : Scan).underway state current).findInRange (.stepping 0)) :
    failClosed
        (Outcome.andThen (moved.1.map .storage, (s.underway state current).moved moved.2) f) =
      toOutcome (s.resume moved) := by
  obtain ⟨_ | failure, c⟩ := moved
  · rw [moved_underway, Option.map_none, Outcome.andThen, hf, failClosed_findInRange]
    rfl
  · rw [moved_underway]
    rfl

/-! ## Calls -/

theorem seek_toReader (s : Scan) (range : KeyRange) :
    s.toReader.seek range = toOutcome (s.seek range) := by
  change failClosed (((({ s with range := some range } : Scan).underway .seeking
    none).seekStorage range).andThen _) = _
  rw [Reader.seekStorage_eq]
  exact failClosed_andThen _ _ fun _ ↦ rfl

theorem start_toReader (s : Scan) : s.toReader.start = toOutcome s.start :=
  s.seek_toReader s.selection.range

/-- Until the next entry is found, the state still says that the reader is at the entry left. -/
theorem advance_of_advanceStorage {moved : Option Failure × Cursor} (hpos : s.position ≠ .exhausted)
    (h : s.toReader.advanceStorage =
      (moved.1.map .storage, (s.underway s.position.state s.current).moved moved.2)) :
    s.toReader.advance = toOutcome (s.resume moved) := by
  have hstate : s.toReader.state ≠ .exhausted := mt state_toReader_eq_exhausted_iff.1 hpos
  rw [Reader.advance, if_neg hstate, h]
  exact s.failClosed_andThen moved fun _ ↦ if_neg hstate

theorem advance_of_stepping (hpos : s.position ≠ .exhausted)
    (h : s.toReader.reseekPending = false) :
    s.toReader.advance = toOutcome (s.resume s.cursor.advance) := by
  apply advance_of_advanceStorage hpos
  rw [Reader.advanceStorage_of_stepping h, Reader.stepStorage_eq, toReader_eq_underway h]
  rfl

theorem advance_of_reseek {range : KeyRange} (hpos : s.position = .on entry true)
    (hrange : s.range = some range) :
    s.toReader.advance = toOutcome (s.resume (s.cursor.seek (range.dropThrough entry.key))) := by
  apply advance_of_advanceStorage (by simp [hpos])
  rw [Reader.advanceStorage_of_reseek (reseekPending_of_on hpos) hrange (current_of_position hpos),
    Reader.seekStorage_eq]
  rfl

theorem advance_toReader (s : Scan) : s.toReader.advance = toOutcome s.advance := by
  rcases hpos : s.position with _ | ⟨entry, _ | _⟩ | _
  · rw [advance_of_stepping (by simp [hpos]) (reseekPending_of_unsought hpos)]
    simp only [advance, hpos]
  · rw [advance_of_stepping (by simp [hpos]) (reseekPending_of_on hpos)]
    simp only [advance, hpos]
  · rcases hrange : s.range with _ | range
    -- A fork that is at an entry has a range, but this is not for the registers to know.
    · have hadvance : s.advance = (none, { s with position := .exhausted }) := by
        simp [advance, hpos, hrange]
      rw [hadvance, Reader.advance, if_neg (by simp [state_toReader_eq_exhausted_iff, hpos]),
        Reader.advanceStorage_of_range_eq_none (reseekPending_of_on hpos) hrange]
      rfl
    · rw [advance_of_reseek hpos hrange]
      simp only [advance, hpos, hrange]
  · rw [Reader.advance, if_pos (state_toReader_eq_exhausted_iff.2 hpos), advance, hpos]
    rfl

theorem fork_toReader (s : Scan) : s.toReader.fork = s.fork.toReader := by
  rcases hpos : s.position with _ | _ | _ <;>
    simp [Reader.fork, toReader, fork, hpos, Position.state, Scan.current, seeks, Cursor.fork]

theorem yieldCurrent_toReader (hdef : s.deferred = none) :
    s.toReader.yieldCurrent = (s.yieldCurrent.1, s.yieldCurrent.2.toReader) := by
  have hadvance := s.advance_toReader
  have hdef' := (deferred_advance s).trans hdef
  rcases hpos : s.position with _ | ⟨entry, reseek⟩ | _
  · have hstate : s.toReader.state ≠ .positioned := by simp [toReader, hpos, Position.state]
    rw [Reader.yieldCurrent, if_neg hstate, yieldCurrent, hpos]
  · have hstate : s.toReader.state = .positioned := by simp [toReader, hpos, Position.state]
    have hcurrent : s.toReader.current = some entry := current_of_position hpos
    rw [Reader.yieldCurrent, if_pos hstate, yieldCurrent_of_on hpos]
    simp only [hcurrent, hadvance]
    generalize s.advance = outcome at hdef'
    -- Where no error was met, the register of the error is not written. It is empty.
    obtain ⟨_ | e, s'⟩ := outcome
    · cases s'
      simp only at hdef'
      subst hdef'
      rfl
    · rfl
  · have hstate : s.toReader.state ≠ .positioned := by simp [toReader, hpos, Position.state]
    rw [Reader.yieldCurrent, if_neg hstate, yieldCurrent_of_exhausted hpos]

theorem next_toReader (hrange : s.position = .unsought → s.range = none) :
    s.toReader.next = (s.next.1, s.next.2.toReader) := by
  rcases hdef : s.deferred with _ | e
  · have hstart := s.start_toReader
    have hdef' := (deferred_start s).trans hdef
    by_cases hpos : s.position = .unsought
    · have hasked : s.toReader.state = .seeking ∧ s.toReader.range = none :=
        ⟨state_toReader_eq_seeking_iff.2 hpos, hrange hpos⟩
      simp only [Reader.next, show s.toReader.deferred = none from hdef, if_pos hasked, hstart]
      rcases hsought : s.start with ⟨_ | e, sought⟩
      · rw [hsought] at hdef'
        rw [next_of_start hpos hdef hsought]
        exact yieldCurrent_toReader hdef'
      · rw [next_of_start_eq_some hpos hdef hsought]
        rfl
    · have hstate : s.toReader.state ≠ .seeking := mt state_toReader_eq_seeking_iff.1 hpos
      have hwaits : s.toReader.deferred = none := hdef
      simp only [Reader.next, hwaits, if_neg (mt And.left hstate)]
      rw [next_of_sought hpos hdef]
      exact yieldCurrent_toReader hdef
  · rw [next_of_deferred hdef]
    simp only [Reader.next, show s.toReader.deferred = some e from hdef]
    rfl

/-! ## Lines of calls -/

/-- **One call** on a reader is one call on the scan. -/
theorem Descends.after_toReader (h : s.Descends first last) (call : Call) :
    s.toReader.after call = (s.after call).toReader := by
  cases call with
  | seek range => exact congrArg Prod.snd (s.seek_toReader range)
  | start => exact congrArg Prod.snd s.start_toReader
  | advance => exact congrArg Prod.snd s.advance_toReader
  | next => exact congrArg Prod.snd (next_toReader fun hpos ↦ h.range_eq.trans (h.unsought hpos).1)
  | fork => exact s.fork_toReader

theorem rangeOf_toReader (s : Scan) (call : Call) : s.toReader.rangeOf call = s.rangeOf call := by
  cases call with
  | next =>
    simp only [Reader.rangeOf, rangeOf, state_toReader_eq_seeking_iff]
    rfl
  | _ => rfl

/-- **Any number of calls** on a reader are these calls on the scan. -/
theorem Descends.run_toReader (h : s.Descends first last) (calls : List Call) :
    s.toReader.run calls = (s.run calls).toReader ∧
      s.toReader.lastRange calls = s.lastRange calls := by
  induction calls generalizing s last with
  | nil => exact ⟨rfl, rfl⟩
  | cons call calls ih =>
    obtain ⟨hrun, hlast⟩ := ih (h.after call)
    rw [← h.after_toReader call] at hrun hlast
    refine ⟨hrun, ?_⟩
    rw [Reader.lastRange, lastRange, hlast, rangeOf_toReader]

end Scan

/-- **A new reader goes where a new scan goes**, whatever calls are made and however the storage
fails. -/
theorem Reader.run_new (selection : Selection) (config : Config) (store : Store)
    (faults : FaultPlan) (calls : List Call) :
    (new selection config (.new store faults)).run calls =
        ((Scan.fresh selection config store faults).run calls).toReader ∧
      (new selection config (.new store faults)).lastRange calls =
        (Scan.fresh selection config store faults).lastRange calls :=
  (Scan.descends_fresh selection config store faults).run_toReader calls

end CompositeScan
