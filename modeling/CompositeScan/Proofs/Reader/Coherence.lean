import CompositeScan.Proofs.Reader.Refinement

/-!
# What a reader shows between calls

A caller sees the registers of a reader: whether it says that it has an entry, the state, the
current entry, the range. Between calls they agree (`Reader.Coherent`), whatever calls were made on
a new reader, its forks and theirs, and wherever the storage failed in them (`Reader.run_coherent`).

## Where it comes from

Registers that are those of a scan agree, because a scan has one position and not four registers
(`Reader.coherent_toReader`). That a call leaves such registers is what was shown of every call in
turn, errors in mid-call included, so nothing of it has to be done again here. The current entry is
one of the store, admitted and in the range last sought, since that holds of the scan.

## After an error

An error is met in a call that gives it back at once, or else in going on from an entry that is
handed out; then it is put aside and given back by the next call, which does not meet it again. In
either case `Reader.failClosed` was the last to write. A reader that it exhausted stays exhausted,
does not touch its storage and gives no entry, until it is sought again
(`Reader.Exhausted.isOver`).
-/

namespace CompositeScan

open Scan (EntryIn Descends)

/-- The call seeks a range. -/
def Call.isSeek : Call → Bool
  | seek _ => true
  | start => true
  | _ => false

namespace Reader

variable {r : Reader} {s first : Scan} {last : Option KeyRange} {e : Error} {call : Call}
  {calls : List Call}

/-! ## Agreement -/

/-- What a caller sees of a reader between calls that passed the range `last` to a seek last. -/
structure Coherent (selection : Selection) (store : Store) (last : Option KeyRange) (r : Reader) :
    Prop where
  /-- The reader says that it has an entry just if it holds one. -/
  hasCurrent_iff : r.hasCurrent ↔ r.current.isSome
  /-- It is positioned just if it holds one. -/
  positioned_iff : r.state = .positioned ↔ r.current.isSome
  /-- It is seeking only as long as no seek was made, and then it has no range. -/
  seeking : r.state = .seeking → last = none ∧ r.range = none
  /-- The entry is one of the store, admitted, and in the range last sought. -/
  current : ∀ entry, r.current = some entry →
    ∃ range, last = some range ∧ EntryIn selection store range entry
  /-- A seek is put off only at an entry. -/
  reseek : r.reseekPending → r.state = .positioned

theorem coherent_toReader (h : s.Descends first last) :
    s.toReader.Coherent first.selection first.cursor.store last := by
  have hpositioned : s.toReader.state = .positioned ↔ s.toReader.current.isSome := by
    rcases hpos : s.position with _ | _ | _ <;>
      simp [Scan.toReader, Scan.current, hpos, Position.state]
  refine ⟨?_, hpositioned, fun hseeking ↦ ?_, fun entry hcurrent ↦ ?_, fun hreseek ↦ ?_⟩
  · rw [← hpositioned, hasCurrent, beq_iff_eq]
  · obtain ⟨hlast, -, -⟩ := h.unsought (Scan.state_toReader_eq_seeking_iff.1 hseeking)
    exact ⟨hlast, h.range_eq.trans hlast⟩
  · obtain ⟨reseek, hpos⟩ := Scan.position_of_current hcurrent
    obtain ⟨range, hlast, hentry, -⟩ := h.on hpos
    exact ⟨range, hlast, hentry⟩
  · rcases hpos : s.position with _ | _ | _ <;>
      simp [Scan.toReader, hpos, Position.state] at hreseek ⊢

/-! ## Errors -/

/-- The error met in asking for an item: it is given back, or put aside if it was met in going on
from an entry that is handed out. -/
def metAsking : Option Item × Reader → Option Error
  | (some (.error e), _) => some e
  | (_, r) => r.deferred

/-- The error that a call meets. To hand out an error that was put aside is not to meet it. -/
def met? (r : Reader) : Call → Option Error
  | .seek range => (r.seek range).1
  | .start => r.start.1
  | .advance => r.advance.1
  | .next => if r.deferred = none then metAsking r.next else none
  | .fork => none

/-- There is nothing more to read. -/
structure Exhausted (r : Reader) : Prop where
  /-- The state says so. -/
  state : r.state = .exhausted
  /-- There is no entry. -/
  current : r.current = none

theorem exhausted_of_failClosed {outcome : Outcome} (h : (failClosed outcome).1 = some e) :
    (failClosed outcome).2.Exhausted := by
  obtain ⟨_ | e', r⟩ := outcome
  · cases h
  · exact ⟨rfl, rfl⟩

theorem exhausted_of_advance (h : r.advance.1 = some e) : r.advance.2.Exhausted := by
  rw [advance] at h ⊢
  split at h
  · cases h
  · next hstate =>
    rw [if_neg hstate]
    exact exhausted_of_failClosed h

/-- An error that is put aside was met in going on from the entry. -/
theorem exhausted_of_metAsking_yieldCurrent (hdef : r.deferred = none)
    (hadvance : r.advance.2.deferred = none) (h : metAsking r.yieldCurrent = some e) :
    r.yieldCurrent.2.Exhausted := by
  by_cases hstate : r.state = .positioned
  · rcases hcurrent : r.current with _ | entry
    · simp [yieldCurrent, hstate, hcurrent, metAsking, hdef] at h
    · have hover : ∀ e, r.advance.1 = some e → r.advance.2.Exhausted := fun _ ↦ exhausted_of_advance
      rcases hmoved : r.advance with ⟨_ | e', r'⟩
      · have hdef' : r'.deferred = none := by rwa [hmoved] at hadvance
        simp [yieldCurrent, hstate, hcurrent, hmoved, metAsking, hdef'] at h
      · obtain ⟨hstate', hcurrent'⟩ := hover e' (congrArg Prod.fst hmoved)
        rw [hmoved] at hstate' hcurrent'
        simp only [yieldCurrent, hstate, if_true, hcurrent, hmoved]
        exact ⟨hstate', hcurrent'⟩
  · simp [yieldCurrent, hstate, metAsking, hdef] at h

theorem deferred_advance_toReader (s : Scan) : s.toReader.advance.2.deferred = s.deferred := by
  rw [Scan.advance_toReader]
  exact Scan.deferred_advance s

theorem exhausted_next_of_metAsking (hdef : s.deferred = none)
    (h : metAsking s.toReader.next = some e) : s.toReader.next.2.Exhausted := by
  have hnext : s.toReader.deferred = none := hdef
  simp only [next, hnext] at h ⊢
  split at h
  · next hasked =>
    rw [if_pos hasked, Scan.start_toReader]
    rw [Scan.start_toReader] at h
    have hfailed : (Scan.toOutcome s.start).1 = some e → (Scan.toOutcome s.start).2.Exhausted := by
      rw [← Scan.start_toReader]
      exact exhausted_of_failClosed
    have hdef' := (Scan.deferred_start s).trans hdef
    generalize s.start = outcome at h hfailed hdef'
    obtain ⟨_ | e', sought⟩ := outcome
    · exact exhausted_of_metAsking_yieldCurrent hdef'
        ((deferred_advance_toReader sought).trans hdef') h
    · exact hfailed h
  · next hasked =>
    rw [if_neg hasked]
    exact exhausted_of_metAsking_yieldCurrent hnext ((deferred_advance_toReader s).trans hdef) h

/-- **A call that meets an error** leaves the reader exhausted. -/
theorem exhausted_after_of_met (h : s.toReader.met? call = some e) :
    (s.toReader.after call).Exhausted := by
  cases call with
  | seek range => exact exhausted_of_failClosed h
  | start => exact exhausted_of_failClosed h
  | advance => exact exhausted_of_advance h
  | next =>
    rw [met?] at h
    split at h
    · next hdef => exact exhausted_next_of_metAsking hdef h
    · cases h
  | fork => cases h

/-- The reader is over until it is sought again: it has no entry, advancing it succeeds and changes
nothing, and asking it for an item gives no entry and leaves the storage cursor alone. -/
structure Over (r : Reader) : Prop extends r.Exhausted where
  /-- Advancing it changes nothing. -/
  advance : r.advance = (none, r)
  /-- It hands out no entry. -/
  next : ∀ entry, r.next.1 ≠ some (.ok entry)
  /-- It does not touch its storage cursor to find one. -/
  storage_next : r.next.2.storage = r.storage

namespace Exhausted

theorem yieldCurrent (h : r.Exhausted) : r.yieldCurrent = (none, r) := by
  rw [Reader.yieldCurrent, if_neg (by simp [h.state])]

theorem next (h : r.Exhausted) :
    r.next = (r.deferred.map .error, { r with deferred := none }) := by
  rcases hdef : r.deferred with _ | e
  · have hasked : ¬(r.state = .seeking ∧ r.range = none) := by simp [h.state]
    simp only [Reader.next, hdef, if_neg hasked, h.yieldCurrent, Option.map_none]
    rw [← hdef]
  · simp only [Reader.next, hdef, Option.map_some]

theorem isOver (h : r.Exhausted) : r.Over := by
  refine ⟨h, if_pos h.state, ?_, ?_⟩
  · intro entry
    rw [h.next]
    cases r.deferred <;> simp
  · rw [h.next]

theorem after (h : r.Exhausted) (hcall : call.isSeek = false) : (r.after call).Exhausted := by
  cases call with
  | seek range => cases hcall
  | start => cases hcall
  | advance =>
    rw [Reader.after, h.isOver.advance]
    exact h
  | next =>
    rw [Reader.after, h.next]
    exact ⟨h.state, h.current⟩
  | fork => exact ⟨h.state, h.current⟩

/-- Nothing but a seek brings back a reader that is exhausted. -/
theorem run (h : r.Exhausted) (hcalls : ∀ call ∈ calls, call.isSeek = false) :
    (r.run calls).Exhausted := by
  induction calls generalizing r with
  | nil => exact h
  | cons call calls ih =>
    obtain ⟨hcall, hcalls⟩ := List.forall_mem_cons.1 hcalls
    exact ih (h.after hcall) hcalls

end Exhausted

/-! ## Any line of calls -/

/-- **Whatever calls were made**, on a new reader, its forks and theirs, and however the storage
failed: a reader says that it has an entry, is positioned and holds an entry, all or none of these,
and the entry is stored with its value, admitted, and in the range last passed to a seek; it is
seeking only if no seek was made; a seek is put off only at an entry; and a call that meets an error
leaves it exhausted, so that it gives no entry and leaves its storage alone until it is sought
again. -/
theorem run_coherent (selection : Selection) (config : Config) (store : Store)
    (faults : FaultPlan) (calls : List Call) :
    ((new selection config (.new store faults)).run calls).Coherent selection store
      ((new selection config (.new store faults)).lastRange calls) ∧
    ∀ call e, ((new selection config (.new store faults)).run calls).met? call = some e →
      ∀ later : List Call, (∀ call ∈ later, call.isSeek = false) →
        ((((new selection config (.new store faults)).run calls).after call).run later).Over := by
  obtain ⟨hrun, hlast⟩ := run_new selection config store faults calls
  rw [hrun, hlast]
  refine ⟨coherent_toReader (Scan.descends_run_fresh selection config store faults calls), ?_⟩
  intro call e hmet later hlater
  exact ((exhausted_after_of_met hmet).run hlater).isOver

end Reader

end CompositeScan
