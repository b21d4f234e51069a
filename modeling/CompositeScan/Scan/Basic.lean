import CompositeScan.Config
import CompositeScan.Scan.Search

/-!
# Scans

A scan drives a storage cursor over the entries a selection admits. It is a value: every operation
gives the scan that comes after, with the error it met, if any. An error ends the scan, which finds
nothing more until it is sought again.

A scan that is iterated has already moved on to the next entry when it hands one out. An error met
in that move is not lost: it waits in `deferred` and is handed out next.

A fork has a storage cursor of its own, which does not stand anywhere yet. The fork itself stands at
the same entry as the scan it was made from, and seeks the rest of the range on its first move.

## One position

Whether a scan is at an entry, which entry that is, and whether its storage cursor still has to be
sent there are one value, `Position`, so that they can not contradict one another and no proof has
to say that they do not. In memory they are kept apart and written one at a time. That this makes no
difference to what a call does is shown of `Reader`, which is a scan in that form.
-/

namespace CompositeScan

/-- Where a scan stands. -/
inductive Position where
  /-- Nothing was sought yet. -/
  | unsought
  /-- At an entry in range; with `reseek`, the storage cursor is not there yet. -/
  | on (entry : Entry) (reseek : Bool)
  /-- Past the last entry, or broken off. -/
  | exhausted
  deriving DecidableEq

/-- A scan over the entries that a selection admits. -/
structure Scan where
  /-- Which keys are in range. -/
  selection : Selection
  /-- How the scan is driven. -/
  config : Config
  /-- The storage cursor. -/
  cursor : Cursor
  /-- The range last sought. -/
  range : Option KeyRange
  /-- Where the scan stands. -/
  position : Position
  /-- An error met while an entry was handed out. -/
  deferred : Option Error

/-- What an iteration hands out. -/
abbrev Item := Except Error Entry

namespace Scan

/-- A scan that was not sought yet. -/
def new (selection : Selection) (config : Config) (cursor : Cursor) : Scan :=
  ⟨selection, config, cursor, none, .unsought, none⟩

/-- The entry at which the scan stands. -/
def current (s : Scan) : Option Entry :=
  match s.position with
  | .on entry _ => some entry
  | _ => none

/-- How many times the scan sought its storage. -/
def seeks (s : Scan) : Nat := s.cursor.usage.seeks

/-- What the scan searches. -/
def goal (s : Scan) : Search.Goal := ⟨s.selection, s.config.missLimit.toNat, s.range⟩

/-- The scan after a search. -/
def settle (s : Scan) : Finding × Cursor → Option Error × Scan
  | (.found entry, c) => (none, { s with cursor := c, position := .on entry false })
  | (.exhausted, c) => (none, { s with cursor := c, position := .exhausted })
  | (.failed e, c) => (some e, { s with cursor := c, position := .exhausted })

/-- The scan after its storage cursor moved: it searches on from there. -/
def resume (s : Scan) : Option Failure × Cursor → Option Error × Scan
  | (some failure, c) =>
    (some (.storage failure), { s with cursor := c, position := .exhausted })
  | (none, c) => s.settle (search s.goal (.stepping 0) c)

/-- Goes to the first entry of a range. -/
def seek (s : Scan) (range : KeyRange) : Option Error × Scan :=
  let s := { s with range := some range }
  s.resume (s.cursor.seek range)

/-- Goes to the first entry of the whole range of the selection. -/
def start (s : Scan) : Option Error × Scan := s.seek s.selection.range

/-- Goes to the next entry. -/
def advance (s : Scan) : Option Error × Scan :=
  match s.position with
  | .exhausted => (none, s)
  | .on entry true =>
    match s.range with
    | some range => s.resume (s.cursor.seek (range.dropThrough entry.key))
    | none => (none, { s with position := .exhausted })
  | _ => s.resume s.cursor.advance

/-- An independent scan that stands at the same entry. -/
def fork (s : Scan) : Scan :=
  { s with
    cursor := s.cursor.fork
    position := match s.position with
      | .on entry _ => .on entry true
      | position => position
    deferred := none }

/-- Hands out the entry at which the scan stands and goes on to the next one. -/
def yieldCurrent (s : Scan) : Option Item × Scan :=
  match s.position with
  | .on entry _ =>
    match s.advance with
    | (e, next) => (some (.ok entry), { next with deferred := e })
  | _ => (none, s)

/-- Hands out the next item. A scan that was not sought yet seeks its whole range first. -/
def next (s : Scan) : Option Item × Scan :=
  match s.deferred with
  | some e => (some (.error e), { s with deferred := none })
  | none =>
    match s.position with
    | .unsought =>
      match s.start with
      | (some e, sought) => (some (.error e), sought)
      | (none, sought) => sought.yieldCurrent
    | _ => s.yieldCurrent

end Scan

end CompositeScan
