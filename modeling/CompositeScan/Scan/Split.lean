import CompositeScan.Scan.Iterate

/-!
# Splitting a scan

A range of keys is cut at given points into parts that are scanned independently, each through a
fork of the storage cursor. A point that is not inside what is left of the range cuts nothing.

The parts are sought as soon as they are made, one after the other, and each with the configuration
that a scan has by default. A part whose seek fails gives that error and nothing else. How the items
of the parts are put together again is not decided here: one after the other, or merged by key.
-/

namespace CompositeScan

/-- The parts into which points cut a range, in the order of the range. -/
def KeyRange.cut (range : KeyRange) : List Key → List KeyRange
  | [] => [range]
  | point :: points =>
    match range.split? point with
    | some (left, right) => left :: KeyRange.cut right points
    | none => KeyRange.cut range points

namespace Scan

/-- A scan of a part of the range, already sought. -/
def part (selection : Selection) (cursor : Cursor) (range : KeyRange) : Option Error × Scan :=
  (new selection {} cursor.fork).seek range

/-- The scans of the parts of a selection's range. -/
def split (selection : Selection) (cursor : Cursor) (points : List Key) :
    List (Option Error × Scan) :=
  (KeyRange.cut selection.range points).map (part selection cursor)

/-- The items of a scan that was sought, and the scan after that: the error it met, or the entries
it stands before. -/
def drainSought : Option Error × Scan → List Item × Scan
  | (some e, s) => ([.error e], s)
  | (none, s) => s.drain

end Scan

end CompositeScan
