/-!
# Configuration

How a scan is driven, and from when on data is known to be composite. The scan itself does not ask
when that was: it only decides whether a selection, for a scan that starts at a given time, admits
the keys written before.
-/

namespace CompositeScan

/-- How keys written before their attribute became composite are treated. -/
inductive LegacyKeys where
  /-- They are checked like any other key. -/
  | checked
  /-- They are admitted from the first field's lower literal on, whatever the relation was. -/
  | admitted
  deriving DecidableEq

/-- How a scan is driven. -/
structure Config where
  /-- How many keys out of range are stepped over in a row before a target is sought. -/
  missLimit : UInt64 := 10
  /-- The time in milliseconds before which data was not yet composite. -/
  compositeSince : Option UInt64 := none
  deriving DecidableEq

namespace Config

/-- How a scan that starts at `scanStart` treats keys written before. -/
def legacyKeys (c : Config) (scanStart : UInt64) : LegacyKeys :=
  match c.compositeSince with
  | some transition => if scanStart < transition then .admitted else .checked
  | none => .checked

end Config

end CompositeScan
