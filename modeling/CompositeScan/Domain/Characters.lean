import CompositeScan.Domain.Basic
import CompositeScan.Domain.Counter

/-!
# Stepping by character

Texts of one length, counted with the characters of field values as digits. Stepping never
produces the separator, so the neighbour of a field value is a field value.
-/

namespace CompositeScan

namespace Text

/-- The next character a field value may contain. -/
def nextDatum? (c : Char) : Option Char :=
  if c < maxDatum then c.succ? else none

/-- The character before `c` among those a field value may contain; the separator counts as
standing above them all. -/
def previousDatum? (c : Char) : Option Char :=
  if maxDatum < c then some maxDatum
  else if h : 0 < c.ordinal.val then some (Char.ofOrdinal ⟨c.ordinal.val - 1, by omega⟩)
  else none

/-- The least text of the same length above `t`. -/
def successor (t : Text) : Except StepError Text :=
  match Counter.step nextDatum? minDatum t with
  | some next => .ok next
  | none => .error (.exhausted t)

/-- The greatest text of the same length below `t`. -/
def predecessor (t : Text) : Except StepError Text :=
  match Counter.step previousDatum? maxDatum t with
  | some previous => .ok previous
  | none => .error (.exhausted t)

end Text

/-- All texts of one length, stepped by character. -/
def Domain.characters : Domain where
  successor := Text.successor
  predecessor := Text.predecessor

end CompositeScan
