import CompositeScan.Domain.Basic
import CompositeScan.Domain.Counter

/-!
# Hexadecimal counters

Zero-padded lowercase hexadecimal numbers of one width. A value is read into its digits, the
digits are stepped as a counter of base sixteen, and written back.
-/

namespace CompositeScan

namespace Hex

/-- The digit that `c` writes. -/
def digit? (c : Char) : Option (Fin 16) :=
  if '0' ≤ c ∧ c ≤ '9' then some (Fin.ofNat 16 (c.toNat - '0'.toNat))
  else if 'a' ≤ c ∧ c ≤ 'f' then some (Fin.ofNat 16 (c.toNat - 'a'.toNat + 10))
  else none

/-- The digits of a value: at least one, and nothing else. -/
def digits? (t : Text) : Option (List (Fin 16)) :=
  if t = [] then none else t.mapM digit?

/-- Writes digits. -/
def write (digits : List (Fin 16)) : Text :=
  digits.map fun (d : Fin 16) ↦ Nat.digitChar d.val

/-- The digit above `d`. -/
def up (d : Fin 16) : Option (Fin 16) := d.addNat? 1

/-- The digit below `d`. -/
def down (d : Fin 16) : Option (Fin 16) :=
  if 0 < d.val then some (d - 1) else none

/-- Steps the digits of a value with `move`, wrapping to `wrap`. -/
def step (move : Fin 16 → Option (Fin 16)) (wrap : Fin 16) (t : Text) : Except StepError Text :=
  match digits? t with
  | none => .error (.outsideDomain t "hex")
  | some digits =>
    match Counter.step move wrap digits with
    | none => .error (.exhausted t)
    | some moved => .ok (write moved)

/-- The value denoting one more. -/
def successor : Text → Except StepError Text := step up 0

/-- The value denoting one less. -/
def predecessor : Text → Except StepError Text := step down 15

end Hex

/-- Zero-padded lowercase hexadecimal counters. -/
def Domain.hex : Domain where
  successor := Hex.successor
  predecessor := Hex.predecessor

end CompositeScan
