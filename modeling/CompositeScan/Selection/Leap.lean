import CompositeScan.Selection.Basic

/-!
# Leaps

From a key out of range, the next key worth seeking is found as an odometer finds its next
reading, from the least significant value on:

* a value below its bound moves up to the bound, and everything after it is set back to the least
  values in range;
* a value above its bound is set back itself, and the value before it has to move on;
* a value within its bound stays, unless the value after it asked it to move on: then it takes the
  next value of its domain, or is set back in turn when there is none in range.

Variable-length values have no next value, and because the separator sorts after every character
they sort after their own extensions once more values follow. So a target never goes on past a
variable-length value that moved, and moving on from such a value means leaving behind every key
that shares it. Where no target is known to be safe, the answer is to go on one key at a time.
-/

namespace CompositeScan

/-- How to go on from a key out of range. -/
inductive Leap where
  /-- Go on at this key, which is greater. -/
  | seek (key : Key)
  /-- No greater key is in range. -/
  | exhausted
  /-- Go on at the next key. -/
  | step
  deriving DecidableEq

namespace Leap

/-- What a target has at the place of one field. -/
inductive Place where
  /-- This value, and whatever follows. -/
  | value (v : Text)
  /-- This value, and nothing after it. -/
  | last (v : Text)
  /-- Nothing from here on. -/
  | none

/-- Puts a place before the values that would follow it. -/
def Place.followedBy : Place → List Text → List Text
  | value v, values => v :: values
  | last v, _ => [v]
  | none, _ => []

/-- Why the values of a key are not turned to the end. -/
inductive Halt where
  /-- No safe target is known. -/
  | step
  /-- A target needs a value that does not exist. -/
  | failed (e : Error)

/-- The values of a key after a turn of its last fields. -/
structure Turned where
  /-- The value before these has to move on. -/
  carry : Bool
  /-- The values that a target has from here on. -/
  values : List Text

/-- The least value of a column. -/
def leastPlace (attr : String) (c : Column) : Except Halt Place :=
  match c.bound.lower, c.field.domain? with
  | .unbounded, _ => .ok .none
  | .included lo, some _ => .ok (.value lo)
  | .included lo, none => .ok (.last lo)
  | .excluded lo, some d =>
    match d.successor lo with
    | .ok next => .ok (.value next)
    | .error e => .error (.failed (.boundExhausted attr c.field.name e))
  | .excluded lo, none => .ok (.last lo)

/-- The least values of columns, up to the first that is not determined. Each column is asked, even
behind that one. -/
def leastValues (attr : String) (columns : List Column) : Except Halt (List Text) := do
  let places ← columns.mapM (leastPlace attr)
  return places.foldr Place.followedBy []

/-- The first value in range at or after `v`, which is below the bound of its column; `endsKey` says
that no value follows `v` in the key. -/
def raisedPlace (attr : String) (c : Column) (v : Text) (endsKey : Bool) : Except Halt Place :=
  match c.field.domain?, c.bound.lower.value? with
  | some _, _ => leastPlace attr c
  | none, none => .error .step
  | none, some lower =>
    -- Followed by more values, an extension of `v` sorts before `v` and is already past.
    if v < lower ∧ (endsKey ∨ ¬v <+: lower) then .ok (.last lower)
    else if endsKey then .error .step
    else match v.successor with
      | .ok past => .ok (.last past)
      | .error _ => .error .step

/-- A text shorter than `v` that `v` begins with is in range. -/
def HasShorterIn (bound : Interval Text) (v : Text) : Prop :=
  ∃ n, n < v.length ∧ v.take n ∈ bound

instance (bound : Interval Text) (v : Text) : Decidable (HasShorterIn bound v) :=
  inferInstanceAs (Decidable (∃ n, n < v.length ∧ v.take n ∈ bound))

/-- Moves on from a value within its bound, when `values` follow it. -/
def moveOn (attr : String) (c : Column) (v : Text) (values : List Text) : Except Halt Turned :=
  let setBack : Except Halt Turned := do
    let place ← leastPlace attr c
    return ⟨true, place.followedBy values⟩
  match c.field.domain? with
  | some d =>
    match d.successor v with
    | .ok next => if c.bound.upper.Above next then .ok ⟨false, next :: values⟩ else setBack
    | .error (.exhausted _) => setBack
    | .error (.outsideDomain _ _) => .error .step
  | none =>
    match v.successor with
    | .ok past => .ok ⟨false, [past]⟩
    | .error _ => .error .step

/-- Turns the value of one column, when the values after it, in the columns `later`, have turned to
`right`. -/
def turnValue (attr : String) (c : Column) (v : Text) (endsKey : Bool) (later : List Column)
    (right : Turned) : Except Halt Turned :=
  if ¬c.bound.lower.Below v then do
    let place ← raisedPlace attr c v endsKey
    let values ← leastValues attr later
    return ⟨false, place.followedBy values⟩
  else if ¬c.bound.upper.Above v then
    -- Followed by more values, a text that `v` extends sorts after `v`.
    if ¬c.field.isFixed ∧ HasShorterIn c.bound v then .error .step
    else do
      let place ← leastPlace attr c
      let values ← leastValues attr later
      return ⟨true, place.followedBy values⟩
  else if right.carry then moveOn attr c v right.values
  else .ok ⟨false, v :: right.values⟩

/-- Turns the values of a key, the least significant first. The key has `more` values than there
are columns. -/
def turn (attr : String) (more : Bool) : List (Column × Text) → Except Halt Turned
  | [] => .ok ⟨false, []⟩
  | (c, v) :: rest => do
    let right ← turn attr more rest
    turnValue attr c v (rest.isEmpty && !more) (rest.map Prod.fst) right

end Leap

/-- How to go on from a key out of range. The only failure is that a fixed-length field would have
to take the value after a bound that is the last of its domain. -/
def Selection.leapAfter (selection : Selection) (key : Key) : Except Error Leap :=
  let values := key.values
  let columns := selection.wideColumns
  match Leap.turn selection.attr (columns.length < values.length) (columns.zip values) with
  | .error .step => .ok .step
  | .error (.failed e) => .error e
  | .ok turned =>
    if turned.carry then .ok .exhausted
    else if key < .ofValues turned.values then .ok (.seek (.ofValues turned.values))
    else .ok .step

/-- A target is greater than the key it is for. -/
theorem Selection.lt_of_leapAfter {selection : Selection} {key target : Key}
    (h : selection.leapAfter key = .ok (.seek target)) : key < target := by
  simp only [leapAfter] at h
  split at h
  · simp at h
  · simp at h
  · split at h
    · simp at h
    · split at h
      · simp at h; subst h; assumption
      · simp at h

end CompositeScan
