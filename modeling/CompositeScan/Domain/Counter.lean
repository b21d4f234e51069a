/-!
# Counters

A sequence of digits of fixed length, moved by one unit: the last digit that can move does, and the
digits after it wrap around. The digits may be anything with a partial step, so characters and
hexadecimal digits, going up or going down, are the same counter.

The number of digits never changes, and a carry out of the first digit is not an overflow but a
failure: a text of one more character would be a value of another length.
-/

namespace CompositeScan.Counter

variable {α : Type}

/-- Moves `digits` by one unit, or fails when every digit is at the end of its course. -/
def step (move : α → Option α) (wrap : α) : List α → Option (List α)
  | [] => none
  | d :: digits =>
    match step move wrap digits with
    | some moved => some (d :: moved)
    | none => (move d).map (· :: List.replicate digits.length wrap)

theorem length_eq_of_step {move : α → Option α} {wrap : α} {digits moved : List α}
    (h : step move wrap digits = some moved) : moved.length = digits.length := by
  induction digits generalizing moved with
  | nil => cases h
  | cons d digits ih =>
    simp only [step] at h
    split at h
    · next rest hrest => cases h; simp [ih hrest]
    · obtain ⟨e, -, rfl⟩ := Option.map_eq_some_iff.1 h
      simp

theorem step_eq_none_iff {move : α → Option α} {wrap : α} {digits : List α} :
    step move wrap digits = none ↔ ∀ d ∈ digits, move d = none := by
  induction digits with
  | nil => simp [step]
  | cons d digits ih =>
    simp only [step]
    split
    · next rest hrest => simp [← ih, hrest]
    · next hnone => simp [← ih, hnone]

end CompositeScan.Counter
