/-!
# Text

Field values and keys are finite sequences of Unicode scalar values, compared by code point. They
are lists of characters rather than `String`s because everything that is said about them is said
by position: the first difference of two values, the prefix of a value, the fields between two
separators. The order is the lexicographic order of lists.

One character is reserved. `separator` stands between the fields of a key and sorts after every
character of a value, the greatest of which is `maxDatum`.
-/

namespace CompositeScan

/-- A sequence of Unicode scalar values, ordered by code point. -/
abbrev Text := List Char

namespace Text

/-! The order is named here, once, so that `≤` and the tests on it mean the same wherever other
orders of lists are around. -/

instance (priority := 2000) : LT Text := List.instLT

instance (priority := 2000) : LE Text := List.instLE

instance (priority := 2000) : DecidableLT Text := fun a b ↦ List.decidableLT a b

instance (priority := 2000) : DecidableLE Text := fun a b ↦ List.decidableLE a b

/-- The character between two fields of a key: the greatest scalar value. -/
def separator : Char := Char.ofNat 0x10FFFF

/-- The greatest character of a field value, next below the separator. -/
def maxDatum : Char := Char.ofNat 0x10FFFE

/-- The least character of a field value. -/
def minDatum : Char := Char.ofNat 0

/-- A text that can stand between two separators. -/
def Plain (t : Text) : Prop := separator ∉ t

instance (t : Text) : Decidable t.Plain := inferInstanceAs (Decidable (separator ∉ t))

theorem maxDatum_lt_separator : maxDatum < separator := by decide

theorem le_separator (c : Char) : c ≤ separator := by
  have h := c.valid
  simp only [UInt32.isValidChar, Nat.isValidChar] at h
  show c.val ≤ separator.val
  rw [UInt32.le_iff_toNat_le]
  show c.val.toNat ≤ 0x10FFFF
  omega

end Text

end CompositeScan
