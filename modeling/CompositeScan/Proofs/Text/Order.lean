import CompositeScan.Key
import Mathlib.Order.Basic

/-!
# The order of texts

Texts, stored bytes and keys are linearly ordered by the comparisons the library runs; this module
makes those orders available to proofs and takes the order of texts apart.

## Forks and prefixes

Of two texts in order, either the two *fork* — at some character the first has the lesser one — or
the first is a proper prefix of the second. The difference shows as soon as something is appended:
texts that fork keep their order whatever follows them, while a prefix keeps its place only if what
follows it is small enough. All statements about joined keys rest on this case distinction, since
the separator that follows a value in a key is greater than every character of a value.
-/

namespace CompositeScan

/-- The linear order made of the comparisons a type has. -/
abbrev linearOrderOfLawful (α : Type) [LE α] [LT α] [DecidableLE α] [DecidableLT α]
    [DecidableEq α] [Std.IsLinearOrder α] [Std.LawfulOrderLT α] : LinearOrder α where
  le_refl := Std.le_refl
  le_trans _ _ _ := Std.le_trans
  lt_iff_le_not_ge _ _ := Std.lt_iff_le_and_not_ge
  le_antisymm _ _ := Std.le_antisymm
  le_total _ _ := Std.le_total
  toDecidableLE := inferInstance
  toDecidableEq := inferInstance
  toDecidableLT := inferInstance

instance : LinearOrder Text := linearOrderOfLawful Text

instance : LinearOrder Bytes := linearOrderOfLawful Bytes

instance : Std.IsLinearOrder Key where
  le_refl k := le_refl k.text
  le_trans a b c := le_trans (a := a.text) (b := b.text) (c := c.text)
  le_antisymm a b h h' := by
    obtain ⟨s⟩ := a
    obtain ⟨t⟩ := b
    exact congrArg Key.mk (le_antisymm (a := s) h h')
  le_total a b := le_total a.text b.text

instance : Std.LawfulOrderLT Key where
  lt_iff a b := lt_iff_le_not_ge (a := a.text) (b := b.text)

instance : LinearOrder Key := linearOrderOfLawful Key

namespace Text

variable {s t u x y : Text}

theorem append_lt_append_left_iff : u ++ x < u ++ y ↔ x < y := by
  induction u with
  | nil => rfl
  | cons c u ih =>
    rw [List.cons_append, List.cons_append, List.cons_lt_cons_iff, ih,
      or_iff_right Std.lt_irrefl, and_iff_right rfl]

theorem append_le_append_left_iff : u ++ x ≤ u ++ y ↔ x ≤ y := by
  rw [← not_lt, ← not_lt, append_lt_append_left_iff]

theorem le_of_isPrefix (h : s <+: t) : s ≤ t := by
  obtain ⟨x, rfl⟩ := h
  exact List.le_append_left

theorem le_append (s x : Text) : s ≤ s ++ x := List.le_append_left

theorem cons_lt_cons_iff {c : Char} : c :: x < c :: y ↔ x < y :=
  append_lt_append_left_iff (u := [c])

theorem cons_le_cons_iff {c : Char} : c :: x ≤ c :: y ↔ x ≤ y :=
  append_le_append_left_iff (u := [c])

/-- The two texts differ at some character, the first time at one that is lesser in `s`. -/
def ForksBelow (s t : Text) : Prop :=
  ∃ p c d x y, s = p ++ c :: x ∧ t = p ++ d :: y ∧ c < d

namespace ForksBelow

/-- Texts that fork keep their order whatever follows. -/
theorem append_lt_append (h : ForksBelow s t) (x y : Text) : s ++ x < t ++ y := by
  obtain ⟨p, c, d, s', t', rfl, rfl, hlt⟩ := h
  rw [List.append_assoc, List.append_assoc, append_lt_append_left_iff]
  exact List.Lex.rel hlt

theorem lt (h : ForksBelow s t) : s < t := by
  simpa using h.append_lt_append [] []

theorem append_left (h : ForksBelow s t) (u : Text) : ForksBelow (u ++ s) (u ++ t) := by
  obtain ⟨p, c, d, x, y, rfl, rfl, hlt⟩ := h
  exact ⟨u ++ p, c, d, x, y, by simp, by simp, hlt⟩

theorem not_isPrefix (h : ForksBelow s t) : ¬s <+: t := by
  obtain ⟨p, c, d, x, y, rfl, rfl, hlt⟩ := h
  intro hpre
  obtain ⟨heq, -⟩ := List.cons_prefix_cons.1 ((List.prefix_append_right_inj p).1 hpre)
  exact Std.lt_irrefl (heq ▸ hlt)

end ForksBelow

/-- Two texts in order fork, or one is a proper prefix of the other. -/
theorem forksBelow_or_prefix_of_lt (h : s < t) : ForksBelow s t ∨ s <+: t ∧ s ≠ t := by
  induction h with
  | nil => exact .inr ⟨List.nil_prefix, by simp⟩
  | rel h => exact .inl ⟨[], _, _, _, _, rfl, rfl, h⟩
  | @cons c s t hlt ih =>
    rcases ih with hfork | ⟨hpre, hne⟩
    · exact .inl (hfork.append_left [c])
    · exact .inr ⟨(List.prefix_cons_inj c).2 hpre, by simpa using hne⟩

theorem forksBelow_iff : ForksBelow s t ↔ ¬s <+: t ∧ ¬t <+: s ∧ s < t := by
  constructor
  · intro h
    exact ⟨h.not_isPrefix, fun hpre ↦ not_lt.2 (le_of_isPrefix hpre) h.lt, h.lt⟩
  · rintro ⟨hnot, -, hlt⟩
    exact (forksBelow_or_prefix_of_lt hlt).resolve_right fun hpre ↦ hnot hpre.1

/-- A text that is not longer is never a proper extension, so it can only be greater by a fork. -/
theorem forksBelow_of_lt_of_length_le (h : s < t) (hlen : t.length ≤ s.length) :
    ForksBelow s t := by
  rcases forksBelow_or_prefix_of_lt h with hfork | ⟨hpre, hne⟩
  · exact hfork
  · exact absurd (hpre.eq_of_length_le hlen) hne

theorem lt_of_isPrefix_of_ne (h : s <+: t) (hne : s ≠ t) : s < t :=
  lt_of_le_of_ne (le_of_isPrefix h) hne

theorem exists_eq_append_cons (h : s <+: t) (hne : s ≠ t) : ∃ c x, t = s ++ c :: x := by
  obtain ⟨x, rfl⟩ := h
  cases x with
  | nil => simp at hne
  | cons c x => exact ⟨c, x, rfl⟩

theorem lt_separator_of_ne {c : Char} (h : c ≠ separator) : c < separator :=
  Std.lt_of_le_of_ne (le_separator c) h

theorem Plain.lt_separator (h : s.Plain) {c : Char} (hc : c ∈ s) : c < separator :=
  lt_separator_of_ne fun heq ↦ h (heq ▸ hc)

end Text

end CompositeScan
