import CompositeScan.Proofs.Text.Successor
import Mathlib.Order.Bounds.Basic

/-!
# Texts of one length in order

The texts of one length that hold no separator are the values of a field that is stepped by
character. `Text.successor` and `Text.predecessor` lead from each to its neighbours in the order of
texts, and fail at the last and the first of them only (`Text.neighbours_exact`).

Both directions are the same counter, whose digits follow the order of characters upwards or
downwards. That the steps undo each other needs no carry to be traced back: to be the least text
above `s` and to have `s` for the greatest text below are the same thing.

## The alphabet

Characters are numbered with a gap where the surrogates would be, and the last of them is the
separator, which is no part of a value. A step of one character goes across the gap and stops before
the separator. So the characters are counted by ordinals that have no gap, and of the step this is
all that is used: no character that a value may contain stands between one and the next.

A text may hold a separator all the same when it is stepped. For a step downwards that makes no
difference to whether it fails, since the separator is the greatest character and can be moved down
from. For a step upwards it does, and there the texts are asked to hold none.
-/

namespace CompositeScan

/-- Of two elements, the one is the least above if and only if the other is the greatest below. -/
theorem isLeast_above_iff_isGreatest_below {α : Type} [LinearOrder α] {p : α → Prop} {a b : α}
    (ha : p a) (hb : p b) : IsLeast {x | p x ∧ a < x} b ↔ IsGreatest {x | p x ∧ x < b} a := by
  constructor
  · rintro ⟨⟨-, hab⟩, hleast⟩
    refine ⟨⟨ha, hab⟩, ?_⟩
    rintro x ⟨hx, hxb⟩
    exact not_lt.1 fun hax ↦ not_lt.2 (hleast ⟨hx, hax⟩) hxb
  · rintro ⟨⟨-, hab⟩, hgreatest⟩
    refine ⟨⟨hb, hab⟩, ?_⟩
    rintro x ⟨hx, hax⟩
    exact not_lt.1 fun hxb ↦ not_lt.2 (hgreatest ⟨hx, hxb⟩) hax

namespace Text

variable {s t v w previous : Text} {c d e : Char}

/-! ## Characters downwards -/

theorem ordinal_of_previousDatum? (hc : c ≤ maxDatum) (h : previousDatum? c = some d) :
    d.ordinal.val + 1 = c.ordinal.val := by
  rw [previousDatum?, if_neg (not_lt.2 hc)] at h
  split at h
  · next hpos =>
    cases h
    rw [Char.ordinal_ofOrdinal]
    exact Nat.sub_add_cancel hpos
  · cases h

theorem lt_of_previousDatum? (h : previousDatum? c = some d) : d < c := by
  by_cases hc : maxDatum < c
  · rw [previousDatum?, if_pos hc, Option.some_inj] at h
    exact h ▸ hc
  · have hd := ordinal_of_previousDatum? (not_lt.1 hc) h
    rw [Char.lt_iff_ordinal_lt, Fin.lt_def]
    omega

theorem le_of_previousDatum? (h : previousDatum? c = some d) (he : e ≠ separator) (hlt : e < c) :
    e ≤ d := by
  by_cases hc : maxDatum < c
  · rw [previousDatum?, if_pos hc, Option.some_inj] at h
    exact h ▸ le_maxDatum_of_ne he
  · have hd := ordinal_of_previousDatum? (not_lt.1 hc) h
    rw [Char.lt_iff_ordinal_lt, Fin.lt_def] at hlt
    rw [Char.le_iff_ordinal_le, Fin.le_def]
    omega

theorem ne_separator_of_previousDatum? (h : previousDatum? c = some d) : d ≠ separator :=
  ne_of_lt ((lt_of_previousDatum? h).trans_le (le_separator c))

theorem minDatum_le (c : Char) : minDatum ≤ c := by
  rw [Char.le_iff_ordinal_le, Fin.le_def]
  exact Nat.zero_le _

theorem previousDatum?_eq_none_iff : previousDatum? c = none ↔ c = minDatum := by
  constructor
  · intro h
    rw [previousDatum?] at h
    split at h
    · cases h
    · split at h
      · cases h
      · next hzero =>
        refine le_antisymm ?_ (minDatum_le c)
        rw [Char.le_iff_ordinal_le, Fin.le_def]
        exact not_lt.1 hzero
  · rintro rfl
    rfl

theorem nextDatum?_eq_none_iff (hc : c ≠ separator) : nextDatum? c = none ↔ c = maxDatum := by
  constructor
  · exact fun h ↦ le_antisymm (le_maxDatum_of_ne hc) (le_of_nextDatum?_eq_none h)
  · rintro rfl
    rfl

/-- The characters a value may contain are stepped downwards in their order. -/
theorem previousDatum?_follows :
    Counter.Follows (fun c d ↦ d < c) (· ≠ separator) previousDatum? maxDatum where
  next hd he hlt := (le_of_previousDatum? hd he hlt).eq_or_lt.imp_left Eq.symm
  last hnone _ := previousDatum?_eq_none_iff.1 hnone ▸ not_lt.2 (minDatum_le _)
  first he := (le_maxDatum_of_ne he).eq_or_lt.imp_left Eq.symm

/-! ## Texts downwards -/

theorem lt_of_predecessor (h : v.predecessor = .ok previous) :
    previous < v ∧ previous.length = v.length := by
  rw [predecessor] at h
  split at h
  · next moved hstep =>
    cases h
    obtain ⟨p, c, d, x, y, hv, hprevious, hd⟩ := Counter.exists_of_step hstep
    have hfork : ForksBelow previous v := ⟨p, d, c, y, x, hprevious, hv, lt_of_previousDatum? hd⟩
    exact ⟨hfork.lt, Counter.length_eq_of_step hstep⟩
  · cases h

theorem plain_of_predecessor (hplain : v.Plain) (h : v.predecessor = .ok previous) :
    previous.Plain := by
  rw [predecessor] at h
  split at h
  · next moved hstep =>
    cases h
    exact plain_iff.2 (Counter.forall_mem_of_step ne_separator_of_previousDatum? (by decide)
      (plain_iff.1 hplain) hstep)
  · cases h

/-- The text before another one is the greatest below it that a value as long may be. -/
theorem le_predecessor_of_lt (h : v.predecessor = .ok previous) (hw : w.Plain)
    (hlen : w.length = v.length) (hlt : w < v) : w ≤ previous := by
  rw [predecessor] at h
  split at h
  · next moved hstep =>
    cases h
    have hmoved : w.length = previous.length := hlen.trans (Counter.length_eq_of_step hstep).symm
    have hlex := (Counter.lex_flip_iff hlen.symm).2 hlt
    rcases previousDatum?_follows.eq_or_lex_of_step hstep (plain_iff.1 hw) hlen hlex with
      rfl | hlex
    · exact le_rfl
    · exact le_of_lt ((Counter.lex_flip_iff hmoved.symm).1 hlex)
  · cases h

theorem not_lt_of_predecessor_eq_error {e : StepError} (h : v.predecessor = .error e)
    (hw : w.Plain) (hlen : w.length = v.length) : ¬w < v := by
  rw [predecessor] at h
  split at h
  · cases h
  · next hstep =>
    intro hlt
    exact previousDatum?_follows.not_lex_of_step_eq_none hstep (plain_iff.1 hw) hlen
      ((Counter.lex_flip_iff hlen.symm).2 hlt)

/-! ## Neighbours -/

theorem successor_eq_ok_iff (hs : s.Plain) :
    s.successor = .ok t ↔ IsLeast {w : Text | (w.Plain ∧ w.length = s.length) ∧ s < w} t := by
  have hleast : ∀ {next}, s.successor = .ok next →
      IsLeast {w : Text | (w.Plain ∧ w.length = s.length) ∧ s < w} next := by
    intro next h
    obtain ⟨hfork, hlen⟩ := forksBelow_of_successor h
    refine ⟨⟨⟨plain_of_successor hs h, hlen⟩, hfork.lt⟩, ?_⟩
    rintro w ⟨⟨hw, hlen⟩, hlt⟩
    exact successor_le_of_lt h hw hlen hlt
  refine ⟨hleast, fun ht ↦ ?_⟩
  cases h : s.successor with
  | ok next => rw [(hleast h).unique ht]
  | error e => exact absurd ht.1.2 (not_lt_of_successor_eq_error h ht.1.1.1 ht.1.1.2)

theorem predecessor_eq_ok_iff (hs : s.Plain) :
    s.predecessor = .ok t ↔ IsGreatest {w : Text | (w.Plain ∧ w.length = s.length) ∧ w < s} t := by
  have hgreatest : ∀ {previous}, s.predecessor = .ok previous →
      IsGreatest {w : Text | (w.Plain ∧ w.length = s.length) ∧ w < s} previous := by
    intro previous h
    obtain ⟨hlt, hlen⟩ := lt_of_predecessor h
    refine ⟨⟨⟨plain_of_predecessor hs h, hlen⟩, hlt⟩, ?_⟩
    rintro w ⟨⟨hw, hlen⟩, hlt⟩
    exact le_predecessor_of_lt h hw hlen hlt
  refine ⟨hgreatest, fun ht ↦ ?_⟩
  cases h : s.predecessor with
  | ok previous => rw [(hgreatest h).unique ht]
  | error e => exact absurd ht.1.2 (not_lt_of_predecessor_eq_error h ht.1.1.1 ht.1.1.2)

theorem successor_eq_error_iff {e : StepError} (hs : s.Plain) :
    s.successor = .error e ↔ e = .exhausted s ∧ ∀ c ∈ s, c = maxDatum := by
  have hnone : Counter.step nextDatum? minDatum s = none ↔ ∀ c ∈ s, c = maxDatum := by
    rw [Counter.step_eq_none_iff]
    exact forall₂_congr fun c hc ↦ nextDatum?_eq_none_iff (plain_iff.1 hs c hc)
  rw [← hnone, successor]
  cases Counter.step nextDatum? minDatum s with
  | none => simp [eq_comm]
  | some next => simp

theorem predecessor_eq_error_iff {e : StepError} :
    s.predecessor = .error e ↔ e = .exhausted s ∧ ∀ c ∈ s, c = minDatum := by
  have hnone : Counter.step previousDatum? maxDatum s = none ↔ ∀ c ∈ s, c = minDatum := by
    rw [Counter.step_eq_none_iff]
    exact forall₂_congr fun c _ ↦ previousDatum?_eq_none_iff
  rw [← hnone, predecessor]
  cases Counter.step previousDatum? maxDatum s with
  | none => simp [eq_comm]
  | some previous => simp

/-- **Stepping by character leads to the exact neighbours.** Among the values of its length, the
successor of a value is the least above it and the predecessor the greatest below; there is none
only where every character is the greatest, or the least; and the two undo each other. -/
theorem neighbours_exact (hs : s.Plain) :
    (∀ t, s.successor = .ok t ↔
      IsLeast {w : Text | (w.Plain ∧ w.length = s.length) ∧ s < w} t) ∧
    (∀ e, s.successor = .error e ↔ e = .exhausted s ∧ ∀ c ∈ s, c = maxDatum) ∧
    (∀ t, s.predecessor = .ok t ↔
      IsGreatest {w : Text | (w.Plain ∧ w.length = s.length) ∧ w < s} t) ∧
    (∀ e, s.predecessor = .error e ↔ e = .exhausted s ∧ ∀ c ∈ s, c = minDatum) ∧
    ∀ t : Text, t.Plain → (s.successor = .ok t ↔ t.predecessor = .ok s) := by
  refine ⟨fun t ↦ successor_eq_ok_iff hs, fun e ↦ successor_eq_error_iff hs,
    fun t ↦ predecessor_eq_ok_iff hs, fun e ↦ predecessor_eq_error_iff, fun t ht ↦ ?_⟩
  by_cases hlen : t.length = s.length
  · rw [successor_eq_ok_iff hs, predecessor_eq_ok_iff ht, hlen]
    exact isLeast_above_iff_isGreatest_below ⟨hs, rfl⟩ ⟨ht, hlen⟩
  · refine iff_of_false (fun h ↦ hlen ?_) fun h ↦ hlen ?_
    · exact (forksBelow_of_successor h).2
    · exact (lt_of_predecessor h).2.symm

/-- A carry across the end of the characters. -/
theorem neighbours_exact_carry :
    IsLeast {w : Text | (w.Plain ∧ w.length = 2) ∧ ['a', maxDatum] < w} ['b', minDatum] ∧
    Text.predecessor ['b', minDatum] = .ok ['a', maxDatum] ∧
    Text.successor [maxDatum, maxDatum] = .error (.exhausted [maxDatum, maxDatum]) := by
  obtain ⟨hleast, -, -, -, hback⟩ := neighbours_exact (show Plain ['a', maxDatum] by decide)
  obtain ⟨-, hlast, -⟩ := neighbours_exact (show Plain [maxDatum, maxDatum] by decide)
  have hnext : Text.successor ['a', maxDatum] = .ok ['b', minDatum] := by decide
  exact ⟨(hleast _).1 hnext, (hback _ (by decide)).1 hnext, (hlast _).2 ⟨rfl, by simp⟩⟩

end Text

end CompositeScan
