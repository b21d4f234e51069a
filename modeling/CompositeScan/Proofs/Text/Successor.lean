import CompositeScan.Domain.Characters
import CompositeScan.Proofs.Domain.Counter
import CompositeScan.Proofs.Text.Order
import Mathlib.Data.Char
import Mathlib.Data.Nat.Basic

/-!
# Moving past a text

A variable-length value is never stepped in a domain, but a leap moves past it: it seeks the text of
the same length that follows. As long as the value does not end in the greatest character, this
moves the last character alone, and then nothing is passed over that should not be. Every text that
forks from the value upwards is at or after the next one (`successor_le_of_forksBelow`), and every
proper prefix of the value is a proper prefix of the next one (`prefix_of_successor`).

A value that ends in the greatest character has neither property: its successor carries, and the
texts shorter than the value that lie between the two are passed over. Unless the value has no other
character, for then there is no text to move to. So the texts to which the two facts apply are those
of `Text.MovesLast`.

Among the texts of its own length the successor of a value is the next one in any case
(`successor_le_of_lt`). It is the counter of characters that says so, once the characters are known
to be stepped in their order without a gap (`nextDatum?_follows`).
-/

namespace CompositeScan

namespace Text

variable {v w next : Text} {c d e : Char}

/-- The characters a value may contain are counted without a gap. -/
theorem nextDatum?_eq_some_iff :
    nextDatum? c = some d ↔ c < maxDatum ∧ d.ordinal.val = c.ordinal.val + 1 := by
  rw [nextDatum?]
  split
  · next hc =>
    have hroom : c.ordinal.val + 1 < Char.numCodePoints :=
      lt_of_le_of_lt (Char.lt_iff_ordinal_lt.1 hc) maxDatum.ordinal.isLt
    rw [Char.succ?_eq, Fin.addNat?_eq_some hroom, Option.map_some, Option.some_inj]
    constructor
    · rintro rfl
      exact ⟨hc, by rw [Char.ordinal_ofOrdinal]⟩
    · rintro ⟨-, hd⟩
      rw [← Char.ordinal_inj, Char.ordinal_ofOrdinal]
      exact Fin.ext hd.symm
  · next hc => simp [hc]

theorem exists_nextDatum? (h : c < maxDatum) : ∃ d, nextDatum? c = some d := by
  have hroom : c.ordinal.val + 1 < Char.numCodePoints :=
    lt_of_le_of_lt (Char.lt_iff_ordinal_lt.1 h) maxDatum.ordinal.isLt
  refine ⟨.ofOrdinal ⟨c.ordinal.val + 1, hroom⟩, nextDatum?_eq_some_iff.2 ⟨h, ?_⟩⟩
  rw [Char.ordinal_ofOrdinal]

theorem le_of_nextDatum?_eq_none (h : nextDatum? c = none) : maxDatum ≤ c := by
  by_contra hlt
  obtain ⟨d, hd⟩ := exists_nextDatum? (not_le.1 hlt)
  rw [h] at hd
  cases hd

theorem lt_of_nextDatum? (h : nextDatum? c = some d) : c < d := by
  have hd := (nextDatum?_eq_some_iff.1 h).2
  rw [Char.lt_iff_ordinal_lt, Fin.lt_def]
  omega

theorem le_of_nextDatum? (h : nextDatum? c = some d) (hlt : c < e) : d ≤ e := by
  have hd := (nextDatum?_eq_some_iff.1 h).2
  rw [Char.lt_iff_ordinal_lt, Fin.lt_def] at hlt
  rw [Char.le_iff_ordinal_le, Fin.le_def]
  omega

theorem le_maxDatum_of_nextDatum? (h : nextDatum? c = some d) : d ≤ maxDatum :=
  le_of_nextDatum? h (nextDatum?_eq_some_iff.1 h).1

theorem le_maxDatum_of_ne (h : c ≠ separator) : c ≤ maxDatum := by
  have hlt := lt_separator_of_ne h
  rw [Char.lt_iff_ordinal_lt, Fin.lt_def] at hlt
  rw [Char.le_iff_ordinal_le, Fin.le_def]
  exact Nat.le_of_lt_succ hlt

/-- The text after another one forks from it upwards, and is as long. -/
theorem forksBelow_of_successor (h : v.successor = .ok next) :
    v.ForksBelow next ∧ next.length = v.length := by
  rw [successor] at h
  split at h
  · next moved hstep =>
    cases h
    obtain ⟨p, c, d, x, y, hv, hnext, hd⟩ := Counter.exists_of_step hstep
    exact ⟨⟨p, c, d, x, y, hv, hnext, lt_of_nextDatum? hd⟩, Counter.length_eq_of_step hstep⟩
  · cases h

theorem successor_eq_error {e : StepError} (h : v.successor = .error e) : e = .exhausted v := by
  rw [successor] at h
  split at h
  · cases h
  · exact (Except.error.inj h).symm

theorem nextDatum?_follows : Counter.Follows (· < ·) (· ≠ separator) nextDatum? minDatum where
  next hd _ hlt := (le_of_nextDatum? hd hlt).eq_or_lt
  last hnone he := not_lt.2 ((le_maxDatum_of_ne he).trans (le_of_nextDatum?_eq_none hnone))
  first {e} _ := by
    refine le_iff_eq_or_lt.1 ?_
    rw [Char.le_iff_ordinal_le, Fin.le_def]
    exact Nat.zero_le _

theorem plain_iff : v.Plain ↔ ∀ c ∈ v, c ≠ separator :=
  ⟨fun h _ hc hsep ↦ h (hsep ▸ hc), fun h hsep ↦ h separator hsep rfl⟩

theorem ne_separator_of_le (h : c ≤ maxDatum) : c ≠ separator := by
  rintro rfl
  exact absurd h (not_le.2 maxDatum_lt_separator)

theorem plain_of_successor (hplain : v.Plain) (h : v.successor = .ok next) : next.Plain := by
  rw [successor] at h
  split at h
  · next moved hstep =>
    cases h
    refine plain_iff.2 (Counter.forall_mem_of_step ?_ (by decide) (plain_iff.1 hplain) hstep)
    exact fun hd ↦ ne_separator_of_le (le_maxDatum_of_nextDatum? hd)
  · cases h

/-- The text after another one is the least above it that a value as long may be. -/
theorem successor_le_of_lt (h : v.successor = .ok next) (hw : w.Plain) (hlen : w.length = v.length)
    (hlt : v < w) : next ≤ w := by
  rw [successor] at h
  split at h
  · next moved hstep =>
    cases h
    rcases nextDatum?_follows.eq_or_lex_of_step hstep (plain_iff.1 hw) hlen hlt with rfl | hlt
    · exact le_rfl
    · exact le_of_lt hlt
  · cases h

theorem not_lt_of_successor_eq_error {e : StepError} (h : v.successor = .error e) (hw : w.Plain)
    (hlen : w.length = v.length) : ¬v < w := by
  rw [successor] at h
  split at h
  · cases h
  · next hstep => exact nextDatum?_follows.not_lex_of_step_eq_none hstep (plain_iff.1 hw) hlen

/-- To move past the text is to change its last character alone, if it can be done at all: the text
does not end in the greatest character, or it has no other. -/
def MovesLast (v : Text) : Prop := v.getLast? = some maxDatum → ∀ c ∈ v, c = maxDatum

instance (v : Text) : Decidable v.MovesLast := inferInstanceAs (Decidable (_ → _))

theorem MovesLast.of_getLast?_ne (h : v.getLast? ≠ some maxDatum) : v.MovesLast :=
  fun hlast ↦ absurd hlast h

theorem MovesLast.getLast?_ne (hlast : v.MovesLast) (h : v.successor = .ok next) :
    v.getLast? ≠ some maxDatum := by
  intro hmax
  have hnone : Counter.step nextDatum? minDatum v = none := by
    rw [Counter.step_eq_none_iff]
    intro c hc
    rw [hlast hmax c hc]
    rfl
  rw [successor, hnone] at h
  cases h

/-- How such a text is moved past: its last character is replaced by the next one. -/
theorem exists_concat_of_successor (hplain : v.Plain) (hlast : v.MovesLast)
    (h : v.successor = .ok next) :
    ∃ p c d, v = p ++ [c] ∧ next = p ++ [d] ∧ nextDatum? c = some d := by
  have hne := hlast.getLast?_ne h
  rcases List.eq_nil_or_concat v with rfl | ⟨p, c, rfl⟩
  · simp [successor, Counter.step] at h
  · rw [List.concat_eq_append] at *
    have hc : c < maxDatum := by
      refine lt_of_le_of_ne (le_maxDatum_of_ne fun hsep ↦ hplain ?_) fun hmax ↦ hne ?_
      · simp [hsep]
      · simp [hmax]
    obtain ⟨d, hd⟩ := exists_nextDatum? hc
    rw [successor, Counter.step_concat hd, Except.ok.injEq] at h
    exact ⟨p, c, d, rfl, h.symm, hd⟩

/-- What forks from a value upwards is not passed over. -/
theorem successor_le_of_forksBelow (hplain : v.Plain) (hlast : v.MovesLast)
    (h : v.successor = .ok next) (hfork : v.ForksBelow w) : next ≤ w := by
  obtain ⟨p, c, d, rfl, rfl, hd⟩ := exists_concat_of_successor hplain hlast h
  obtain ⟨q, a, b, x, y, hv, rfl, hab⟩ := hfork
  rcases List.eq_nil_or_concat x with rfl | ⟨x, c', rfl⟩
  · -- The fork is at the last character, the one that moved.
    obtain ⟨rfl, hca⟩ := List.append_inj' hv rfl
    obtain rfl : c = a := by simpa using hca
    rw [append_le_append_left_iff]
    rcases (le_of_nextDatum? hd hab).lt_or_eq with hlt | rfl
    · exact le_of_lt (List.Lex.rel hlt)
    · exact le_of_isPrefix (by simp)
  · rw [List.concat_eq_append, ← List.cons_append, ← List.append_assoc] at hv
    obtain ⟨rfl, -⟩ := List.append_inj' hv rfl
    refine le_of_lt (ForksBelow.lt ⟨q, a, b, x ++ [d], y, by simp, rfl, hab⟩)

theorem prefix_of_successor (hplain : v.Plain) (hlast : v.MovesLast)
    (h : v.successor = .ok next) (hpre : w <+: v) (hne : w ≠ v) : w <+: next ∧ w ≠ next := by
  obtain ⟨p, c, d, rfl, rfl, -⟩ := exists_concat_of_successor hplain hlast h
  have hwp : w <+: p := (List.prefix_concat_iff.1 hpre).resolve_left hne
  refine ⟨hwp.trans (List.prefix_append _ _), fun heq ↦ ?_⟩
  have hlen := hwp.length_le
  rw [heq, List.length_append, List.length_singleton] at hlen
  omega

end Text

end CompositeScan
