import CompositeScan.Proofs.Domain.Hex
import Mathlib.Data.List.Induction
import Mathlib.Order.Bounds.Basic
import Mathlib.Tactic.LinearCombination
import Mathlib.Tactic.Ring

/-!
# Hexadecimal counting

A numeral denotes a number (`Hex.number`), and every number that has room in some digits is written
by one numeral of as many (`Hex.padded`). Stepping a numeral adds one to the number or takes one
away, and fails where the result has no room or is no number (`Hex.step_arithmetic`).

## One fact for both directions

Both directions are one fact about counters. A digit that moves gains `δ`, and one that wraps around
loses what a digit further to the left is worth to make up for it; so the digits as a whole gain `δ`
(`Counter.number_of_step`), however far the carry goes. A counter that can not move would have to
wrap around in every digit (`Counter.number_of_step_eq_none`), and so there is no room for the
result. Numbers are integers where this is said, since downwards the gain is `-1`.

## Numbers and texts

The number of a numeral is defined without digits, by the places of its characters in the alphabet,
and the numeral of a number is the core library's `Nat.toDigits` with zeros in front: the two sides
of the result have nothing in common with the counter that is judged by them.
-/

namespace CompositeScan

namespace Counter

variable {α : Type} {move : α → Option α} {wrap : α} {digits moved : List α} {b δ : ℤ} {f : α → ℤ}

/-- The number that digits denote in base `b`, where `f` is what each digit is worth. -/
def number (b : ℤ) (f : α → ℤ) : List α → ℤ
  | [] => 0
  | d :: digits => f d * b ^ digits.length + number b f digits

/-- A counter that can not move would have to wrap around altogether. -/
theorem number_of_step_eq_none (h : step move wrap digits = none)
    (hcarry : ∀ {c}, move c = none → f c + δ = f wrap + δ * b) :
    number b f digits + δ =
      number b f (List.replicate digits.length wrap) + δ * b ^ digits.length := by
  induction digits with
  | nil => simp [number]
  | cons d digits ih =>
    rw [step_eq_none_iff, List.forall_mem_cons, ← step_eq_none_iff] at h
    obtain ⟨hd, hdigits⟩ := h
    rw [List.length_cons, List.replicate_succ, number, number, List.length_replicate]
    linear_combination ih hdigits + b ^ digits.length * hcarry hd

/-- A counter that moves gains what a digit gains. -/
theorem number_of_step (h : step move wrap digits = some moved)
    (hgain : ∀ {c d}, move c = some d → f d = f c + δ)
    (hcarry : ∀ {c}, move c = none → f c + δ = f wrap + δ * b) :
    number b f moved = number b f digits + δ := by
  induction digits generalizing moved with
  | nil => cases h
  | cons d digits ih =>
    simp only [step] at h
    split at h
    · next rest hrest =>
      cases h
      rw [number, number, ih hrest, length_eq_of_step hrest, add_assoc]
    · next hnone =>
      -- The digit that moves gains `δ` in its own place, which is what the digits after it, all
      -- wrapped around, are short of.
      obtain ⟨e, he, rfl⟩ := Option.map_eq_some_iff.1 h
      have hwrapped := number_of_step_eq_none (b := b) (f := f) hnone hcarry
      rw [number, number, List.length_replicate, hgain he]
      linear_combination -hwrapped

theorem number_replicate (b : ℤ) (f : α → ℤ) (n : ℕ) (d : α) :
    (b - 1) * number b f (List.replicate n d) = f d * (b ^ n - 1) := by
  induction n with
  | zero => simp [number]
  | succ n ih =>
    rw [List.replicate_succ, number, List.length_replicate]
    linear_combination ih

end Counter

namespace Hex

variable {t v w : Text} {c : Char} {d : Fin 16} {ds es : List (Fin 16)}

/-- The digits, each at the place of what it is worth. -/
def alphabet : Text :=
  ['0', '1', '2', '3', '4', '5', '6', '7', '8', '9', 'a', 'b', 'c', 'd', 'e', 'f']

/-- The number that a numeral denotes. -/
def number : Text → ℕ
  | [] => 0
  | c :: t => alphabet.idxOf c * 16 ^ t.length + number t

/-- A number in hexadecimal, with zeros in front of it up to `width` digits. -/
def padded (width n : ℕ) : Text := (Nat.toDigits 16 n).leftpad width '0'

/-! ## Numbers and digits -/

theorem idxOf_digitChar (d : Fin 16) : alphabet.idxOf (Nat.digitChar d) = d := by
  revert d
  decide

theorem number_write_cons (d : Fin 16) (ds : List (Fin 16)) :
    number (write (d :: ds)) = d * 16 ^ ds.length + number (write ds) := by
  rw [write_cons, number, idxOf_digitChar, length_write]

theorem number_write (ds : List (Fin 16)) :
    (number (write ds) : ℤ) = Counter.number 16 (fun d ↦ (d.val : ℤ)) ds := by
  induction ds with
  | nil => rfl
  | cons d ds ih =>
    rw [number_write_cons, Counter.number, ← ih]
    push_cast
    rfl

theorem number_concat (t : Text) (c : Char) :
    number (t ++ [c]) = 16 * number t + alphabet.idxOf c := by
  induction t with
  | nil => simp [number]
  | cons a t ih =>
    rw [List.cons_append, number, number, ih, List.length_append, List.length_singleton]
    ring

theorem number_write_lt (ds : List (Fin 16)) : number (write ds) < 16 ^ ds.length := by
  induction ds with
  | nil => exact Nat.one_pos
  | cons d ds ih =>
    rw [number_write_cons, List.length_cons, Nat.pow_succ]
    have hd : d.val ≤ 15 := Nat.le_of_lt_succ d.isLt
    have hle := Nat.mul_le_mul_right (16 ^ ds.length) hd
    omega

/-- Leading digits decide, and the digits after them only between equal ones. -/
theorem place_lt_iff {a b x y size : ℕ} (hx : x < size) (hy : y < size) :
    a * size + x < b * size + y ↔ a < b ∨ a = b ∧ x < y := by
  rcases lt_trichotomy a b with hab | rfl | hab
  · have hle := Nat.mul_le_mul_right size hab
    rw [Nat.succ_mul] at hle
    exact iff_of_true (by omega) (.inl hab)
  · simp
  · have hle := Nat.mul_le_mul_right size hab
    rw [Nat.succ_mul] at hle
    exact iff_of_false (by omega) (by omega)

theorem number_lt_number_iff (hlen : ds.length = es.length) :
    number (write ds) < number (write es) ↔ ds < es := by
  induction ds generalizing es with
  | nil =>
    obtain rfl := List.length_eq_zero_iff.1 hlen.symm
    exact iff_of_false (lt_irrefl _) (List.lt_irrefl _)
  | cons d ds ih =>
    cases es with
    | nil => cases hlen
    | cons e es =>
      have hlen := Nat.succ.inj hlen
      rw [number_write_cons, number_write_cons, ← hlen,
        place_lt_iff (number_write_lt ds) (hlen ▸ number_write_lt es), List.cons_lt_cons_iff,
        ih hlen, Fin.lt_def, Fin.ext_iff]

/-! ## Numbers and numerals -/

theorem number_lt (hv : Numeral v) : number v < 16 ^ v.length := by
  obtain ⟨ds, rfl⟩ := exists_eq_write_iff.2 hv
  rw [length_write]
  exact number_write_lt ds

theorem lt_iff_number_lt (hv : Numeral v) (hw : Numeral w) (hlen : v.length = w.length) :
    v < w ↔ number v < number w := by
  obtain ⟨ds, rfl⟩ := exists_eq_write_iff.2 hv
  obtain ⟨es, rfl⟩ := exists_eq_write_iff.2 hw
  rw [length_write, length_write] at hlen
  rw [write_lt_write_iff, number_lt_number_iff hlen]

theorem eq_of_number_eq (hv : Numeral v) (hw : Numeral w) (hlen : v.length = w.length)
    (h : number v = number w) : v = w := by
  rcases lt_trichotomy v w with hlt | heq | hlt
  · exact absurd ((lt_iff_number_lt hv hw hlen).1 hlt) h.not_lt
  · exact heq
  · exact absurd ((lt_iff_number_lt hw hv hlen.symm).1 hlt) h.symm.not_lt

theorem ne_nil_of_length_eq (hne : v ≠ []) (hlen : w.length = v.length) : w ≠ [] := by
  rwa [← List.length_pos_iff, hlen, List.length_pos_iff]

theorem padded_succ {width n : ℕ} (hwidth : width ≠ 0) (d : Fin 16) :
    padded (width + 1) (16 * n + d) = padded width n ++ [Nat.digitChar d] := by
  rcases Nat.eq_zero_or_pos n with rfl | hn
  · obtain ⟨width, rfl⟩ := Nat.exists_eq_succ_of_ne_zero hwidth
    rw [padded, padded, Nat.mul_zero, Nat.zero_add, Nat.toDigits_of_lt_base d.isLt,
      Nat.toDigits_of_lt_base (by decide)]
    simp [List.leftpad, List.replicate_succ']
  · have hdigits : Nat.toDigits 16 (16 * n + d) = Nat.toDigits 16 n ++ [Nat.digitChar d] := by
      rw [← Nat.toDigits_append_toDigits (by decide) hn d.isLt, Nat.toDigits_of_lt_base d.isLt]
    rw [padded, padded, hdigits]
    simp [List.leftpad, List.append_assoc]

theorem padded_number (hne : v ≠ []) (hv : Numeral v) : padded v.length (number v) = v := by
  obtain ⟨ds, rfl⟩ := exists_eq_write_iff.2 hv
  induction ds using List.reverseRecOn with
  | nil => exact absurd rfl hne
  | append_singleton ds d ih =>
    have hwrite : write (ds ++ [d]) = write ds ++ [Nat.digitChar d] := List.map_append
    rw [hwrite, number_concat, idxOf_digitChar, List.length_append, List.length_singleton]
    rcases eq_or_ne ds [] with rfl | hds
    · simp [write, number, padded, List.leftpad, Nat.toDigits_of_lt_base d.isLt]
    · have hwidth : (write ds).length ≠ 0 := by rwa [length_write, ne_eq, List.length_eq_zero_iff]
      rw [padded_succ hwidth, ih (List.ne_nil_of_length_pos (Nat.pos_of_ne_zero hwidth))
        (numeral_write ds)]

/-! ## Steps -/

/-- The moves of a digit gain `δ`, which is one upwards or downwards, and start again at the other
end. -/
structure Gains (move : Fin 16 → Option (Fin 16)) (wrap : Fin 16) (δ : ℤ) : Prop where
  /-- A digit that moves gains `δ`. -/
  gain : ∀ {c d}, move c = some d → (d.val : ℤ) = c.val + δ
  /-- A digit that wraps around gains `δ` less what it carries. -/
  carry : ∀ {c}, move c = none → (c.val : ℤ) + δ = wrap.val + δ * 16
  /-- Moves go one up, starting again at `0`, or one down, starting again at `f`. -/
  ends : δ = 1 ∧ wrap = 0 ∨ δ = -1 ∧ wrap = 15

theorem up_gains : Gains up 0 1 where
  gain {c d} := by
    revert c d
    decide
  carry {c} := by
    revert c
    decide
  ends := .inl ⟨rfl, rfl⟩

theorem down_gains : Gains down 15 (-1) where
  gain {c d} := by
    revert c d
    decide
  carry {c} := by
    revert c
    decide
  ends := .inr ⟨rfl, rfl⟩

section Step

variable {move : Fin 16 → Option (Fin 16)} {wrap : Fin 16} {δ : ℤ}

theorem step_eq_outsideDomain_iff :
    step move wrap v = .error (.outsideDomain v "hex") ↔ v = [] ∨ ∃ c ∈ v, ¬IsDigit c := by
  have hnumeral : (∃ c ∈ v, ¬IsDigit c) ↔ ¬∃ ds, v = write ds := by
    rw [exists_eq_write_iff, Numeral]
    push Not
    rfl
  rw [hnumeral, step]
  split
  · next hnone =>
    refine iff_of_true rfl (or_iff_not_imp_left.2 fun hne ↦ ?_)
    rintro ⟨ds, hds⟩
    cases hnone.symm.trans (digits?_eq_some_iff.2 ⟨hne, hds⟩)
  · next ds hds =>
    obtain ⟨hne, hwrite⟩ := digits?_eq_some_iff.1 hds
    refine iff_of_false (fun herror ↦ ?_) fun h ↦ h.elim hne fun hnot ↦ hnot ⟨ds, hwrite⟩
    split at herror <;> cases herror

/-- A step from a numeral gains `δ`, unless the result has no room. -/
theorem Gains.step_cases (h : Gains move wrap δ) (hne : v ≠ []) (hv : Numeral v) :
    (∃ w, step move wrap v = .ok w ∧ Numeral w ∧ w.length = v.length ∧
      (number w : ℤ) = number v + δ) ∨
    step move wrap v = .error (.exhausted v) ∧
      ¬(0 ≤ (number v : ℤ) + δ ∧ (number v : ℤ) + δ < (16 ^ v.length : ℕ)) := by
  obtain ⟨ds, rfl⟩ := exists_eq_write_iff.2 hv
  have hdigits : digits? (write ds) = some ds := digits?_eq_some_iff.2 ⟨hne, rfl⟩
  simp only [step, hdigits]
  cases hstep : Counter.step move wrap ds with
  | some moved =>
    refine .inl ⟨write moved, rfl, numeral_write moved, ?_, ?_⟩
    · rw [length_write, length_write, Counter.length_eq_of_step hstep]
    · rw [number_write, number_write]
      exact Counter.number_of_step hstep h.gain h.carry
  | none =>
    refine .inr ⟨rfl, ?_⟩
    -- With every digit wrapped around, the number is the first or the last of its length.
    have hnumber := Counter.number_of_step_eq_none (b := 16) hstep h.carry
    have hwrapped := Counter.number_replicate 16 (fun d : Fin 16 ↦ (d.val : ℤ)) ds.length wrap
    rw [← number_write] at hnumber
    rw [length_write, Nat.cast_pow, Nat.cast_ofNat]
    rcases h.ends with ⟨rfl, rfl⟩ | ⟨rfl, rfl⟩
    · have hzero : ((0 : Fin 16).val : ℤ) = 0 := rfl
      rw [hzero] at hwrapped
      omega
    · have hlast : ((15 : Fin 16).val : ℤ) = 15 := rfl
      rw [hlast] at hwrapped
      omega

/-- A step leads from one numeral to another exactly if the second denotes `δ` more. -/
theorem Gains.step_eq_ok_iff (h : Gains move wrap δ) :
    step move wrap v = .ok w ↔
      v ≠ [] ∧ Numeral v ∧ Numeral w ∧ w.length = v.length ∧ (number w : ℤ) = number v + δ := by
  constructor
  · intro hstep
    have hnot : ¬(v = [] ∨ ∃ c ∈ v, ¬IsDigit c) :=
      fun hout ↦ nomatch hstep.symm.trans (step_eq_outsideDomain_iff.2 hout)
    push Not at hnot
    obtain ⟨hne, hv⟩ := hnot
    rcases h.step_cases hne hv with ⟨w', hw', hnumeral, hlen, hnumber⟩ | ⟨herror, -⟩
    · cases hstep.symm.trans hw'
      exact ⟨hne, hv, hnumeral, hlen, hnumber⟩
    · cases hstep.symm.trans herror
  · rintro ⟨hne, hv, hw, hlen, hnumber⟩
    rcases h.step_cases hne hv with ⟨w', hw', hnumeral, hlen', hnumber'⟩ | ⟨-, hroom⟩
    · rw [hw', eq_of_number_eq hnumeral hw (hlen'.trans hlen.symm) (by omega)]
    · refine absurd ⟨by omega, ?_⟩ hroom
      rw [← hnumber, ← hlen]
      exact_mod_cast number_lt hw

end Step

/-- **Stepping a numeral is arithmetic on its number.** What is no numeral is refused. From a
numeral of `n`, the successor is the numeral of `n + 1` as long, unless there is none, and the
predecessor that of `n - 1`, unless `n` is `0`; the two undo each other. As numerals of one length
are in the order of their numbers, the successor is the least of them above. -/
theorem step_arithmetic (v : Text) :
    (successor v = .error (.outsideDomain v "hex") ↔ v = [] ∨ ∃ c ∈ v, ¬IsDigit c) ∧
    (predecessor v = .error (.outsideDomain v "hex") ↔ v = [] ∨ ∃ c ∈ v, ¬IsDigit c) ∧
    (v ≠ [] → Numeral v →
      successor v = (if number v = 16 ^ v.length - 1 then .error (.exhausted v)
        else .ok (padded v.length (number v + 1))) ∧
      predecessor v = (if number v = 0 then .error (.exhausted v)
        else .ok (padded v.length (number v - 1)))) ∧
    (∀ w, successor v = .ok w ↔ predecessor w = .ok v) ∧
    (∀ w, Numeral v → Numeral w → v.length = w.length → (v < w ↔ number v < number w)) ∧
    ∀ w, successor v = .ok w →
      IsLeast {u : Text | (Numeral u ∧ u.length = v.length) ∧ v < u} w := by
  refine ⟨step_eq_outsideDomain_iff, step_eq_outsideDomain_iff, fun hne hv ↦ ⟨?_, ?_⟩, fun w ↦ ?_,
    fun w hv hw hlen ↦ lt_iff_number_lt hv hw hlen, fun w hnext ↦ ?_⟩
  · have hlt := number_lt hv
    rcases up_gains.step_cases hne hv with ⟨w, hw, hnumeral, hlen, hnumber⟩ | ⟨herror, hroom⟩
    · have hroom := number_lt hnumeral
      rw [hlen] at hroom
      rw [successor, hw, if_neg (by omega), show number v + 1 = number w by omega, ← hlen,
        padded_number (ne_nil_of_length_eq hne hlen) hnumeral]
    · rw [successor, herror, if_pos (by omega)]
  · rcases down_gains.step_cases hne hv with ⟨w, hw, hnumeral, hlen, hnumber⟩ | ⟨herror, hroom⟩
    · rw [predecessor, hw, if_neg (by omega), show number v - 1 = number w by omega, ← hlen,
        padded_number (ne_nil_of_length_eq hne hlen) hnumeral]
    · have hlt := number_lt hv
      rw [predecessor, herror, if_pos (by omega)]
  · rw [successor, predecessor, up_gains.step_eq_ok_iff, down_gains.step_eq_ok_iff]
    constructor
    · rintro ⟨hne, hv, hw, hlen, hnumber⟩
      exact ⟨ne_nil_of_length_eq hne hlen, hw, hv, hlen.symm, by omega⟩
    · rintro ⟨hne, hw, hv, hlen, hnumber⟩
      exact ⟨ne_nil_of_length_eq hne hlen, hv, hw, hlen.symm, by omega⟩
  · obtain ⟨-, hv, hw, hlen, hnumber⟩ := up_gains.step_eq_ok_iff.1 hnext
    refine ⟨⟨⟨hw, hlen⟩, (lt_iff_number_lt hv hw hlen.symm).2 (by omega)⟩, ?_⟩
    rintro u ⟨⟨hu, hlen⟩, hlt⟩
    exact successor_le_of_lt hnext hu hlen hlt

/-- Across a carry, and at both ends. -/
theorem step_arithmetic_0f :
    successor ['0', 'f'] = .ok ['1', '0'] ∧ predecessor ['1', '0'] = .ok ['0', 'f'] ∧
    successor ['f', 'f'] = .error (.exhausted ['f', 'f']) ∧
    predecessor ['0', '0'] = .error (.exhausted ['0', '0']) ∧
    successor ['0', 'F'] = .error (.outsideDomain ['0', 'F'] "hex") := by
  obtain ⟨-, -, hsteps, hundo, -⟩ := step_arithmetic ['0', 'f']
  have hnext : successor ['0', 'f'] = .ok ['1', '0'] :=
    (hsteps (by decide) (numeral_write [0, 15])).1.trans rfl
  refine ⟨hnext, (hundo _).1 hnext, ?_, ?_, ?_⟩
  · exact ((step_arithmetic ['f', 'f']).2.2.1 (by decide) (numeral_write [15, 15])).1.trans rfl
  · exact ((step_arithmetic ['0', '0']).2.2.1 (by decide) (numeral_write [0, 0])).2.trans rfl
  · exact (step_arithmetic ['0', 'F']).1.2 (.inr ⟨'F', by simp, by decide⟩)

end Hex

end CompositeScan
