import CompositeScan.Proofs.Key.Order

/-!
# Leading parts of keys

A scan that heads for a target stops at the leading parts of the target on its way, since such a
key sorts before the target and may be in range. The part it seeks is the shortest one after the
key at which it stands.

All that is said about this part comes from one fact: a key never gets less by a value that is
added to it (`Key.take_le_take`). So the parts at or before a key are those of the fewest values,
and the first part after it is a boundary (`Key.leadAfter?_eq_some_iff`). There is no such part just
if the whole target, the greatest of its parts, is not after the key (`Key.leadAfter?_eq_none_iff`).

`Key.next_le` is what the scan makes of this: the part it seeks is safe, as no key worth stopping at
lies between the current key and that part.
-/

namespace CompositeScan.Key

variable {k p other : Key} {vs ws : List Text}

/-- The values of `p` are the first of `k`. -/
def LeadOf (p k : Key) : Prop := p.values <+: k.values

/-! ## Keys grow with their values -/

theorem ofValues_nil_le (k : Key) : ofValues [] ≤ k := List.nil_le k.text

theorem ofValues_le_of_isPrefix (h : vs <+: ws) : ofValues vs ≤ ofValues ws := by
  rcases eq_or_ne vs [] with rfl | hne
  · exact ofValues_nil_le _
  · obtain ⟨us, rfl⟩ := h
    rw [ofValues_le_ofValues_iff hne (List.append_ne_nil_of_left_ne_nil hne us), spell_append]
    exact Text.le_append _ _

theorem take_le_take (k : Key) {m n : Nat} (h : m ≤ n) : k.take m ≤ k.take n :=
  ofValues_le_of_isPrefix (List.take_prefix_take_left h)

theorem take_length_values (k : Key) : k.take k.values.length = k := by
  rw [take, List.take_length, ofValues_values]

theorem take_le (k : Key) (n : Nat) : k.take n ≤ k := by
  have h : k.take n ≤ ofValues k.values := ofValues_le_of_isPrefix (List.take_prefix n k.values)
  rwa [ofValues_values] at h

theorem LeadOf.take_eq (h : p.LeadOf k) : k.take p.values.length = p := by
  rw [take, ← List.prefix_iff_eq_take.1 h, ofValues_values]

/-! ## The first part after a key -/

/-- The part found is after the other key, and the parts of fewer values are not. -/
theorem leadAfter?_eq_some_iff :
    k.leadAfter? other = some p ↔
      ∃ n, 0 < n ∧ n ≤ k.values.length ∧ k.take n = p ∧ other < p ∧
        ∀ m < n, k.take m ≤ other := by
  rw [leadAfter?, List.find?_map, Option.map_eq_some_iff]
  constructor
  · rintro ⟨n, hfind, rfl⟩
    obtain ⟨hlt, hmem, hfewer⟩ := List.find?_range'_eq_some.1 hfind
    obtain ⟨hpos, hn⟩ := List.mem_range'_1.1 hmem
    refine ⟨n, hpos, by omega, rfl, by simpa using hlt, fun m hm ↦ ?_⟩
    -- The search starts with one value: the part of none is never after a key.
    rcases Nat.eq_zero_or_pos m with rfl | hmpos
    · exact ofValues_nil_le other
    · simpa using hfewer m hmpos hm
  · rintro ⟨n, hpos, hn, rfl, hlt, hfewer⟩
    refine ⟨n, List.find?_range'_eq_some.2 ⟨by simpa using hlt, ?_, fun m _ hm ↦ ?_⟩, rfl⟩
    · exact List.mem_range'_1.2 ⟨hpos, by omega⟩
    · simpa using hfewer m hm

theorem leadAfter?_eq_none_iff : k.leadAfter? other = none ↔ k ≤ other := by
  rw [leadAfter?, List.find?_eq_none]
  constructor
  · intro h
    have hpos : 0 < k.values.length := List.length_pos_iff.2 k.values_ne_nil
    have hmem : k.values.length ∈ List.range' 1 k.values.length :=
      List.mem_range'_1.2 ⟨hpos, by omega⟩
    have hwhole := h _ (List.mem_map_of_mem hmem)
    rw [take_length_values] at hwhole
    simpa using hwhole
  · intro hle part hpart
    obtain ⟨n, -, rfl⟩ := List.mem_map.1 hpart
    simpa using (k.take_le n).trans hle

/-- The part of a target to seek next lies ahead of no key that is a leading part of the target or
not before it. -/
theorem next_le {target key k : Key} (hlt : key < k) (h : target ≤ k ∨ k.LeadOf target) :
    (target.leadAfter? key).getD target ≤ k := by
  cases hnext : target.leadAfter? key with
  | none => exact (leadAfter?_eq_none_iff.1 hnext).trans hlt.le
  | some p =>
    obtain ⟨n, -, -, rfl, -, hfewer⟩ := leadAfter?_eq_some_iff.1 hnext
    rcases h with hle | hlead
    · exact (target.take_le n).trans hle
    · have hn : n ≤ k.values.length := by
        by_contra hlonger
        have hbefore := hfewer k.values.length (not_le.1 hlonger)
        rw [hlead.take_eq] at hbefore
        exact not_le.2 hlt hbefore
      calc target.take n ≤ target.take k.values.length := target.take_le_take hn
        _ = k := hlead.take_eq

/-! ## Splitting what was joined -/

/-- Joining separator-free values, and perhaps others after them, keeps them as the first ones. -/
theorem prefix_values_ofValues (h : ws <+: vs) (hplain : ∀ w ∈ ws, w.Plain) (hne : ws ≠ []) :
    ws <+: (ofValues vs).values := by
  induction ws generalizing vs with
  | nil => exact absurd rfl hne
  | cons w ws ih =>
    obtain ⟨us, rfl⟩ := h
    have hw : w.Plain := hplain w List.mem_cons_self
    rw [values, List.cons_append, text_ofValues_cons]
    cases hrest : ws ++ us with
    | nil =>
      have hsplit : (w ++ spell []).splitOn Text.separator = [w] := by
        rw [spell_nil, List.append_nil, List.splitOn_eq_singleton hw]
      obtain ⟨rfl, -⟩ := List.append_eq_nil_iff.1 hrest
      exact hsplit ▸ List.prefix_rfl
    | cons u rest =>
      rw [spell_cons, ← text_ofValues_cons, List.splitOn_append_cons_self_of_not_mem hw]
      rcases ws with - | ⟨w', ws⟩
      · exact (List.prefix_cons_inj w).2 List.nil_prefix
      · refine (List.prefix_cons_inj w).2 (hrest ▸ ih (List.prefix_append _ us) ?_ (by simp))
        exact fun x hx ↦ hplain x (List.mem_cons_of_mem w hx)

/-- **Joining, splitting and leading parts.** A key splits into separator-free values, wherever it
has separators, and these join to the key again; separator-free values that were joined are found
again. There is a leading part of a key after another one just if the key itself is after it, and
the one found is the boundary: parts of fewer values are not after the other key, and no part
lies between the two. -/
theorem values_and_leads_exact (k other : Key) (vs : List Text) :
    ((∀ v ∈ k.values, v.Plain) ∧ ofValues k.values = k) ∧
    (vs ≠ [] → (∀ v ∈ vs, v.Plain) → (ofValues vs).values = vs) ∧
    (k.leadAfter? other = none ↔ k ≤ other) ∧
    (other < k → ∃ n p, 0 < n ∧ n ≤ k.values.length ∧ k.leadAfter? other = some p ∧
      p = ofValues (k.values.take n) ∧ other < p ∧
      (∀ m < n, ofValues (k.values.take m) ≤ other) ∧
      ∀ m, ¬(other < ofValues (k.values.take m) ∧ ofValues (k.values.take m) < p)) := by
  refine ⟨⟨fun _ ↦ plain_of_mem_values, k.ofValues_values⟩, values_ofValues,
    leadAfter?_eq_none_iff, fun hlt ↦ ?_⟩
  cases hlead : k.leadAfter? other with
  | none => exact absurd (leadAfter?_eq_none_iff.1 hlead) (not_le.2 hlt)
  | some p =>
    obtain ⟨n, hpos, hn, rfl, hafter, hfewer⟩ := leadAfter?_eq_some_iff.1 hlead
    refine ⟨n, k.take n, hpos, hn, rfl, rfl, hafter, hfewer, ?_⟩
    rintro m ⟨hlo, hhi⟩
    rcases Nat.lt_or_ge m n with hm | hm
    · exact not_le.2 hlo (hfewer m hm)
    · exact not_le.2 hhi (k.take_le_take hm)

/-- Values at both ends may be empty. The first value alone is not after a `5`, but it is with a
second one behind it, since the separator between them is greater than the `5`. -/
theorem values_and_leads_exact_empty :
    (ofValues [[], ['6'], []]).values = [[], ['6'], []] ∧
    ofValues [['5']] < ofValues [[], ['6'], []] ∧
    (ofValues [[], ['6'], []]).leadAfter? (ofValues [['5']]) = some (ofValues [[], ['6']]) := by
  obtain ⟨-, hvalues, -, hlead⟩ :=
    values_and_leads_exact (ofValues [[], ['6'], []]) (ofValues [['5']]) [[], ['6'], []]
  have hvalues := hvalues (by decide) (by decide)
  have hlt : ofValues [['5']] < ofValues [[], ['6'], []] := by decide
  refine ⟨hvalues, hlt, ?_⟩
  obtain ⟨n, p, hpos, hn, hp, rfl, hafter, hfewer, -⟩ := hlead hlt
  rw [hvalues] at hn hp hafter hfewer
  have hn : n = 1 ∨ n = 2 ∨ n = 3 := by
    change n ≤ 3 at hn
    omega
  rcases hn with rfl | rfl | rfl
  · exact absurd hafter (by decide)
  · exact hp
  · exact absurd (hfewer 2 (by decide)) (by decide)

end CompositeScan.Key
