import CompositeScan.Proofs.Key.Order

/-!
# The first difference of two keys

Two lists of values are taken apart at the first place where they differ. If there is no such place
before one of them ends, the key of fewer values sorts first. Otherwise the two values at that place
decide, but not by their own order alone (`Key.PartsBelow`): a value that is a prefix of the other
sorts before it where its key ends, and after it where more values follow, since the separator that
follows it is greater than every character of a value.

So keys are not ordered as the lists of their values are (`Key.ofValues_lt_ofValues_iff_parts`),
unless the values that meet are as long as each other.
-/

namespace CompositeScan.Key

open Text

variable {u v w : Text} {us vs ws : List Text}

/-- At the first place where the two lists have different values, the first list has the value that
sorts first there. -/
def PartsBelow (vs ws : List Text) : Prop :=
  ∃ p v w vs' ws', vs = p ++ v :: vs' ∧ ws = p ++ w :: ws' ∧ v ≠ w ∧
    (¬v <+: w ∧ ¬w <+: v ∧ v < w ∨ v <+: w ∧ vs' = [] ∨ w <+: v ∧ ws' ≠ [])

theorem not_partsBelow_nil_left : ¬PartsBelow [] ws := by
  rintro ⟨p, v, w, vs', ws', hnil, -⟩
  exact List.append_ne_nil_of_right_ne_nil p (List.cons_ne_nil v vs') hnil.symm

theorem not_partsBelow_nil_right : ¬PartsBelow vs [] := by
  rintro ⟨p, v, w, vs', ws', -, hnil, -⟩
  exact List.append_ne_nil_of_right_ne_nil p (List.cons_ne_nil w ws') hnil.symm

theorem partsBelow_cons_self_iff : PartsBelow (u :: vs) (u :: ws) ↔ PartsBelow vs ws := by
  constructor
  · rintro ⟨p, v, w, vs', ws', hv, hw, hne, h⟩
    cases p with
    | nil =>
      rw [List.nil_append, List.cons.injEq] at hv hw
      exact absurd (hv.1.symm.trans hw.1) hne
    | cons a p =>
      rw [List.cons_append, List.cons.injEq] at hv hw
      exact ⟨p, v, w, vs', ws', hv.2, hw.2, hne, h⟩
  · rintro ⟨p, v, w, vs', ws', rfl, rfl, hne, h⟩
    exact ⟨u :: p, v, w, vs', ws', rfl, rfl, hne, h⟩

theorem partsBelow_cons_iff_of_ne (h : v ≠ w) :
    PartsBelow (v :: vs) (w :: ws) ↔
      ¬v <+: w ∧ ¬w <+: v ∧ v < w ∨ v <+: w ∧ vs = [] ∨ w <+: v ∧ ws ≠ [] := by
  constructor
  · rintro ⟨p, v', w', vs', ws', hv, hw, -, hparts⟩
    cases p with
    | nil =>
      rw [List.nil_append, List.cons.injEq] at hv hw
      obtain ⟨⟨rfl, rfl⟩, rfl, rfl⟩ := And.intro hv hw
      exact hparts
    | cons a p =>
      rw [List.cons_append, List.cons.injEq] at hv hw
      exact absurd (hv.1.trans hw.1.symm) h
  · intro hparts
    exact ⟨[], v, w, vs, ws, rfl, rfl, h, hparts⟩

/-- Spelled values are in order if the first list is a proper beginning of the second, or if it
sorts first where they part. -/
theorem spell_lt_spell_iff_parts (hvs : ∀ v ∈ vs, v.Plain) (hws : ∀ w ∈ ws, w.Plain) :
    spell vs < spell ws ↔ vs <+: ws ∧ vs ≠ ws ∨ PartsBelow vs ws := by
  induction vs generalizing ws with
  | nil =>
    rw [or_iff_left not_partsBelow_nil_left]
    constructor
    · intro h
      refine ⟨List.nil_prefix, ?_⟩
      rintro rfl
      exact List.lt_irrefl _ h
    · rintro ⟨-, hne⟩
      exact nil_lt_spell hne.symm
  | cons v vs ih =>
    cases ws with
    | nil =>
      have hne : ¬v :: vs <+: [] := fun h ↦ List.cons_ne_nil v vs (List.prefix_nil.1 h)
      rw [or_iff_left not_partsBelow_nil_right]
      exact iff_of_false (List.not_lt_nil _) fun h ↦ hne h.1
    | cons w ws =>
      rw [List.forall_mem_cons] at hvs hws
      obtain ⟨hv, hvs⟩ := hvs
      obtain ⟨hw, hws⟩ := hws
      by_cases hvw : v = w
      · subst hvw
        rw [spell_cons_lt_cons_self_iff, ih hvs hws, partsBelow_cons_self_iff, List.prefix_cons_inj,
          ne_eq, ne_eq, List.cons_inj_right]
      · have hself : ¬(v = w ∧ spell vs < spell ws) := fun h ↦ hvw h.1
        have hpre : ¬(v :: vs <+: w :: ws ∧ v :: vs ≠ w :: ws) :=
          fun h ↦ hvw (List.cons_prefix_cons.1 h.1).1
        rw [spell_cons_lt_cons_iff hv hw, forksBelow_iff, or_iff_right hself, or_iff_right hpre,
          partsBelow_cons_iff_of_ne hvw, and_iff_right hvw, and_iff_right (Ne.symm hvw)]

/-- **The order of keys in terms of their values.** Of two keys that differ, the one whose values
are the first of the other sorts first; if neither is so, the values at the first difference decide,
as `PartsBelow` says. Where values that meet are as long as each other, this is the lexicographic
order of the lists of values. -/
theorem ofValues_lt_ofValues_iff_parts (hv : vs ≠ []) (hw : ws ≠ []) (hvs : ∀ v ∈ vs, v.Plain)
    (hws : ∀ w ∈ ws, w.Plain) :
    (ofValues vs < ofValues ws ↔ vs <+: ws ∧ vs ≠ ws ∨ PartsBelow vs ws) ∧
    ((∀ p ∈ vs.zip ws, p.1.length = p.2.length) → (ofValues vs < ofValues ws ↔ vs < ws)) := by
  rw [ofValues_lt_ofValues_iff hv hw]
  exact ⟨spell_lt_spell_iff_parts hvs hws, spell_lt_spell_iff⟩

/-- With a value behind both, the longer text sorts first; values of one length are in their own
order. -/
theorem ofValues_lt_ofValues_iff_parts_abcd :
    ofValues [['a', 'b', 'c', 'd'], ['x']] < ofValues [['a', 'b', 'c'], ['x']] ∧
    ofValues [['a', 'b'], ['x']] < ofValues [['a', 'c']] := by
  constructor
  · refine (ofValues_lt_ofValues_iff_parts (by decide) (by decide) (by decide) (by decide)).1.2 ?_
    exact .inr ⟨[], _, _, _, _, rfl, rfl, by decide, by decide⟩
  · refine ((ofValues_lt_ofValues_iff_parts ?_ ?_ ?_ ?_).2 (by decide)).2 (by decide)
    all_goals decide

end CompositeScan.Key
