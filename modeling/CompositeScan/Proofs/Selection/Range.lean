import CompositeScan.Proofs.Key.Order
import CompositeScan.Proofs.Selection.Columns
import CompositeScan.Proofs.Text.Successor

/-!
# The range holds what the columns select

A scan only looks at the range spanned by the leading columns, so nothing that the columns select
may lie outside it. This is so for every key with a value for each column (`Column.mem_range`),
provided the fixed-length columns have bounds of the length of the key's values
(`Column.Aligned`). The two ends ask for less: no key within the columns is beyond the end
(`Column.above_endOf`), and none is before the start that has a value for each bound of the chain
(`Column.below_startOf`).

The start of the range compares with a key as the lower bounds of the chain do with its values, one
after the other. The first value that is not at its bound decides, in favour of the key; if all are
at their bounds, the last bound does. The end is compared in the same way, except that the last
value of an inclusive chain gives way to the text after it, which is beyond everything that begins
with that value.
-/

namespace CompositeScan.Column

open Key (spell)

variable {c : Column} {columns : List Column} {v : Text} {values : List Text} {key : Key}

/-- The value is in the bound of the column, which is as long if the column is of fixed length. -/
structure Aligned (c : Column) (v : Text) : Prop where
  /-- The value is in the bound. -/
  mem : v ∈ c.bound
  /-- The lower bound is as long. -/
  length_lower : c.field.isFixed → ∀ x, c.bound.lower.value? = some x → x.length = v.length
  /-- The upper bound is as long. -/
  length_upper : c.field.isFixed → ∀ x, c.bound.upper.value? = some x → x.length = v.length

/-- The upper bound of the column lets the value in, and is as long if the column is of fixed
length. -/
structure Under (c : Column) (v : Text) : Prop where
  /-- The value is under the upper bound. -/
  above : c.bound.upper.Above v
  /-- The upper bound is as long. -/
  length_upper : c.field.isFixed → ∀ x, c.bound.upper.value? = some x → x.length = v.length

theorem Aligned.under (h : c.Aligned v) : c.Under v := ⟨h.mem.2, h.length_upper⟩

theorem exists_value?_of_isBounded {b : Bound Text} (h : b.IsBounded) : ∃ x, b.value? = some x :=
  Option.isSome_iff_exists.1 h

theorem chainValues_cons {b : Bound Text} {x : Text} (h : b.value? = some x)
    (chain : List (Bound Text)) : chainValues (b :: chain) = x :: chainValues chain :=
  List.filterMap_cons_some h

/-! ## The start -/

theorem lowerChain_cons (h : c.bound.lower.IsBounded) :
    lowerChain (c :: columns) =
      c.bound.lower :: if c.field.isFixed then lowerChain columns else [] := by
  rw [lowerChain, if_pos h]

theorem lowerChain_cons_of_not (h : ¬c.bound.lower.IsBounded) : lowerChain (c :: columns) = [] := by
  rw [lowerChain, if_neg h]

theorem lowerChain_isPrefix (columns : List Column) :
    lowerChain columns <+: columns.map fun c ↦ c.bound.lower := by
  induction columns with
  | nil => exact List.prefix_rfl
  | cons c columns ih =>
    by_cases hb : c.bound.lower.IsBounded
    · rw [lowerChain_cons hb, List.map_cons, List.prefix_cons_inj]
      split
      · exact ih
      · exact List.nil_prefix
    · rw [lowerChain_cons_of_not hb]
      exact List.nil_prefix

/-- The lower bounds of the chain are at or before the values. -/
theorem spell_lowerChain_le (h : ∀ p ∈ columns.zip values, p.1.Aligned p.2)
    (hlen : (lowerChain columns).length ≤ values.length) :
    spell (chainValues (lowerChain columns)) ≤ spell values := by
  induction columns generalizing values with
  | nil => exact List.nil_le _
  | cons c columns ih =>
    by_cases hb : c.bound.lower.IsBounded
    · obtain ⟨x, hx⟩ := exists_value?_of_isBounded hb
      rw [lowerChain_cons hb, List.length_cons] at hlen
      obtain ⟨v, values, rfl⟩ := List.exists_cons_of_length_pos (Nat.zero_lt_of_lt hlen)
      obtain ⟨hv, hvalues⟩ := List.forall_mem_cons.1 h
      have hle := hv.mem.1.le hx
      rw [lowerChain_cons hb, chainValues_cons hx]
      split
      · next hfixed =>
        rw [if_pos hfixed, List.length_cons] at hlen
        rcases hle.lt_or_eq with hlt | rfl
        · exact (Key.spell_cons_lt_cons_of_lt hlt (hv.length_lower hfixed x hx) _ _).le
        · exact Key.spell_cons_le_cons_self_iff.2 (ih hvalues (Nat.le_of_succ_le_succ hlen))
      · exact Key.spell_singleton_le_cons hle _
    · rw [lowerChain_cons_of_not hb]
      exact List.nil_le _

/-- If the last of them leaves its value out, they are before the values. -/
theorem spell_lowerChain_lt (h : ∀ p ∈ columns.zip values, p.1.Aligned p.2)
    (hlen : (lowerChain columns).length ≤ values.length) {last : Text}
    (hlast : (lowerChain columns).getLast? = some (.excluded last)) :
    spell (chainValues (lowerChain columns)) < spell values := by
  induction columns generalizing values with
  | nil => cases hlast
  | cons c columns ih =>
    by_cases hb : c.bound.lower.IsBounded
    · obtain ⟨x, hx⟩ := exists_value?_of_isBounded hb
      rw [lowerChain_cons hb, List.length_cons] at hlen
      obtain ⟨v, values, rfl⟩ := List.exists_cons_of_length_pos (Nat.zero_lt_of_lt hlen)
      obtain ⟨hv, hvalues⟩ := List.forall_mem_cons.1 h
      have hle := hv.mem.1.le hx
      rw [lowerChain_cons hb] at hlast
      rw [lowerChain_cons hb, chainValues_cons hx]
      generalize hrest : (if c.field.isFixed then lowerChain columns else []) = rest
        at hlast hlen ⊢
      rcases eq_or_ne rest [] with rfl | hne
      -- The chain ends here, so this is the bound that leaves its value out.
      · rw [List.getLast?_singleton, Option.some_inj] at hlast
        have hlt := hv.mem.1
        rw [hlast] at hlt hx
        cases hx
        exact Key.spell_singleton_lt_cons hlt _
      -- It goes on, which it does behind a value of fixed length only.
      · obtain ⟨hfixed, rfl⟩ : c.field.isFixed ∧ lowerChain columns = rest := by
          split at hrest
          · exact ⟨‹_›, hrest⟩
          · exact absurd hrest.symm hne
        rw [List.getLast?_cons_of_ne_nil hne] at hlast
        rw [List.length_cons] at hlen
        rcases hle.lt_or_eq with hlt | rfl
        · exact Key.spell_cons_lt_cons_of_lt hlt (hv.length_lower hfixed x hx) _ _
        · exact Key.spell_cons_lt_cons_self_iff.2
            (ih hvalues (Nat.le_of_succ_le_succ hlen) hlast)
    · rw [lowerChain_cons_of_not hb] at hlast
      cases hlast

theorem isBounded_of_mem_lowerChain {b : Bound Text} (h : b ∈ lowerChain columns) :
    b.IsBounded := by
  induction columns with
  | nil => cases h
  | cons c columns ih =>
    by_cases hb : c.bound.lower.IsBounded
    · rw [lowerChain_cons hb] at h
      rcases List.mem_cons.1 h with rfl | h
      · exact hb
      · split at h
        · exact ih h
        · cases h
    · rw [lowerChain_cons_of_not hb] at h
      cases h

theorem ofValues_le_of_below_startOf {chain : List (Bound Text)} (hne : chainValues chain ≠ [])
    (hchain : ∀ b ∈ chain, b.IsBounded) (h : (startOf chain).Below key) :
    .ofValues (chainValues chain) ≤ key := by
  rw [startOf] at h
  split at h
  · exact h
  · exact le_of_lt (α := Key) h
  · next hincluded hexcluded =>
    have hcons : chain ≠ [] := fun hnil ↦ hne (hnil ▸ rfl)
    obtain ⟨last, hlast⟩ := Option.isSome_iff_exists.1 (List.getLast?_isSome.2 hcons)
    have hbounded := hchain last (List.mem_of_getLast? hlast)
    cases last with
    | unbounded => exact absurd hbounded Bound.not_isBounded_unbounded
    | included v => exact absurd hlast (hincluded v)
    | excluded v => exact absurd hlast (hexcluded v)

/-! ## The end -/

theorem upperChain_cons (h : c.bound.upper.IsBounded ∧ c.field.isFixed) :
    upperChain (c :: columns) = c.bound.upper :: upperChain columns := by
  rw [upperChain, if_pos h]

theorem upperChain_cons_of_not (h : ¬(c.bound.upper.IsBounded ∧ c.field.isFixed)) :
    upperChain (c :: columns) = [] := by
  rw [upperChain, if_neg h]

theorem upperChain_isPrefix (columns : List Column) :
    upperChain columns <+: columns.map fun c ↦ c.bound.upper := by
  induction columns with
  | nil => exact List.prefix_rfl
  | cons c columns ih =>
    by_cases hb : c.bound.upper.IsBounded ∧ c.field.isFixed
    · rw [upperChain_cons hb, List.map_cons, List.prefix_cons_inj]
      exact ih
    · rw [upperChain_cons_of_not hb]
      exact List.nil_prefix

theorem isBounded_of_mem_upperChain {b : Bound Text} (h : b ∈ upperChain columns) :
    b.IsBounded := by
  induction columns with
  | nil => cases h
  | cons c columns ih =>
    by_cases hb : c.bound.upper.IsBounded ∧ c.field.isFixed
    · rw [upperChain_cons hb] at h
      rcases List.mem_cons.1 h with rfl | h
      · exact hb.1
      · exact ih h
    · rw [upperChain_cons_of_not hb] at h
      cases h

/-- The upper bounds of the chain are beyond the values, once the last of them gives way to a text
beyond everything it lets in. Values that end before the chain does come before it. -/
theorem spell_lt_upperChain (h : ∀ p ∈ columns.zip values, p.1.Under p.2) {last : Bound Text}
    {u : Text} (hlast : (upperChain columns).getLast? = some last)
    (hu : ∀ v, last.Above v → (∀ x, last.value? = some x → x.length = v.length) →
      v < u ∧ v.length = u.length) :
    spell values < spell (chainValues (upperChain columns).dropLast ++ [u]) := by
  induction columns generalizing values with
  | nil => cases hlast
  | cons c columns ih =>
    by_cases hb : c.bound.upper.IsBounded ∧ c.field.isFixed
    · obtain ⟨x, hx⟩ := exists_value?_of_isBounded hb.1
      rw [upperChain_cons hb] at hlast
      rw [upperChain_cons hb]
      cases values with
      | nil => exact Key.nil_lt_spell (List.concat_ne_nil _ _)
      | cons v values =>
        obtain ⟨hv, hvalues⟩ := List.forall_mem_cons.1 h
        have hlen := hv.length_upper hb.2
        rcases eq_or_ne (upperChain columns) [] with hnil | hne
        -- The chain ends here, where `u` stands in for the value of the bound.
        · rw [hnil, List.getLast?_singleton, Option.some_inj] at hlast
          obtain ⟨hlt, hlen⟩ := hu v (hlast ▸ hv.above) (hlast ▸ hlen)
          rw [hnil]
          exact Key.spell_cons_lt_cons_of_lt hlt hlen _ _
        · rw [List.getLast?_cons_of_ne_nil hne] at hlast
          rw [List.dropLast_cons_of_ne_nil hne, chainValues_cons hx, List.cons_append]
          rcases (hv.above.le hx).lt_or_eq with hlt | rfl
          · exact Key.spell_cons_lt_cons_of_lt hlt (hlen x hx).symm _ _
          · exact Key.spell_cons_lt_cons_self_iff.2 (ih hvalues hlast)
    · rw [upperChain_cons_of_not hb] at hlast
      cases hlast

/-! ## The range -/

theorem chainValues_eq_append {chain : List (Bound Text)} {last : Bound Text} {x : Text}
    (h : chain.getLast? = some last) (hx : last.value? = some x) :
    chainValues chain = chainValues chain.dropLast ++ [x] := by
  conv_lhs => rw [← List.dropLast_append_getLast? last h]
  rw [chainValues, List.filterMap_append, List.filterMap_cons_some hx, List.filterMap_nil]
  rfl

theorem below_startOf (h : ∀ p ∈ columns.zip values, p.1.Aligned p.2)
    (hlen : (lowerChain columns).length ≤ values.length) (hne : values ≠ []) :
    (startOf (lowerChain columns)).Below (.ofValues values) := by
  rw [startOf]
  split
  · next lo hlast =>
    have hchain := chainValues_eq_append hlast rfl
    exact (Key.ofValues_le_ofValues_iff (by simp [hchain]) hne).2 (spell_lowerChain_le h hlen)
  · next lo hlast =>
    have hchain := chainValues_eq_append hlast rfl
    exact (Key.ofValues_lt_ofValues_iff (by simp [hchain]) hne).2
      (spell_lowerChain_lt h hlen hlast)
  · trivial

theorem above_endOf_of_under (h : ∀ p ∈ columns.zip values, p.1.Under p.2) (hne : values ≠ []) :
    (endOf (upperChain columns)).Above (.ofValues values) := by
  rw [endOf]
  split
  · next hi hlast =>
    rw [chainValues_eq_append hlast rfl]
    refine (Key.ofValues_lt_ofValues_iff hne (by simp)).2 (spell_lt_upperChain h hlast ?_)
    exact fun v hv hlen ↦ ⟨hv, (hlen hi rfl).symm⟩
  · next last hlast =>
    split
    · next next hnext =>
      obtain ⟨hfork, hnextlen⟩ := Text.forksBelow_of_successor hnext
      refine (Key.ofValues_lt_ofValues_iff hne (by simp)).2 (spell_lt_upperChain h hlast ?_)
      intro v hv hlen
      exact ⟨lt_of_le_of_lt (α := Text) hv hfork.lt, (hlen last rfl).symm.trans hnextlen.symm⟩
    · trivial
  · trivial

theorem above_endOf (h : ∀ p ∈ columns.zip values, p.1.Aligned p.2) (hne : values ≠ []) :
    (endOf (upperChain columns)).Above (.ofValues values) :=
  above_endOf_of_under (fun p hp ↦ (h p hp).under) hne

/-- **A key within the columns is in the range** they span. -/
theorem mem_range (h : List.Forall₂ Aligned columns values) (extra : List Text)
    (hne : values ++ extra ≠ []) : .ofValues (values ++ extra) ∈ range columns := by
  have haligned : ∀ p ∈ columns.zip (values ++ extra), p.1.Aligned p.2 := by
    rw [zip_append_of_length_eq columns h.length_eq]
    exact fun p hp ↦ List.forall₂_zip h hp
  refine ⟨below_startOf haligned ?_ hne, above_endOf haligned hne⟩
  calc (lowerChain columns).length ≤ columns.length := by
        simpa using (lowerChain_isPrefix columns).length_le
    _ = values.length := h.length_eq
    _ ≤ (values ++ extra).length := by simp

end CompositeScan.Column
