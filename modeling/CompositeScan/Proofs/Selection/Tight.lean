import CompositeScan.Proofs.Selection.Build

/-!
# The range of a selection is tight

That nothing selected lies outside the range is only half of what makes a range useful; the other
half is that the range leaves out what it can. Its start is at the values of the lower chain and its
end just after those of the upper chain, as far as joined keys compare like the lists of their
values. They do where fixed-length values meet bounds of their own length
(`Key.spell_lt_spell_iff`), and this is all that is asked of a key here
(`Selection.Comparable`): a key may have fewer values than there are fields, or more.

## The neighbour of the last value

The end of an inclusive chain is at the text after its last value. No value as long lies between the
two (`Text.successor_le_of_lt`), so a key whose leading values are beyond the chain is not before
the end (`concat_le_of_concat_lt`). If there is no text after the last value the range is open, and
nothing is claimed.
-/

namespace CompositeScan

/-- A list beyond another one that is not shorter is beyond it with its last element replaced by a
neighbour. -/
theorem concat_le_of_concat_lt {init ws : List Text} {a b : Text} (h : init ++ [a] < ws)
    (hlen : ws.length ≤ init.length + 1)
    (hab : ∀ w, (w, a) ∈ ws.zip (init ++ [a]) → a < w → b ≤ w) : init ++ [b] ≤ ws := by
  have hne : ws ≠ [] := fun hws ↦ List.not_lt_nil _ (hws ▸ h)
  obtain ⟨w, ws, rfl⟩ := List.exists_cons_of_ne_nil hne
  induction init generalizing w ws with
  | nil =>
    obtain rfl : ws = [] := List.length_eq_zero_iff.1 (Nat.le_zero.1 (Nat.le_of_succ_le_succ hlen))
    rcases List.cons_lt_cons_iff.1 h with hlt | ⟨-, hlt⟩
    · rcases (hab w List.mem_cons_self hlt).lt_or_eq with hbw | rfl
      · exact List.cons_le_cons_iff.2 (.inl hbw)
      · exact List.le_refl _
    · exact absurd hlt (List.lt_irrefl _)
  | cons i init ih =>
    rcases List.cons_lt_cons_iff.1 h with hlt | ⟨rfl, hlt⟩
    · exact List.cons_le_cons_iff.2 (.inl hlt)
    · have hne : ws ≠ [] := fun hws ↦ List.not_lt_nil _ (hws ▸ hlt)
      obtain ⟨w, ws, rfl⟩ := List.exists_cons_of_ne_nil hne
      refine List.cons_le_cons_iff.2 (.inr ⟨rfl, ih w ws hlt ?_ ?_ hne⟩)
      · exact Nat.le_of_succ_le_succ hlen
      · exact fun u hu ↦ hab u (List.mem_cons_of_mem _ hu)

/-- If the field is of fixed length, the ends of the bound are as long as the value. -/
def Field.Comparable (f : Field) (b : Interval Text) (v : Text) : Prop :=
  f.isFixed → (∀ x ∈ b.lower.value?, x.length = v.length) ∧
    ∀ x ∈ b.upper.value?, x.length = v.length

instance (f : Field) (b : Interval Text) (v : Text) : Decidable (f.Comparable b v) :=
  inferInstanceAs (Decidable (_ → _ ∧ _))

namespace Column

variable {columns : List Column} {values : List Text} {key : Key}

theorem aligned_of_comparable {c : Column} {v : Text} (h : c.field.Comparable c.bound v)
    (hmem : v ∈ c.bound) : c.Aligned v :=
  ⟨hmem, fun hfixed ↦ (h hfixed).1, fun hfixed ↦ (h hfixed).2⟩

theorem length_eq_of_mem_zip_chainValues {g : Column → Bound Text} {chain : List (Bound Text)}
    (hpre : chain <+: columns.map g) (hchain : ∀ b ∈ chain, b.IsBounded)
    (h : ∀ p ∈ columns.zip values, ∀ x ∈ (g p.1).value?, x.length = p.2.length) :
    ∀ p ∈ values.zip (chainValues chain), p.1.length = p.2.length := by
  induction columns generalizing chain values with
  | nil => simp [List.prefix_nil.1 hpre, chainValues]
  | cons c columns ih =>
    rcases chain with - | ⟨b, chain⟩
    · simp [chainValues]
    · rw [List.map_cons, List.cons_prefix_cons] at hpre
      obtain ⟨rfl, hpre⟩ := hpre
      obtain ⟨hb, hchain⟩ := List.forall_mem_cons.1 hchain
      obtain ⟨x, hx⟩ := exists_value?_of_isBounded hb
      rw [chainValues_cons hx]
      rcases values with - | ⟨v, values⟩
      · simp
      · obtain ⟨hv, hvalues⟩ := List.forall_mem_cons.1 h
        exact List.forall_mem_cons.2 ⟨(hv x hx).symm, ih hpre hchain hvalues⟩

theorem length_eq_of_mem_zip_congr {vs ws us : List Text}
    (heq : ws.map List.length = us.map List.length)
    (h : ∀ p ∈ vs.zip ws, p.1.length = p.2.length) : ∀ p ∈ vs.zip us, p.1.length = p.2.length := by
  have hmap : ∀ us : List Text, (∀ p ∈ vs.zip us, p.1.length = p.2.length) ↔
      ∀ p ∈ vs.zip (us.map List.length), p.1.length = p.2 := by
    intro us
    rw [List.zip_map_right, List.forall_mem_map]
    rfl
  rw [hmap, ← heq, ← hmap]
  exact h

/-! ## Before the start -/

theorem not_mem_range_of_lt (hfixed : ∀ c ∈ columns, c.field.isFixed)
    (h : ∀ p ∈ columns.zip key.values, p.1.field.Comparable p.1.bound p.2)
    (hlt : key.values < chainValues (lowerChain columns)) : key ∉ range columns := by
  intro hmem
  have hbounded : ∀ b ∈ lowerChain columns, b.IsBounded := fun b ↦ isBounded_of_mem_lowerChain
  have hlen : ∀ p ∈ key.values.zip (chainValues (lowerChain columns)), p.1.length = p.2.length := by
    apply length_eq_of_mem_zip_chainValues (lowerChain_isPrefix columns) hbounded
    intro p hp
    exact (h p hp (hfixed p.1 (List.of_mem_zip hp).1)).1
  have hne : chainValues (lowerChain columns) ≠ [] := by
    intro hnil
    rw [hnil] at hlt
    exact List.not_lt_nil _ hlt
  have hle := ofValues_le_of_below_startOf hne hbounded hmem.1
  rw [← key.ofValues_values, Key.ofValues_le_ofValues_iff hne key.values_ne_nil] at hle
  exact not_lt.2 hle ((Key.spell_lt_spell_iff hlen).2 hlt)

/-! ## Beyond the end -/

theorem concat_next_le {init : List Text} {hi next : Text} (hnext : hi.successor = .ok next)
    (hlen : ∀ p ∈ key.values.zip (init ++ [hi]), p.1.length = p.2.length)
    (hlt : init ++ [hi] < key.values.take (init.length + 1)) :
    init ++ [next] ≤ key.values.take (init.length + 1) := by
  apply concat_le_of_concat_lt hlt (List.length_take_le _ _)
  intro w hw hlt
  have hmem := List.mem_of_mem_take (zip_take_left key.values _ _ ▸ hw)
  have hplain := Key.plain_of_mem_values (List.of_mem_zip hmem).1
  exact Text.successor_le_of_lt hnext hplain (hlen _ hmem) hlt

/-- A key is beyond an end that leaves out the values it begins with or is beyond. -/
theorem not_above_ofValues {ws : List Text} (n : ℕ) (hne : ws ≠ [])
    (hlen : ∀ p ∈ key.values.zip ws, p.1.length = p.2.length) (hle : ws ≤ key.values.take n) :
    ¬(Bound.excluded (Key.ofValues ws)).Above key := by
  intro habove
  have hlt : key < .ofValues ws := habove
  rw [← key.ofValues_values, Key.ofValues_lt_ofValues_iff key.values_ne_nil hne,
    Key.spell_lt_spell_iff hlen] at hlt
  have htake : key.values.take n ≤ key.values := by
    conv_rhs => rw [← key.values.take_append_drop n]
    exact List.le_append_left
  exact List.not_lt.2 (List.le_trans hle htake) hlt

theorem not_mem_range_of_excluded {hi : Text}
    (hlen : ∀ p ∈ key.values.zip (chainValues (upperChain columns)), p.1.length = p.2.length)
    (hlast : (upperChain columns).getLast? = some (.excluded hi))
    (hle : chainValues (upperChain columns) ≤
      key.values.take (chainValues (upperChain columns)).length) : key ∉ range columns := by
  have hend : endOf (upperChain columns) =
      .excluded (.ofValues (chainValues (upperChain columns))) := by rw [endOf, hlast]
  have hne : chainValues (upperChain columns) ≠ [] := by
    rw [chainValues_eq_append hlast rfl]
    exact List.concat_ne_nil _ _
  intro hmem
  exact not_above_ofValues _ hne hlen hle (hend ▸ hmem.2)

theorem not_mem_range_of_included {hi next : Text}
    (hlen : ∀ p ∈ key.values.zip (chainValues (upperChain columns)), p.1.length = p.2.length)
    (hlast : (upperChain columns).getLast? = some (.included hi))
    (hnext : hi.successor = .ok next)
    (hlt : chainValues (upperChain columns) <
      key.values.take (chainValues (upperChain columns)).length) : key ∉ range columns := by
  have hend : endOf (upperChain columns) =
      .excluded (.ofValues (chainValues (upperChain columns).dropLast ++ [next])) := by
    simp only [endOf, hlast, hnext]
  rw [chainValues_eq_append hlast rfl] at hlen hlt
  rw [List.length_append, List.length_singleton] at hlt
  -- The text after the last value is as long, so it may take the value's place in the comparison.
  have hlen' : ∀ p ∈ key.values.zip (chainValues (upperChain columns).dropLast ++ [next]),
      p.1.length = p.2.length :=
    length_eq_of_mem_zip_congr (by simp [(Text.forksBelow_of_successor hnext).2]) hlen
  intro hmem
  exact not_above_ofValues _ (List.concat_ne_nil _ _) hlen' (concat_next_le hnext hlen hlt)
    (hend ▸ hmem.2)

/-- A key whose leading values are beyond those of the upper chain is beyond the range, and so is
one that has those very values where the last bound leaves its value out; but a chain that ends in
an inclusive bound at a value without a text after it has no end. -/
theorem not_mem_range_of_gt (hfixed : ∀ c ∈ columns, c.field.isFixed)
    (h : ∀ p ∈ columns.zip key.values, p.1.field.Comparable p.1.bound p.2)
    {last : Bound Text} (hlast : (upperChain columns).getLast? = some last)
    (hgt : chainValues (upperChain columns) <
        key.values.take (chainValues (upperChain columns)).length ∨
      key.values.take (chainValues (upperChain columns)).length =
        chainValues (upperChain columns) ∧ last.isExclusive) :
    key ∉ range columns ∨ ∃ hi, last = .included hi ∧ hi.successor = .error (.exhausted hi) := by
  have hlen : ∀ p ∈ key.values.zip (chainValues (upperChain columns)), p.1.length = p.2.length := by
    apply length_eq_of_mem_zip_chainValues (upperChain_isPrefix columns)
      fun b ↦ isBounded_of_mem_upperChain
    intro p hp
    exact (h p hp (hfixed p.1 (List.of_mem_zip hp).1)).2
  cases last with
  | unbounded =>
    have hbounded := isBounded_of_mem_upperChain (List.mem_of_getLast? hlast)
    exact absurd hbounded Bound.not_isBounded_unbounded
  | excluded hi =>
    left
    apply not_mem_range_of_excluded hlen hlast
    rcases hgt with hlt | ⟨heq, -⟩
    · exact List.le_of_lt hlt
    · rw [heq]
      exact List.le_refl _
  | included hi =>
    have hlt := hgt.resolve_right fun h ↦ Bool.false_ne_true h.2
    cases hnext : hi.successor with
    | ok next => exact .inl (not_mem_range_of_included hlen hlast hnext hlt)
    | error e => exact .inr ⟨hi, rfl, by rw [hnext, Text.successor_eq_error hnext]⟩

end Column

namespace Selection

variable {attr : String} {fields : List Field} {bounds : List (Interval Text)} {s : Selection}
  {key : Key}

/-- At every fixed-length field that the key has a value for, the bounds are as long as that
value. -/
def Comparable (s : Selection) (key : Key) : Prop :=
  ∀ p ∈ (s.fields.zip s.bounds).zip key.values, p.1.1.Comparable p.1.2 p.2

instance (s : Selection) (key : Key) : Decidable (s.Comparable key) :=
  inferInstanceAs (Decidable (∀ p ∈ _, _))

theorem Comparable.columns (h : s.Comparable key) :
    ∀ p ∈ s.columns.zip key.values, p.1.field.Comparable p.1.bound p.2 := by
  refine (forall_mem_zip_iff_of_forall₂ (P := fun _ _ ↦ True)
    (Q := fun (p : Field × Interval Text) v ↦ p.1.Comparable p.2 v)
    (S := fun (c : Column) v ↦ c.field.Comparable c.bound v)
    (fun p c v hc _ ↦ ?_) (forall₂_columnsOf s.fields s.bounds) fun _ _ ↦ trivial).1 h
  obtain ⟨hfield, hloosens⟩ := hc
  rw [Field.Comparable, Field.Comparable, hfield, hloosens.lower.value?_eq,
    hloosens.upper.value?_eq]

/-- **The range of a selection is sound and tight**, as far as bounds are comparable with the values
of a key. An admitted key is before the end, and in the range if it has a value for each bound of
the lower chain. If all fields are of fixed length, a key whose values are before those of the lower
chain is out of range; so is one whose leading values are beyond those of the upper chain, or equal
to them where the last bound leaves its value out, unless that bound is at a value without a text
after it. -/
theorem range_sound_and_tight (h : ofBounds attr fields bounds = .ok s) (key : Key)
    (hkey : s.Comparable key) :
    (s.Admits key → s.range.upper.Above key ∧
      ((Column.lowerChain s.columns).length ≤ key.values.length → key ∈ s.range)) ∧
    ((∀ f ∈ s.fields, f.isFixed) →
      (key.values < Column.chainValues (Column.lowerChain s.columns) → key ∉ s.range) ∧
      ∀ last, (Column.upperChain s.columns).getLast? = some last →
        ∀ uppers, Column.chainValues (Column.upperChain s.columns) = uppers →
          uppers < key.values.take uppers.length ∨
            key.values.take uppers.length = uppers ∧ last.isExclusive →
          key ∉ s.range ∨ ∃ hi, last = .included hi ∧ hi.successor = .error (.exhausted hi)) := by
  have hcomparable := hkey.columns
  have hlegacy : s.legacy = none := by
    obtain ⟨_, rfl⟩ := ofBounds_eq_ok_iff.1 h
    rfl
  have hrange : s.range = Column.range s.columns := by rw [range, hlegacy]
  rw [hrange]
  constructor
  · intro hadmits
    rw [admits_iff, columnsFor_of_legacy_eq_none hlegacy] at hadmits
    have haligned : ∀ p ∈ s.columns.zip key.values, p.1.Aligned p.2 :=
      fun p hp ↦ Column.aligned_of_comparable (hcomparable p hp) (hadmits p hp)
    have habove := Column.above_endOf haligned key.values_ne_nil
    rw [key.ofValues_values] at habove
    refine ⟨habove, fun hlen ↦ ⟨?_, habove⟩⟩
    have hbelow := Column.below_startOf haligned hlen key.values_ne_nil
    rwa [key.ofValues_values] at hbelow
  · intro hfixed
    rw [← map_field_columns, List.forall_mem_map] at hfixed
    refine ⟨Column.not_mem_range_of_lt hfixed hcomparable, ?_⟩
    rintro last hlast uppers rfl hgt
    exact Column.not_mem_range_of_gt hfixed hcomparable hlast hgt

/-- From grade `b` on, and of grade `b` from the second grade `b` on, up to grade `b`. -/
theorem range_sound_and_tight_grades :
    ∃ s, ofBounds "rank" Sample.ranks
        [.between ['b'] ['b'], ⟨.included ['b'], .unbounded⟩] = .ok s ∧
      Key.ofValues [['b'], ['d']] ∈ s.range ∧ Key.ofValues [['b'], ['a']] ∉ s.range ∧
      Key.ofValues [['d'], ['b']] ∉ s.range := by
  have hok : ofBounds "rank" Sample.ranks
      [.between ['b'] ['b'], ⟨.included ['b'], .unbounded⟩] = .ok _ :=
    ofBounds_eq_ok_iff.2 ⟨by decide, rfl⟩
  refine ⟨_, hok, ?_, ?_, ?_⟩
  · have h := range_sound_and_tight hok (.ofValues [['b'], ['d']]) (by decide)
    exact (h.1 (by decide)).2 (by decide)
  · have h := range_sound_and_tight hok (.ofValues [['b'], ['a']]) (by decide)
    exact (h.2 (by decide)).1 (by decide)
  · have h := range_sound_and_tight hok (.ofValues [['d'], ['b']]) (by decide)
    rcases (h.2 (by decide)).2 (.included ['b']) (by decide) _ rfl (.inl (by decide)) with
      hout | ⟨hi, ⟨⟩, hlast⟩
    · exact hout
    · exact absurd hlast (by decide)

end Selection

end CompositeScan
