import CompositeScan.Proofs.Key.Leads
import CompositeScan.Proofs.Selection.Columns
import CompositeScan.Selection.Leap

/-!
# Leaps pass over nothing

A leap is safe if no key in range is lost by seeking its target, provided the scan stops at the
leading parts of the target on its way, and if it gives up only when there is none further on
(`Selection.LeapSpares`). `Selection.leapSpares` says so for every key in range that has values of
the vocabularies. Of the key from which the leap starts less is asked: to move on from its values
must leave out no such value (`Field.Passable`). The one failure of a leap is `Leap.Stuck`.

## What the turn of an odometer preserves

A leap turns the values of a key from the least significant one on. What a turn of the last values
promises is `Turned.Safe`, a statement about every way to go on with values in range. If the turn
asks the value before it to move on, no such way leads further than the key did, and the values it
was set back to spare them all. Otherwise its values spare every way that leads further. The
promise for one more value is `turnValue_safe`, with a lemma for each line of the odometer's table.

Two keys in order are compared at the first value where they differ (`Key.spell_cons_lt_cons_iff`);
for values of one length that is their order, and for values of any length it depends on whether
more values follow.
-/

namespace CompositeScan

namespace Leap

open Key

variable {V : Vocabularies} {attr : String} {c : Column} {columns later : List Column}
  {v w : Text} {vs ws target values : List Text}

/-! ## Targets that spare a key -/

/-- To seek `target`, and its leading parts on the way, does not pass over `values`. -/
def Spares (target values : List Text) : Prop := spell target ≤ spell values ∨ values <+: target

namespace Spares

theorem nil_left (values : List Text) : Spares [] values := .inl (List.nil_le _)

theorem nil_right (target : List Text) : Spares target [] := .inr List.nil_prefix

theorem cons (h : Spares target values) (v : Text) : Spares (v :: target) (v :: values) :=
  h.imp spell_cons_le_cons_self_iff.2 (List.prefix_cons_inj v).2

theorem singleton_of_le (h : v ≤ w) (ws : List Text) : Spares [v] (w :: ws) :=
  .inl (spell_singleton_le_cons h ws)

theorem cons_of_le (h : Spares target ws) (hle : v ≤ w) (hlen : v.length = w.length) :
    Spares (v :: target) (w :: ws) := by
  rcases hle.lt_or_eq with hlt | rfl
  · exact .inl (spell_cons_lt_cons_of_lt hlt hlen target ws).le
  · exact h.cons v

end Spares

/-! ## Values in range -/

/-- The value is within the bound of the column and, if its field is of fixed length, in the
vocabulary. -/
def Fits (V : Vocabularies) (c : Column) (v : Text) : Prop :=
  v ∈ c.bound ∧ (c.field.isFixed → v ∈ V c.field.name)

/-- Each value that has a column fits it, and all are free of separators. -/
def Within (V : Vocabularies) (columns : List Column) (values : List Text) : Prop :=
  (∀ p ∈ columns.zip values, Fits V p.1 p.2) ∧ ∀ v ∈ values, v.Plain

theorem within_cons_iff :
    Within V (c :: columns) (w :: ws) ↔ Fits V c w ∧ w.Plain ∧ Within V columns ws := by
  simp only [Within, List.zip_cons_cons, List.forall_mem_cons]
  tauto

theorem Within.take (h : Within V columns ws) (n : ℕ) : Within V (columns.take n) ws := by
  induction columns generalizing n ws with
  | nil => rwa [List.take_nil]
  | cons c columns ih =>
    cases n with
    | zero => exact ⟨nofun, h.2⟩
    | succ n =>
      cases ws with
      | nil => exact ⟨nofun, h.2⟩
      | cons w ws =>
        obtain ⟨hw, hplain, hws⟩ := within_cons_iff.1 h
        rw [List.take_succ_cons]
        exact within_cons_iff.2 ⟨hw, hplain, ih hws n⟩

/-- The failure of a column that would have to take the value after an excluded lower bound that
has none. -/
def Stuck (attr : String) (columns : List Column) (e : Error) : Prop :=
  ∃ c ∈ columns, ∃ d lo cause, c.field.domain? = some d ∧ c.bound.lower = .excluded lo ∧
    d.successor lo = .error cause ∧ e = .boundExhausted attr c.field.name cause

theorem leastPlace_spares {place : Place} (h : leastPlace attr c = .ok place)
    (hc : c.Sparing (V c.field.name)) (hw : Fits V c w) (hs : Spares target ws) :
    Spares (place.followedBy target) (w :: ws) := by
  obtain ⟨⟨hbelow, -⟩, hmem⟩ := hw
  -- By the kind of the lower bound and of the field. A value of variable length ends the target, so
  -- what follows it does not matter; one of fixed length is compared with values of its length.
  rw [leastPlace] at h
  split at h
  · cases h
    exact Spares.nil_left _
  · next lo d hlo hd =>
    cases h
    rw [hlo] at hbelow
    refine hs.cons_of_le hbelow ?_
    rw [hc.length_lower d hd lo (by rw [hlo]; rfl),
      Vocabulary.length_eq _ (hmem (Field.isFixed_of_domain hd))]
  · next lo hlo hd =>
    cases h
    rw [hlo] at hbelow
    exact Spares.singleton_of_le hbelow ws
  · next lo d hlo hd =>
    rw [hlo] at hbelow
    have hw := hmem (Field.isFixed_of_domain hd)
    have hnext := hc.sparesAbove_lower d hd lo hlo
    split at h
    · next next hsucc =>
      cases h
      rw [hsucc] at hnext
      exact hs.cons_of_le (hnext.2 w hw hbelow) (hnext.1.trans (Vocabulary.length_eq _ hw).symm)
    · cases h
  · next lo hlo hd =>
    cases h
    rw [hlo] at hbelow
    exact Spares.singleton_of_le (le_of_lt hbelow) ws

theorem Stuck.mono {columns' : List Column} {e : Error} (h : Stuck attr columns e)
    (hsub : columns ⊆ columns') : Stuck attr columns' e := by
  obtain ⟨c, hc, h⟩ := h
  exact ⟨c, hsub hc, h⟩

theorem stuck_of_leastPlace {e : Error} (h : leastPlace attr c = .error (.failed e)) :
    Stuck attr [c] e := by
  rw [leastPlace] at h
  split at h
  · cases h
  · cases h
  · cases h
  · next lo d hlo hd =>
    split at h
    · cases h
    · next cause hsucc =>
      cases h
      exact ⟨c, List.mem_singleton_self c, d, lo, cause, hd, hlo, hsucc, rfl⟩
  · cases h

/-! ## The least values of columns -/

theorem leastValues_nil_eq_ok_iff : leastValues attr [] = .ok values ↔ values = [] :=
  ⟨fun h ↦ (Except.ok.inj h).symm, fun h ↦ h ▸ rfl⟩

theorem leastValues_cons_eq_ok_iff :
    leastValues attr (c :: columns) = .ok values ↔
      ∃ place rest, leastPlace attr c = .ok place ∧ leastValues attr columns = .ok rest ∧
        values = place.followedBy rest := by
  simp only [leastValues, List.mapM_cons, bind_eq_ok_iff]
  constructor
  · rintro ⟨places, ⟨place, hplace, rest, hrest, h⟩, hvalues⟩
    cases h
    cases hvalues
    exact ⟨place, _, hplace, ⟨rest, hrest, rfl⟩, rfl⟩
  · rintro ⟨place, rest, hplace, ⟨places, hplaces, h⟩, rfl⟩
    cases h
    exact ⟨place :: places, ⟨place, hplace, places, hplaces, rfl⟩, rfl⟩

theorem leastValues_cons_eq_error {halt : Halt}
    (h : leastValues attr (c :: columns) = .error halt) :
    leastPlace attr c = .error halt ∨ leastValues attr columns = .error halt := by
  simp only [leastValues, List.mapM_cons, bind_eq_error_iff] at h ⊢
  rcases h with (h | ⟨place, -, h | ⟨rest, -, h⟩⟩) | ⟨places, -, h⟩
  · exact .inl h
  · exact .inr (.inl h)
  · cases h
  · cases h

theorem leastValues_spares (h : leastValues attr columns = .ok values)
    (hlaw : ∀ c ∈ columns, c.Sparing (V c.field.name)) (hws : Within V columns ws) :
    Spares values ws := by
  induction columns generalizing values ws with
  | nil => exact leastValues_nil_eq_ok_iff.1 h ▸ Spares.nil_left ws
  | cons c columns ih =>
    obtain ⟨hc, hcolumns⟩ := List.forall_mem_cons.1 hlaw
    obtain ⟨place, rest, hplace, hrest, rfl⟩ := leastValues_cons_eq_ok_iff.1 h
    cases ws with
    | nil => exact Spares.nil_right _
    | cons w ws =>
      obtain ⟨hw, -, hws⟩ := within_cons_iff.1 hws
      exact leastPlace_spares hplace hc hw (ih hrest hcolumns hws)

theorem stuck_of_leastValues {e : Error} (h : leastValues attr columns = .error (.failed e)) :
    Stuck attr columns e := by
  induction columns with
  | nil => cases h
  | cons c columns ih =>
    rcases leastValues_cons_eq_error h with h | h
    · exact (stuck_of_leastPlace h).mono (by simp)
    · exact (ih h).mono (List.subset_cons_self c columns)

/-! ## One value turns -/

/-- What a turn of the values `vs` of a key promises about the keys that go on in another way. -/
structure Turned.Safe (V : Vocabularies) (columns : List Column) (vs : List Text)
    (turned : Turned) : Prop where
  /-- If the value before has to move on, no way leads further. -/
  not_lt : turned.carry = true → ∀ ws, Within V columns ws → ¬spell vs < spell ws
  /-- The values set to spare every way that leads further or, if the value before has to move on,
  every way. -/
  spares : ∀ ws, Within V columns ws → (turned.carry = true ∨ spell vs < spell ws) →
    Spares turned.values ws

theorem Turned.Safe.of_cons {turned : Turned}
    (not_lt : turned.carry = true → ∀ w ws, Within V (c :: columns) (w :: ws) →
      ¬spell vs < spell (w :: ws))
    (spares : ∀ w ws, Within V (c :: columns) (w :: ws) →
      (turned.carry = true ∨ spell vs < spell (w :: ws)) → Spares turned.values (w :: ws)) :
    turned.Safe V (c :: columns) vs where
  not_lt hcarry ws hws := by
    cases ws with
    | nil => exact List.not_lt_nil _
    | cons w ws => exact not_lt hcarry w ws hws
  spares ws hws h := by
    cases ws with
    | nil => exact Spares.nil_right _
    | cons w ws => exact spares w ws hws h

/-- A value below its bound, in a variable-length field, moves to the bound or past itself. -/
theorem raisedPlace_spares_of_varying (hf : c.field.domain? = none) {place : Place}
    {endsKey : Bool} (h : raisedPlace attr c v endsKey = .ok place)
    (hbelow : ¬c.bound.lower.Below v) (hends : endsKey = true ↔ vs = [])
    (hpass : c.field.Passable (V c.field.name) v) (hv : v.Plain) (hw : w.Plain)
    (hfits : Fits V c w) (hlt : spell (v :: vs) < spell (w :: ws)) :
    Spares (place.followedBy target) (w :: ws) := by
  have hvw : v ≠ w := fun heq ↦ hbelow (heq ▸ hfits.1.1)
  rw [Field.passable_iff_of_varying hf] at hpass
  cases hlower : c.bound.lower.value? with
  | none => simp [raisedPlace, hf, hlower] at h
  | some lower =>
    -- The bound separates the two values, whether it is left out or not.
    obtain ⟨hvl, hlw⟩ : v ≤ lower ∧ lower ≤ w := by
      have hin := hfits.1.1
      cases hb : c.bound.lower <;> rw [hb] at hbelow hin hlower <;> cases hlower
      · exact ⟨(not_le.1 hbelow).le, hin⟩
      · exact ⟨not_lt.1 hbelow, le_of_lt hin⟩
    simp only [raisedPlace, hf, hlower] at h
    split at h
    · cases h
      exact Spares.singleton_of_le hlw ws
    · split at h
      · cases h
      · next hend =>
        split at h
        · next past hpast =>
          cases h
          refine Spares.singleton_of_le ?_ ws
          -- With more values after it `v` sorts after the texts that extend it, so a text in range
          -- that leads further forks from it.
          rcases (spell_cons_lt_cons_iff hv hw).1 hlt
            with ⟨heq, -⟩ | hfork | ⟨-, -, hvs⟩ | ⟨hpre, hne, -⟩
          · exact absurd heq hvw
          · exact Text.successor_le_of_forksBelow hv hpass hpast hfork
          · exact absurd (hends.2 hvs) hend
          · exact absurd (hvl.trans hlw) (not_le.2 (Text.lt_of_isPrefix_of_ne hpre hne))
        · cases h

/-- A value below its bound moves to the least value in range after it. -/
theorem raisedPlace_spares {place : Place} {endsKey : Bool}
    (h : raisedPlace attr c v endsKey = .ok place) (hc : c.Sparing (V c.field.name))
    (hbelow : ¬c.bound.lower.Below v) (hends : endsKey = true ↔ vs = [])
    (hpass : c.field.Passable (V c.field.name) v) (hv : v.Plain) (hw : w.Plain)
    (hfits : Fits V c w) (hlt : spell (v :: vs) < spell (w :: ws)) (hs : Spares target ws) :
    Spares (place.followedBy target) (w :: ws) := by
  cases hf : c.field.domain? with
  | none => exact raisedPlace_spares_of_varying hf h hbelow hends hpass hv hw hfits hlt
  | some d =>
    simp only [raisedPlace, hf] at h
    exact leastPlace_spares h hc hfits hs

/-- No value in range stands above one that is beyond its bound, unless a shorter text in range
does so in front of further values. -/
theorem not_spell_lt_of_not_above (habove : ¬c.bound.upper.Above v)
    (hshorter : ¬(¬c.field.isFixed ∧ HasShorterIn c.bound v))
    (hpass : c.field.Passable (V c.field.name) v) (hv : v.Plain) (hw : w.Plain)
    (hfits : Fits V c w) : ¬spell (v :: vs) < spell (w :: ws) := by
  have hwv : w < v := not_le.1 fun hle ↦ habove (hfits.1.2.mono hle)
  cases hf : c.field.domain? with
  | some d =>
    rw [Field.passable_iff_of_domain hf] at hpass
    have hw' := Vocabulary.length_eq _ (hfits.2 (Field.isFixed_of_domain hf))
    exact lt_asymm (spell_cons_lt_cons_of_lt hwv (hw'.trans hpass.1.symm) ws vs)
  | none =>
    -- The separator is the greatest character, so with more values after it a shorter text sorts
    -- after the longer one. That is what the odometer looks out for.
    intro hlt
    rcases (spell_cons_lt_cons_iff hv hw).1 hlt
      with ⟨rfl, -⟩ | hfork | ⟨hpre, -, -⟩ | ⟨hpre, hne, -⟩
    · exact lt_irrefl _ hwv
    · exact lt_asymm hwv hfork.lt
    · exact not_lt.2 (Text.le_of_isPrefix hpre) hwv
    · refine hshorter ⟨by simp [Field.isFixed, hf], w.length, ?_, ?_⟩
      · exact lt_of_le_of_ne hpre.length_le fun hlen ↦ hne (hpre.eq_of_length hlen)
      · rw [← List.prefix_iff_eq_take.1 hpre]
        exact hfits.1

/-- A value within its bound that has to move on takes the next value of its domain, or is set back
if there is none in range. -/
theorem moveOn_safe_of_domain {d : Domain} (hf : c.field.domain? = some d) {right turned : Turned}
    (h : moveOn attr c v right.values = .ok turned) (hc : c.Sparing (V c.field.name))
    (hcarry : right.carry = true) (hright : right.Safe V later vs)
    (hpass : c.field.Passable (V c.field.name) v) : turned.Safe V (c :: later) (v :: vs) := by
  rw [Field.passable_iff_of_domain hf] at hpass
  obtain ⟨hlen, hnext⟩ := hpass
  -- Since no way after `v` leads further, one that does has a greater value here.
  have further : ∀ {w ws}, Within V (c :: later) (w :: ws) → spell (v :: vs) < spell (w :: ws) →
      w ∈ V c.field.name ∧ v < w := by
    intro w ws hws hlt
    obtain ⟨hfits, -, hws⟩ := within_cons_iff.1 hws
    have hw := hfits.2 (Field.isFixed_of_domain hf)
    refine ⟨hw, ?_⟩
    have hlen' := hlen.trans (Vocabulary.length_eq _ hw).symm
    rcases (spell_cons_lt_cons_iff_of_length_eq hlen').1 hlt with hvw | ⟨-, hrest⟩
    · exact hvw
    · exact absurd hrest (hright.not_lt hcarry ws hws)
  -- Set back, the values spare every way there is, so that none may lead further.
  have setBack : ∀ {place : Place}, leastPlace attr c = .ok place →
      (∀ w ws, Within V (c :: later) (w :: ws) → ¬spell (v :: vs) < spell (w :: ws)) →
      (Turned.mk true (place.followedBy right.values)).Safe V (c :: later) (v :: vs) := by
    intro place hplace hnone
    refine .of_cons (fun _ ↦ hnone) fun w ws hws _ ↦ ?_
    obtain ⟨hfits, -, hws⟩ := within_cons_iff.1 hws
    exact leastPlace_spares hplace hc hfits (hright.spares ws hws (.inl hcarry))
  simp only [moveOn, hf] at h
  split at h
  · next next hsucc =>
    rw [hsucc] at hnext
    split at h
    · cases h
      refine .of_cons nofun fun w ws hws hlt ↦ ?_
      obtain ⟨hw, hvw⟩ := further hws (hlt.resolve_left nofun)
      have hrest := hright.spares ws (within_cons_iff.1 hws).2.2 (.inl hcarry)
      exact hrest.cons_of_le (hnext.2 w hw hvw) (hnext.1.trans (Vocabulary.length_eq _ hw).symm)
    · next habove =>
      obtain ⟨place, hplace, h⟩ := bind_eq_ok_iff.1 h
      cases h
      refine setBack hplace fun w ws hws hlt ↦ habove ?_
      obtain ⟨hw, hvw⟩ := further hws hlt
      exact (within_cons_iff.1 hws).1.1.2.mono (hnext.2 w hw hvw)
  · next hsucc =>
    rw [hsucc] at hnext
    obtain ⟨place, hplace, h⟩ := bind_eq_ok_iff.1 h
    cases h
    refine setBack hplace fun w ws hws hlt ↦ ?_
    obtain ⟨hw, hvw⟩ := further hws hlt
    exact hnext w hw hvw
  · cases h

/-- A variable-length value that has to move on moves past itself, and past every key that shares
it. -/
theorem moveOn_safe_of_varying (hf : c.field.domain? = none) {right turned : Turned}
    (h : moveOn attr c v right.values = .ok turned) (hcarry : right.carry = true)
    (hright : right.Safe V later vs) (hvs : vs ≠ []) (hpass : c.field.Passable (V c.field.name) v)
    (hv : v.Plain) : turned.Safe V (c :: later) (v :: vs) := by
  rw [Field.passable_iff_of_varying hf] at hpass
  simp only [moveOn, hf] at h
  split at h
  · next past hpast =>
    cases h
    refine .of_cons nofun fun w ws hws hlt ↦ ?_
    obtain ⟨-, hw, hws⟩ := within_cons_iff.1 hws
    rcases (spell_cons_lt_cons_iff hv hw).1 (hlt.resolve_left nofun) with
      ⟨-, hrest⟩ | hfork | ⟨-, -, hnil⟩ | ⟨hpre, hne, hne'⟩
    · exact absurd hrest (hright.not_lt hcarry ws hws)
    · exact Spares.singleton_of_le (Text.successor_le_of_forksBelow hv hpass hpast hfork) ws
    · exact absurd hnil hvs
    · -- A text that `v` extends is one that its successor extends, too.
      obtain ⟨hpre, hne⟩ := Text.prefix_of_successor hv hpass hpast hpre hne
      have hplain := Text.plain_of_successor hv hpast
      exact .inl (spell_cons_lt_cons_of_isPrefix hplain hpre hne hne' []).le
  · cases h

/-- A value within its bound stays as it is, if the values after it do not ask it to move on. -/
theorem safe_of_kept {right : Turned} (hright : right.Safe V later vs)
    (hends : vs = [] → right.values = []) (hv : v.Plain) :
    (Turned.mk false (v :: right.values)).Safe V (c :: later) (v :: vs) := by
  refine .of_cons nofun fun w ws hws hlt ↦ ?_
  obtain ⟨-, hw, hrest⟩ := within_cons_iff.1 hws
  rcases (spell_cons_lt_cons_iff hv hw).1 (hlt.resolve_left nofun) with
    ⟨rfl, hfurther⟩ | hfork | ⟨hpre, -, hnil⟩ | ⟨hpre, hne, hne'⟩
  · exact (hright.spares ws hrest (.inr hfurther)).cons v
  · exact .inl (spell_cons_lt_cons_of_forksBelow hfork _ _).le
  · rw [hends hnil]
    exact Spares.singleton_of_le (Text.le_of_isPrefix hpre) ws
  · exact .inl (spell_cons_lt_cons_of_isPrefix hv hpre hne hne' _).le

/-- One more value turns: what it then promises follows from what the values after it promise. -/
theorem turnValue_safe {endsKey : Bool} {right turned : Turned}
    (h : turnValue attr c v endsKey later right = .ok turned) (hc : c.Sparing (V c.field.name))
    (hlater : ∀ c ∈ later, c.Sparing (V c.field.name)) (hright : right.Safe V later vs)
    (hends : endsKey = true ↔ vs = []) (hnil : vs = [] → right = ⟨false, []⟩)
    (hpass : c.field.Passable (V c.field.name) v) (hv : v.Plain) :
    turned.Safe V (c :: later) (v :: vs) := by
  -- The lines of the odometer's table: below the bound, beyond it, within it and asked to move on,
  -- and within it and kept.
  rw [turnValue] at h
  split at h
  · next hbelow =>
    obtain ⟨place, hplace, h⟩ := bind_eq_ok_iff.1 h
    obtain ⟨values, hvalues, h⟩ := bind_eq_ok_iff.1 h
    cases h
    refine .of_cons nofun fun w ws hws hlt ↦ ?_
    obtain ⟨hfits, hw, hws⟩ := within_cons_iff.1 hws
    exact raisedPlace_spares hplace hc hbelow hends hpass hv hw hfits (hlt.resolve_left nofun)
      (leastValues_spares hvalues hlater hws)
  · split at h
    · next habove =>
      split at h
      · cases h
      · next hshorter =>
        obtain ⟨place, hplace, h⟩ := bind_eq_ok_iff.1 h
        obtain ⟨values, hvalues, h⟩ := bind_eq_ok_iff.1 h
        cases h
        refine .of_cons (fun _ w ws hws ↦ ?_) fun w ws hws _ ↦ ?_
        · obtain ⟨hfits, hw, -⟩ := within_cons_iff.1 hws
          exact not_spell_lt_of_not_above habove hshorter hpass hv hw hfits
        · obtain ⟨hfits, -, hws⟩ := within_cons_iff.1 hws
          exact leastPlace_spares hplace hc hfits (leastValues_spares hvalues hlater hws)
    · split at h
      · next hcarry =>
        cases hf : c.field.domain? with
        | some d => exact moveOn_safe_of_domain hf h hc hcarry hright hpass
        | none =>
          refine moveOn_safe_of_varying hf h hcarry hright (fun hvs ↦ ?_) hpass hv
          rw [hnil hvs] at hcarry
          cases hcarry
      · cases h
        exact safe_of_kept hright (fun hvs ↦ by rw [hnil hvs]) hv

/-! ## All values turn -/

/-- The turn of the last values of a key keeps its promise. The values of the key beyond the columns
are `extra`. -/
theorem turn_safe {more : Bool} {pairs : List (Column × Text)} {extra : List Text} {turned : Turned}
    (h : turn attr more pairs = .ok turned) (hmore : more = true ↔ extra ≠ [])
    (hlaw : ∀ p ∈ pairs, p.1.Sparing (V p.1.field.name))
    (hpass : ∀ p ∈ pairs, p.1.field.Passable (V p.1.field.name) p.2)
    (hplain : ∀ p ∈ pairs, p.2.Plain) :
    turned.Safe V (pairs.map Prod.fst) (pairs.map Prod.snd ++ extra) := by
  -- From the last value on: when a value turns, the ones after it have turned before.
  induction pairs generalizing turned with
  | nil =>
    cases h
    exact ⟨nofun, fun ws _ _ ↦ Spares.nil_left ws⟩
  | cons p rest ih =>
    obtain ⟨c, v⟩ := p
    obtain ⟨hc, hlater⟩ := List.forall_mem_cons.1 hlaw
    obtain ⟨hv, hpass⟩ := List.forall_mem_cons.1 hpass
    obtain ⟨hp, hplain⟩ := List.forall_mem_cons.1 hplain
    obtain ⟨right, hright, h⟩ := bind_eq_ok_iff.1 h
    have hlater' : ∀ c ∈ rest.map Prod.fst, c.Sparing (V c.field.name) := by
      simpa using hlater
    have hends : (rest.isEmpty && !more) = true ↔ rest.map Prod.snd ++ extra = [] := by
      cases more with
      | true =>
        have hne := hmore.1 rfl
        simp [hne]
      | false =>
        have heq : extra = [] := not_not.1 fun hne ↦ Bool.false_ne_true (hmore.2 hne)
        simp [heq]
    refine turnValue_safe h hc hlater' (ih hright hlater hpass hplain) hends (fun hnil ↦ ?_) hv hp
    obtain ⟨hrest, -⟩ := List.append_eq_nil_iff.1 hnil
    rw [List.map_eq_nil_iff.1 hrest] at hright
    exact (Except.ok.inj hright).symm

theorem stuck_of_moveOn {right : Turned} {e : Error}
    (h : moveOn attr c v right.values = .error (.failed e)) : Stuck attr [c] e := by
  have setBack : ∀ {f : Place → Turned},
      (leastPlace attr c >>= fun place ↦ pure (f place)) = .error (.failed e) →
      Stuck attr [c] e := by
    intro f h
    rcases bind_eq_error_iff.1 h with h | ⟨place, -, h⟩
    · exact stuck_of_leastPlace h
    · cases h
  simp only [moveOn] at h
  split at h
  · split at h
    · split at h
      · cases h
      · exact setBack h
    · exact setBack h
    · cases h
  · split at h <;> cases h

theorem stuck_of_raisedPlace {endsKey : Bool} {e : Error}
    (h : raisedPlace attr c v endsKey = .error (.failed e)) : Stuck attr [c] e := by
  rw [raisedPlace] at h
  split at h
  · exact stuck_of_leastPlace h
  · cases h
  · split at h
    · cases h
    · split at h
      · cases h
      · split at h <;> cases h

theorem stuck_of_turnValue {endsKey : Bool} {right : Turned} {e : Error}
    (h : turnValue attr c v endsKey later right = .error (.failed e)) :
    Stuck attr (c :: later) e := by
  -- Both ways to set values back ask the later columns for their least values.
  have least : ∀ {x : Except Halt Place} {f : Place → List Text → Turned},
      (x = .error (.failed e) → Stuck attr [c] e) →
      (x >>= fun place ↦ leastValues attr later >>= fun values ↦ pure (f place values)) =
        .error (.failed e) →
      Stuck attr (c :: later) e := by
    intro x f hx h
    rcases bind_eq_error_iff.1 h with h | ⟨place, -, h⟩
    · exact (hx h).mono (by simp)
    · rcases bind_eq_error_iff.1 h with h | ⟨values, -, h⟩
      · exact (stuck_of_leastValues h).mono (List.subset_cons_self c later)
      · cases h
  rw [turnValue] at h
  split at h
  · exact least stuck_of_raisedPlace h
  · split at h
    · split at h
      · cases h
      · exact least stuck_of_leastPlace h
    · split at h
      · exact (stuck_of_moveOn h).mono (by simp)
      · cases h

theorem stuck_of_turn {more : Bool} {pairs : List (Column × Text)} {e : Error}
    (h : turn attr more pairs = .error (.failed e)) : Stuck attr (pairs.map Prod.fst) e := by
  induction pairs with
  | nil => cases h
  | cons p rest ih =>
    obtain ⟨c, v⟩ := p
    rcases bind_eq_error_iff.1 h with h | ⟨right, -, h⟩
    · exact (ih h).mono (by simp)
    · exact stuck_of_turnValue h

end Leap

namespace Selection

variable {V : Vocabularies} {s : Selection} {k k' target : Key}

/-! ## Leaps of a selection -/

/-- A leap from `k` does not lose `k'`: it does not give up, and to seek its target, and the leading
parts of the target on the way, does not pass over `k'`. -/
structure LeapSpares (s : Selection) (k k' : Key) : Prop where
  /-- The leap does not give up. -/
  ne_exhausted : s.leapAfter k ≠ .ok .exhausted
  /-- Its target is at or before the key, or begins with it. -/
  le_or_leadOf : ∀ target, s.leapAfter k = .ok (.seek target) → target ≤ k' ∨ k'.LeadOf target

theorem LeapSpares.le_or_lead (h : s.LeapSpares k k') (hleap : s.leapAfter k = .ok (.seek target)) :
    target ≤ k' ∨ k'.values <+: target.values ∧ k'.values ≠ target.values := by
  by_cases heq : k'.values = target.values
  · left
    rw [Key.eq_of_values_eq heq]
  · exact (h.le_or_leadOf target hleap).imp_right fun hlead ↦ ⟨hlead, heq⟩

/-- From each value that has a column the odometer can move on. -/
def PassableKey (V : Vocabularies) (s : Selection) (k : Key) : Prop :=
  ∀ p ∈ s.fields.zip k.values, p.1.Passable (V p.1.name) p.2

theorem LawfulColumns.passableKey (h : s.LawfulColumns V) (hk : k.InVocabulary V s.fields)
    (hlast : ∀ p ∈ s.fields.zip k.values, ¬p.1.isFixed → p.2.MovesLast) : s.PassableKey V k := by
  intro p hp
  have hp' := hp
  rw [← map_field_wideColumns, List.zip_map_left] at hp'
  obtain ⟨⟨c, v⟩, hcv, rfl⟩ := List.mem_map.1 hp'
  exact (h c (List.of_mem_zip hcv).1).passable (hk _ hp) (hlast _ hp)

theorem within_of_admits (hadm : s.Admits k) (hk : k.InVocabulary V s.fields) :
    Leap.Within V s.wideColumns k.values := by
  have hmem := forall_mem_wideColumns_zip (P := fun f v ↦ f.isFixed → v ∈ V f.name) hk
  exact ⟨fun p hp ↦ ⟨mem_of_admits hadm p hp, hmem p hp⟩, fun _ ↦ Key.plain_of_mem_values⟩

/-- The turn of the values of a key in the wide columns. -/
def turnOf (s : Selection) (k : Key) : Except Leap.Halt Leap.Turned :=
  Leap.turn s.attr (s.wideColumns.length < k.values.length) (s.wideColumns.zip k.values)

theorem leapAfter_eq (s : Selection) (k : Key) :
    s.leapAfter k = match s.turnOf k with
      | .error .step => .ok .step
      | .error (.failed e) => .error e
      | .ok turned =>
        if turned.carry then .ok .exhausted
        else if k < .ofValues turned.values then .ok (.seek (.ofValues turned.values))
        else .ok .step :=
  rfl

theorem exists_turnOf_of_exhausted (h : s.leapAfter k = .ok .exhausted) :
    ∃ turned, s.turnOf k = .ok turned ∧ turned.carry = true := by
  rw [leapAfter_eq] at h
  split at h
  · cases h
  · cases h
  · next turned hturn =>
    by_cases hcarry : turned.carry = true
    · exact ⟨turned, hturn, hcarry⟩
    · rw [if_neg hcarry] at h
      split at h <;> cases h

theorem exists_turnOf_of_seek (h : s.leapAfter k = .ok (.seek target)) :
    ∃ turned, s.turnOf k = .ok turned ∧ Key.ofValues turned.values = target := by
  rw [leapAfter_eq] at h
  split at h
  · cases h
  · cases h
  · next turned hturn =>
    refine ⟨turned, hturn, ?_⟩
    by_cases hcarry : turned.carry = true
    · rw [if_pos hcarry] at h
      cases h
    · rw [if_neg hcarry] at h
      split at h <;> cases h
      rfl

theorem turnOf_eq_of_error {e : Error} (h : s.leapAfter k = .error e) :
    s.turnOf k = .error (.failed e) := by
  rw [leapAfter_eq] at h
  split at h
  · cases h
  · next hturn =>
    cases h
    exact hturn
  · split at h
    · cases h
    · split at h <;> cases h

theorem safe_of_turnOf (hsparing : s.SparingColumns V) (hk : s.PassableKey V k)
    {turned : Leap.Turned} (h : s.turnOf k = .ok turned) :
    turned.Safe V (s.wideColumns.take k.values.length) k.values := by
  have hmore : decide (s.wideColumns.length < k.values.length) = true ↔
      k.values.drop s.wideColumns.length ≠ [] := by
    rw [decide_eq_true_eq, ← not_iff_not, not_not, not_lt, List.drop_eq_nil_iff]
  have hpass := forall_mem_wideColumns_zip (P := fun f v ↦ f.Passable (V f.name) v) hk
  have hsafe := Leap.turn_safe h hmore (fun p hp ↦ hsparing _ (List.of_mem_zip hp).1) hpass
    fun p hp ↦ Key.plain_of_mem_values (List.of_mem_zip hp).2
  rwa [map_fst_zip_eq_take, map_snd_zip_eq_take, List.take_append_drop] at hsafe

/-- **A leap passes over no key** that is admitted and has values of the vocabularies. -/
theorem leapSpares (hsparing : s.SparingColumns V) (hk : s.PassableKey V k)
    (hadm : s.Admits k') (hk' : k'.InVocabulary V s.fields) (hlt : k < k') :
    s.LeapSpares k k' := by
  have hws := (within_of_admits hadm hk').take k.values.length
  rw [Key.lt_iff_spell] at hlt
  constructor
  · intro hleap
    obtain ⟨turned, hturn, hcarry⟩ := exists_turnOf_of_exhausted hleap
    exact (safe_of_turnOf hsparing hk hturn).not_lt hcarry _ hws hlt
  · intro target hleap
    obtain ⟨turned, hturn, rfl⟩ := exists_turnOf_of_seek hleap
    have hne : turned.values ≠ [] := by
      intro hnil
      have hahead := lt_of_leapAfter hleap
      rw [hnil] at hahead
      exact List.not_lt_nil _ hahead
    rcases (safe_of_turnOf hsparing hk hturn).spares _ hws (.inr hlt) with hle | hlead
    · left
      rw [← k'.ofValues_values]
      exact (Key.ofValues_le_ofValues_iff hne k'.values_ne_nil).2 hle
    · right
      exact Key.prefix_values_ofValues hlead (fun _ ↦ Key.plain_of_mem_values) k'.values_ne_nil

/-- A leap only fails at a column that has no value after its excluded lower bound. -/
theorem stuck_of_leapAfter {e : Error} (h : s.leapAfter k = .error e) :
    Leap.Stuck s.attr s.columns e := by
  have hwide : Leap.Stuck s.attr s.wideColumns e := by
    refine (Leap.stuck_of_turn (turnOf_eq_of_error h)).mono fun c hc ↦ ?_
    rw [map_fst_zip_eq_take] at hc
    exact List.mem_of_mem_take hc
  -- A widened column starts at a value that it lets in, so it is not the one at fault.
  obtain ⟨c, hc, d, lo, cause, hd, hlo, h⟩ := hwide
  rcases mem_wideColumns hc with hc | ⟨first, v, -, -, rfl⟩
  · exact ⟨c, hc, d, lo, cause, hd, hlo, h⟩
  · cases hlo

end Selection

end CompositeScan
