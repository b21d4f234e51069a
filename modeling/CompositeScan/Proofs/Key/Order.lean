import CompositeScan.Proofs.Text.Order
import Mathlib.Data.Nat.Basic

/-!
# The order of keys

A key is ordered as the text of its joined values, so what decides between two keys is the first
place where their values differ, seen together with what follows there. Both are said here about
`Key.spell`, the values of a key with the separator before each: it takes apart value by value,
which the joined text does not, and it compares as the keys do (`ofValues_lt_ofValues_iff`).

`spell_cons_lt_cons_iff` is the comparison of two keys at their first values. A value that ends its
key sorts before its extensions, and a value with more values behind it sorts after them, because
the separator is greater than every character of a value.

## Values of one length

Where the values that meet are as long as each other, no value is a proper prefix of the other, the
separators stand at the same places, and keys are ordered as the lists of their values
(`spell_lt_spell_iff`). Bounds of fixed-length fields are compared with keys in this way. For a
field of variable length there is no such rule, and every comparison has to say what follows the
value.
-/

namespace CompositeScan

theorem not_mem_of_mem_splitOn {α : Type} [BEq α] [LawfulBEq α] {a : α} {l v : List α}
    (h : v ∈ l.splitOn a) : a ∉ v := by
  induction l generalizing v with
  | nil => simp_all
  | cons b l ih =>
    rw [List.splitOn_cons_eq_if_modifyHead] at h
    split at h
    · rcases List.mem_cons.1 h with rfl | h
      · simp
      · exact ih h
    · next hb =>
      cases hl : l.splitOn a with
      | nil => exact absurd hl (List.splitOn_ne_nil a l)
      | cons u us =>
        rw [hl, List.modifyHead_cons] at h
        rw [hl] at ih
        rcases List.mem_cons.1 h with rfl | h
        · rw [List.mem_cons, not_or]
          exact ⟨fun hab ↦ hb (by simp [hab]), ih List.mem_cons_self⟩
        · exact ih (List.mem_cons_of_mem u h)

namespace Key

open Text

variable {v w : Text} {vs ws : List Text}

/-- Values, each with the separator before it. -/
def spell (values : List Text) : Text := values.flatMap (separator :: ·)

@[simp] theorem spell_nil : spell [] = [] := rfl

@[simp] theorem spell_cons (v : Text) (vs : List Text) :
    spell (v :: vs) = separator :: (v ++ spell vs) := rfl

@[simp] theorem spell_append (vs ws : List Text) : spell (vs ++ ws) = spell vs ++ spell ws :=
  List.flatMap_append

theorem text_ofValues_cons (v : Text) (vs : List Text) :
    (ofValues (v :: vs)).text = v ++ spell vs := by
  induction vs generalizing v with
  | nil => simp [ofValues]
  | cons w vs ih =>
    have h := ih w
    simp only [ofValues] at h ⊢
    rw [List.intercalate_cons_cons, h, spell_cons, List.append_assoc, List.singleton_append]

/-- Keys compare as their spelled values do. -/
theorem ofValues_lt_ofValues_iff (hv : vs ≠ []) (hw : ws ≠ []) :
    ofValues vs < ofValues ws ↔ spell vs < spell ws := by
  obtain ⟨v, vs, rfl⟩ := List.exists_cons_of_ne_nil hv
  obtain ⟨w, ws, rfl⟩ := List.exists_cons_of_ne_nil hw
  rw [lt_def, text_ofValues_cons, text_ofValues_cons, spell_cons, spell_cons, cons_lt_cons_iff]

theorem ofValues_le_ofValues_iff (hv : vs ≠ []) (hw : ws ≠ []) :
    ofValues vs ≤ ofValues ws ↔ spell vs ≤ spell ws := by
  rw [← not_lt, ofValues_lt_ofValues_iff hw hv, not_lt]

theorem lt_iff_spell {a b : Key} : a < b ↔ spell a.values < spell b.values := by
  rw [← ofValues_lt_ofValues_iff a.values_ne_nil b.values_ne_nil, ofValues_values, ofValues_values]

theorem eq_of_values_eq {a b : Key} (h : a.values = b.values) : a = b := by
  rw [← a.ofValues_values, h, b.ofValues_values]

theorem plain_of_mem_values {k : Key} (h : v ∈ k.values) : v.Plain :=
  not_mem_of_mem_splitOn h

/-! ## Comparing the first values -/

theorem spell_cons_lt_cons_self_iff : spell (v :: vs) < spell (v :: ws) ↔ spell vs < spell ws := by
  rw [spell_cons, spell_cons, cons_lt_cons_iff, append_lt_append_left_iff]

theorem spell_cons_le_cons_self_iff : spell (v :: vs) ≤ spell (v :: ws) ↔ spell vs ≤ spell ws := by
  rw [← not_lt, spell_cons_lt_cons_self_iff, not_lt]

theorem spell_cons_lt_cons_of_forksBelow (h : v.ForksBelow w) (vs ws : List Text) :
    spell (v :: vs) < spell (w :: ws) := by
  rw [spell_cons, spell_cons, cons_lt_cons_iff]
  exact h.append_lt_append _ _

theorem spell_cons_lt_cons_of_lt (h : v < w) (hlen : v.length = w.length) (vs ws : List Text) :
    spell (v :: vs) < spell (w :: ws) :=
  spell_cons_lt_cons_of_forksBelow (forksBelow_of_lt_of_length_le h hlen.ge) vs ws

/-- With more values behind it, a value sorts after its extensions. -/
theorem spell_cons_lt_cons_of_isPrefix (hw : v.Plain) (hpre : w <+: v) (hne : w ≠ v)
    (hws : ws ≠ []) (vs : List Text) : spell (v :: vs) < spell (w :: ws) := by
  obtain ⟨c, x, rfl⟩ := exists_eq_append_cons hpre hne
  obtain ⟨u, ws, rfl⟩ := List.exists_cons_of_ne_nil hws
  rw [spell_cons, spell_cons, cons_lt_cons_iff, List.append_assoc, append_lt_append_left_iff]
  exact List.Lex.rel (hw.lt_separator (by simp))

theorem spell_singleton_lt_cons (h : v < w) (ws : List Text) : spell [v] < spell (w :: ws) := by
  rw [spell_cons, spell_cons, cons_lt_cons_iff, spell_nil, List.append_nil]
  exact h.trans_le (le_append _ _)

theorem spell_singleton_le_cons (h : v ≤ w) (ws : List Text) : spell [v] ≤ spell (w :: ws) := by
  rw [spell_cons, spell_cons, cons_le_cons_iff, spell_nil, List.append_nil]
  exact h.trans (le_append _ _)

theorem ofValues_singleton_le_cons (h : v ≤ w) (ws : List Text) :
    ofValues [v] ≤ ofValues (w :: ws) :=
  (ofValues_le_ofValues_iff (List.cons_ne_nil v []) (List.cons_ne_nil w ws)).2
    (spell_singleton_le_cons h ws)

/-- At the end of its key, a value sorts before its extensions. -/
theorem spell_singleton_lt_cons_of_isPrefix (hpre : v <+: w) (hne : v ≠ w) (ws : List Text) :
    spell [v] < spell (w :: ws) :=
  spell_singleton_lt_cons (lt_of_isPrefix_of_ne hpre hne) ws

theorem spell_cons_lt_cons_iff (hv : v.Plain) (hw : w.Plain) :
    spell (v :: vs) < spell (w :: ws) ↔
      v = w ∧ spell vs < spell ws ∨ v.ForksBelow w ∨ (v <+: w ∧ v ≠ w ∧ vs = []) ∨
        (w <+: v ∧ w ≠ v ∧ ws ≠ []) := by
  constructor
  · intro h
    rcases lt_trichotomy v w with hlt | rfl | hgt
    · rcases forksBelow_or_prefix_of_lt hlt with hfork | ⟨hpre, hne⟩
      · exact .inr (.inl hfork)
      · refine .inr (.inr (.inl ⟨hpre, hne, ?_⟩))
        by_contra hvs
        exact lt_asymm h (spell_cons_lt_cons_of_isPrefix hw hpre hne hvs ws)
    · exact .inl ⟨rfl, spell_cons_lt_cons_self_iff.1 h⟩
    · rcases forksBelow_or_prefix_of_lt hgt with hfork | ⟨hpre, hne⟩
      · exact absurd h (lt_asymm (spell_cons_lt_cons_of_forksBelow hfork ws vs))
      · refine .inr (.inr (.inr ⟨hpre, hne, ?_⟩))
        rintro rfl
        exact lt_asymm h (spell_singleton_lt_cons_of_isPrefix hpre hne vs)
  · rintro (⟨rfl, h⟩ | hfork | ⟨hpre, hne, rfl⟩ | ⟨hpre, hne, hws⟩)
    · exact spell_cons_lt_cons_self_iff.2 h
    · exact spell_cons_lt_cons_of_forksBelow hfork vs ws
    · exact spell_singleton_lt_cons_of_isPrefix hpre hne ws
    · exact spell_cons_lt_cons_of_isPrefix hv hpre hne hws vs

theorem spell_cons_lt_cons_iff_of_length_eq (hlen : v.length = w.length) :
    spell (v :: vs) < spell (w :: ws) ↔ v < w ∨ v = w ∧ spell vs < spell ws := by
  constructor
  · intro h
    rcases lt_trichotomy v w with hlt | rfl | hgt
    · exact .inl hlt
    · exact .inr ⟨rfl, spell_cons_lt_cons_self_iff.1 h⟩
    · exact absurd h (lt_asymm (spell_cons_lt_cons_of_lt hgt hlen.symm ws vs))
  · rintro (h | ⟨rfl, h⟩)
    · exact spell_cons_lt_cons_of_lt h hlen vs ws
    · exact spell_cons_lt_cons_self_iff.2 h

/-! Lists of values have the lexicographic order, too, which is named here for the same reason as
that of texts. -/

instance (priority := 2000) : LT (List Text) := List.instLT

instance (priority := 2000) : LE (List Text) := List.instLE

theorem nil_lt_spell (h : vs ≠ []) : [] < spell vs := by
  obtain ⟨v, vs, rfl⟩ := List.exists_cons_of_ne_nil h
  exact List.nil_lt_cons _ _

/-- Where values meet values of their own length, keys are ordered as the lists of their values. -/
theorem spell_lt_spell_iff (h : ∀ p ∈ vs.zip ws, p.1.length = p.2.length) :
    spell vs < spell ws ↔ vs < ws := by
  induction vs generalizing ws with
  | nil =>
    rcases eq_or_ne ws [] with rfl | hne
    · exact iff_of_false (List.lt_irrefl _) (List.lt_irrefl _)
    · obtain ⟨w, ws, rfl⟩ := List.exists_cons_of_ne_nil hne
      exact iff_of_true (nil_lt_spell hne) (List.nil_lt_cons _ _)
  | cons v vs ih =>
    cases ws with
    | nil => exact iff_of_false (List.not_lt_nil _) (List.not_lt_nil _)
    | cons w ws =>
      obtain ⟨hlen, h⟩ := List.forall_mem_cons.1 h
      rw [spell_cons_lt_cons_iff_of_length_eq hlen, List.cons_lt_cons_iff, ih h]

end Key

end CompositeScan
