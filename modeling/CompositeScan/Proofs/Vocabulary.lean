import CompositeScan.Proofs.Text.Successor
import CompositeScan.Selection.Basic
import Mathlib.Order.Bounds.Basic

/-!
# Vocabularies

Of a fixed-length field the library only knows how to step its values. Which values those are is
settled by whoever chose the field, and the guarantees of a scan hold as long as the two agree: the
values make up a *vocabulary* of texts of one length, and stepping a value gives its neighbour in
the vocabulary. The vocabularies of the fields of an attribute are a function of the field's name,
since names are distinct.

A variable-length field has no vocabulary. Its values are arbitrary, but for one thing: a value that
ends in the greatest character can not be moved past without passing over other values.

## What is asked of a step

Three demands, each for a purpose of its own. That the least value above is found
(`Vocabulary.IsNext`) makes a leap land where it should. That no value above is left out
(`Vocabulary.SparesAbove`) is enough for a leap to lose nothing, and can be said of a text that is
no value: such a step may lead too low, never too high. `Field.Passable` asks the latter of one
value of a stored key, in a field of either kind.

## Lawful columns

`Column.Lawful` is what proofs about leaps ask for, and `LawfulBounds` and `LawfulStarts` are what
may be asked of whoever gives fields and bounds. The second of these is apart because it speaks of
one text, the one after which a bound starts, and of this only if it holds a separator.
-/

namespace CompositeScan

/-- The values of a fixed-length field: texts of one length, free of separators. -/
structure Vocabulary where
  /-- The length of every value. -/
  width : ℕ
  /-- The values. -/
  values : Set Text
  /-- Every value has the length. -/
  length_eq : ∀ {v}, v ∈ values → v.length = width
  /-- No value holds a separator. -/
  plain : ∀ {v}, v ∈ values → v.Plain

/-- The vocabulary of each fixed-length field, by the name of the field. -/
abbrev Vocabularies := String → Vocabulary

namespace Vocabulary

instance : Membership Text Vocabulary := ⟨fun V v ↦ v ∈ V.values⟩

variable (V : Vocabulary)

/-- An answer to the question which value stands next above `v`. -/
def IsNext (v : Text) : Except StepError Text → Prop
  | .ok next => IsLeast {u | u ∈ V ∧ v < u} next
  | .error (.exhausted _) => ∀ u ∈ V, ¬v < u
  | .error (.outsideDomain _ _) => v ∉ V

/-- An answer to the question which value stands next below `v`. -/
def IsPrevious (v : Text) : Except StepError Text → Prop
  | .ok previous => IsGreatest {u | u ∈ V ∧ u < v} previous
  | .error (.exhausted _) => ∀ u ∈ V, ¬u < v
  | .error (.outsideDomain _ _) => v ∉ V

variable {V} {v next w : Text}

theorem length_eq_of_mem (h : v ∈ V) (h' : w ∈ V) : v.length = w.length :=
  (V.length_eq h).trans (V.length_eq h').symm

theorem IsNext.lt (h : V.IsNext v (.ok next)) : v < next := h.1.2

theorem IsNext.mem (h : V.IsNext v (.ok next)) : next ∈ V := h.1.1

theorem IsNext.le (h : V.IsNext v (.ok next)) (hw : w ∈ V) (hlt : v < w) : next ≤ w :=
  h.2 ⟨hw, hlt⟩

/-- An answer to the question where to go on above `v` that leaves out no value above it. It need
not be a value itself. -/
def SparesAbove (v : Text) : Except StepError Text → Prop
  | .ok next => next.length = V.width ∧ ∀ u ∈ V, v < u → next ≤ u
  | .error (.exhausted _) => ∀ u ∈ V, ¬v < u
  | .error (.outsideDomain _ _) => True

theorem IsNext.sparesAbove {answer : Except StepError Text} (h : V.IsNext v answer) :
    V.SparesAbove v answer := by
  rcases answer with (_ | _) | next
  · exact h
  · trivial
  · exact ⟨V.length_eq h.mem, fun u hu hlt ↦ h.le hu hlt⟩

theorem IsPrevious.lt (h : V.IsPrevious v (.ok next)) : next < v := h.1.2

theorem IsPrevious.mem (h : V.IsPrevious v (.ok next)) : next ∈ V := h.1.1

theorem IsPrevious.le (h : V.IsPrevious v (.ok next)) (hw : w ∈ V) (hlt : w < v) : w ≤ next :=
  h.2 ⟨hw, hlt⟩

end Vocabulary

/-- The texts a key may have as values of a field. -/
def Field.Takes (f : Field) (V : Vocabulary) (v : Text) : Prop :=
  match f.domain? with
  | some _ => v ∈ V
  | none => v.getLast? ≠ some Text.maxDatum

theorem Field.takes_iff_of_domain {f : Field} {d : Domain} (hf : f.domain? = some d)
    {V : Vocabulary} {v : Text} : f.Takes V v ↔ v ∈ V := by
  simp only [Takes, hf]

theorem Field.takes_iff_of_varying {f : Field} (hf : f.domain? = none) {V : Vocabulary}
    {v : Text} : f.Takes V v ↔ v.getLast? ≠ some Text.maxDatum := by
  simp only [Takes, hf]

theorem Field.isFixed_of_domain {f : Field} {d : Domain} (hf : f.domain? = some d) : f.isFixed := by
  rw [isFixed, hf]
  rfl

theorem Field.not_isFixed_of_varying {f : Field} (hf : f.domain? = none) : ¬f.isFixed := by
  rw [isFixed, hf]
  exact Bool.false_ne_true

theorem Field.Takes.mem {f : Field} {V : Vocabulary} {v : Text} (h : f.Takes V v)
    (hfixed : f.isFixed) : v ∈ V := by
  obtain ⟨d, hd⟩ := Option.isSome_iff_exists.1 hfixed
  exact (takes_iff_of_domain hd).1 h

instance (f : Field) (V : Vocabulary) [DecidablePred (· ∈ V)] (v : Text) :
    Decidable (f.Takes V v) :=
  match hf : f.domain? with
  | some _ => decidable_of_iff _ (Field.takes_iff_of_domain hf).symm
  | none => decidable_of_iff _ (Field.takes_iff_of_varying hf).symm

/-- A fixed-length field steps the values of the vocabulary to their neighbours. -/
def Field.Steps (V : Vocabulary) (f : Field) : Prop :=
  ∀ d, f.domain? = some d → ∀ v ∈ V,
    V.IsNext v (d.successor v) ∧ V.IsPrevious v (d.predecessor v)

/-- Every value of the key that has a field is one the field takes. -/
def Key.Conforms (V : Vocabularies) (fields : List Field) (k : Key) : Prop :=
  ∀ p ∈ fields.zip k.values, p.1.Takes (V p.1.name) p.2

instance (V : Vocabularies) [∀ name, DecidablePred (· ∈ V name)] (fields : List Field) (k : Key) :
    Decidable (k.Conforms V fields) :=
  inferInstanceAs (Decidable (∀ p ∈ _, _))

/-- Every value of the key that has a fixed-length field is in its vocabulary. -/
def Key.InVocabulary (V : Vocabularies) (fields : List Field) (k : Key) : Prop :=
  ∀ p ∈ fields.zip k.values, p.1.isFixed → p.2 ∈ V p.1.name

instance (V : Vocabularies) [∀ name, DecidablePred (· ∈ V name)] (fields : List Field) (k : Key) :
    Decidable (k.InVocabulary V fields) :=
  inferInstanceAs (Decidable (∀ p ∈ _, _ → _))

theorem Key.Conforms.inVocabulary {V : Vocabularies} {fields : List Field} {k : Key}
    (h : k.Conforms V fields) : k.InVocabulary V fields := fun p hp ↦ (h p hp).mem

/-- No variable-length value of a key that conforms ends in the greatest character. -/
theorem Key.Conforms.movesLast {V : Vocabularies} {fields : List Field} {k : Key}
    (h : k.Conforms V fields) : ∀ p ∈ fields.zip k.values, ¬p.1.isFixed → p.2.MovesLast := by
  intro p hp hvarying
  have hf : p.1.domain? = none := by simpa [Field.isFixed] using hvarying
  exact .of_getLast?_ne ((Field.takes_iff_of_varying hf).1 (h p hp))

/-- Moving on from the value leaves out no value of the vocabulary, in a field of fixed length, and
no text that it should not, in one of variable length. -/
def Field.Passable (V : Vocabulary) (f : Field) (v : Text) : Prop :=
  match f.domain? with
  | some d => v.length = V.width ∧ V.SparesAbove v (d.successor v)
  | none => v.MovesLast

theorem Field.passable_iff_of_domain {f : Field} {d : Domain} (hf : f.domain? = some d)
    {V : Vocabulary} {v : Text} :
    f.Passable V v ↔ v.length = V.width ∧ V.SparesAbove v (d.successor v) := by
  simp only [Passable, hf]

theorem Field.passable_iff_of_varying {f : Field} (hf : f.domain? = none) {V : Vocabulary}
    {v : Text} : f.Passable V v ↔ v.MovesLast := by
  simp only [Passable, hf]

/-- A column whose field, if it is of fixed length, has a lower bound that is comparable with the
values of the vocabulary and, if it is left out, can be moved past without leaving out any. -/
structure Column.Sparing (V : Vocabulary) (c : Column) : Prop where
  /-- The lower bound has the length of the values. -/
  length_lower : ∀ d, c.field.domain? = some d → ∀ lo, c.bound.lower.value? = some lo →
    lo.length = V.width
  /-- A lower bound that is left out is moved past. -/
  sparesAbove_lower : ∀ d, c.field.domain? = some d → ∀ lo, c.bound.lower = .excluded lo →
    V.SparesAbove lo (d.successor lo)

/-- A column whose field, if it is of fixed length, steps its values in the vocabulary, and whose
lower bound is comparable with them. -/
structure Column.Lawful (V : Vocabulary) (c : Column) : Prop where
  /-- The lower bound has the length of the values. -/
  length_lower : ∀ d, c.field.domain? = some d → ∀ lo, c.bound.lower.value? = some lo →
    lo.length = V.width
  /-- Values are stepped in the vocabulary. -/
  isNext : ∀ d, c.field.domain? = some d → ∀ v ∈ V, V.IsNext v (d.successor v)
  /-- So is a lower bound that is left out. -/
  isNext_lower : ∀ d, c.field.domain? = some d → ∀ lo, c.bound.lower = .excluded lo →
    V.IsNext lo (d.successor lo)

theorem Column.Lawful.sparing {V : Vocabulary} {c : Column} (h : c.Lawful V) : c.Sparing V :=
  ⟨h.length_lower, fun d hd lo hlo ↦ (h.isNext_lower d hd lo hlo).sparesAbove⟩

/-- From a value of the vocabulary, and from a variable-length one at whose last character alone the
next text differs, a lawful column can be moved on. -/
theorem Column.Lawful.passable {V : Vocabulary} {c : Column} {v : Text} (h : c.Lawful V)
    (hmem : c.field.isFixed → v ∈ V) (hlast : ¬c.field.isFixed → v.MovesLast) :
    c.field.Passable V v := by
  cases hd : c.field.domain? with
  | some d =>
    have hv := hmem (Field.isFixed_of_domain hd)
    rw [Field.passable_iff_of_domain hd]
    exact ⟨V.length_eq hv, (h.isNext d hd v hv).sparesAbove⟩
  | none =>
    rw [Field.passable_iff_of_varying hd]
    exact hlast (Field.not_isFixed_of_varying hd)

/-- The fixed-length fields agree with their vocabularies: the values of their bounds have the
length of the vocabulary, and every text of that length that holds no separator is stepped to the
least value above it. -/
def LawfulBounds (V : Vocabularies) (fields : List Field) (bounds : List (Interval Text)) : Prop :=
  ∀ p ∈ fields.zip bounds, ∀ d, p.1.domain? = some d →
    (∀ v, p.2.lower.value? = some v ∨ p.2.upper.value? = some v →
      v.length = (V p.1.name).width) ∧
    ∀ v : Text, v.length = (V p.1.name).width → v.Plain → (V p.1.name).IsNext v (d.successor v)

/-- A text after which the bound of a fixed-length field starts holds no separator, or is stepped to
the least value above it all the same. -/
def LawfulStarts (V : Vocabularies) (fields : List Field) (bounds : List (Interval Text)) : Prop :=
  ∀ p ∈ fields.zip bounds, ∀ d, p.1.domain? = some d → ∀ lo, p.2.lower = .excluded lo →
    lo.Plain ∨ (V p.1.name).IsNext lo (d.successor lo)

end CompositeScan
