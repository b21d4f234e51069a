import CompositeScan.Error
import CompositeScan.Selection.Effective

/-!
# Selections

A selection says which keys of a composite attribute are wanted: the fields of the attribute and a
bound for each. Fields and bounds are checked once, and a `Selection` carries the proof that
`Selection.defect?` found nothing wrong with them. What a scan uses — the columns with their
effective bounds, the contiguous range of keys, the test on a key — are functions of the fields and
the bounds, so they can not disagree.

An attribute may hold keys that were written with one value only, before it became composite. A
selection with a `legacy` value admits such keys from that value on, and starts its range there.
-/

namespace CompositeScan

namespace Selection

/-- The first name that occurs for a second time, when `seen` came before. -/
def repeatedName? (seen : List String) : List String → Option String
  | [] => none
  | name :: names => if name ∈ seen then some name else repeatedName? (name :: seen) names

/-- Fields with the effective bounds of given ones. -/
def columnsOf (fields : List Field) (bounds : List (Interval Text)) : List Column :=
  List.zipWith Column.mk fields (Interval.effective bounds)

/-- The first defect of fields and bounds that are to select keys. -/
def defect? (fields : List Field) (bounds : List (Interval Text)) : Option Defect :=
  if fields = [] then some .noFields
  else if fields.length ≠ bounds.length then some (.countMismatch fields.length bounds.length)
  else match repeatedName? [] (fields.map Field.name) with
  | some name => some (.duplicateField name)
  | none =>
    match (columnsOf fields bounds).find? fun c ↦ c.bound.Crossed with
    | some c => some (.emptyField c.field.name c.bound)
    | none =>
      let range := Column.range (columnsOf fields bounds)
      match range.lower.value?, range.upper.value? with
      | some lower, some upper =>
        if upper < lower then some (.crossedRange lower upper) else none
      | _, _ => none

end Selection

/-- The fields of a composite attribute with a bound for each. -/
structure Selection where
  /-- The name of the composite attribute. -/
  attr : String
  /-- The component fields, most significant first. -/
  fields : List Field
  /-- The bound of each field, as given. -/
  bounds : List (Interval Text)
  /-- The value from which on keys of one value are admitted. -/
  legacy : Option Text
  /-- The fields and the bounds have no defect. -/
  sound : Selection.defect? fields bounds = none

namespace Selection

/-- The selection by one bound for each field. -/
def ofBounds (attr : String) (fields : List Field) (bounds : List (Interval Text)) :
    Except Error Selection :=
  match h : defect? fields bounds with
  | none => .ok ⟨attr, fields, bounds, none, h⟩
  | some defect => .error (.invalidSelection attr defect)

variable (selection : Selection)

/-- The fields with their effective bounds. -/
def columns : List Column := columnsOf selection.fields selection.bounds

/-- Lets the first column start at the legacy value, if it would leave that value out. -/
def widenFirst (legacy : Option Text) : List Column → List Column
  | [] => []
  | c :: columns =>
    match legacy with
    | some v => if c.bound.lower.Below v then c :: columns
      else { c with bound := c.bound.dropBefore v } :: columns
    | none => c :: columns

/-- The columns wide enough for keys of any number of values. -/
def wideColumns : List Column := widenFirst selection.legacy selection.columns

/-- The columns against which the values of a key of `count` values are checked. -/
def columnsFor (count : Nat) : List Column :=
  if count = 1 then selection.wideColumns else selection.columns

/-- The contiguous range of keys in which a scan takes place. -/
def range : KeyRange :=
  match selection.legacy with
  | some v => (Column.range selection.columns).dropBefore (.ofValues [v])
  | none => Column.range selection.columns

/-- Every value of the key that has a column is within its bound. A key may have fewer values than
there are columns, or more. -/
def Admits (key : Key) : Prop :=
  ∀ p ∈ key.values.zip (selection.columnsFor key.values.length), p.1 ∈ p.2.bound

instance (key : Key) : Decidable (selection.Admits key) :=
  inferInstanceAs (Decidable (∀ p ∈ _, _))

end Selection

end CompositeScan
