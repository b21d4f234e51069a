import CompositeScan.Domain.Characters
import CompositeScan.Domain.Hex

/-!
# Fields

The component fields of a composite attribute. A value of a variable-length field can only be
compared with bounds; a value of a fixed-length field can also be stepped in the field's domain,
which is the texts of its length unless the field brings a domain of its own.

Whether values have one length and whether the field brings step functions are one choice among
three here, since no field of variable length brings any.
-/

namespace CompositeScan

/-- Whether and how the values of a field can be stepped. -/
inductive FieldKind where
  /-- Values of any length, never stepped. -/
  | varying
  /-- Values of one length, stepped by character. -/
  | fixed
  /-- Values of one length, stepped in `domain`. -/
  | fixedIn (domain : Domain)

/-- A component field of a composite attribute. -/
structure Field where
  /-- The name constraints refer to. -/
  name : String
  /-- Whether and how its values can be stepped. -/
  kind : FieldKind

namespace Field

/-- A variable-length field. -/
def varying (name : String) : Field := ⟨name, .varying⟩

/-- A fixed-length field stepped by character. -/
def fixed (name : String) : Field := ⟨name, .fixed⟩

/-- A fixed-length field with a domain of its own. -/
def fixedIn (name : String) (domain : Domain) : Field := ⟨name, .fixedIn domain⟩

/-- A zero-padded lowercase hexadecimal counter. -/
def hex (name : String) : Field := fixedIn name .hex

/-- The domain in which a fixed-length value is stepped; none for a variable-length field. -/
def domain? (f : Field) : Option Domain :=
  match f.kind with
  | .varying => none
  | .fixed => some .characters
  | .fixedIn domain => some domain

/-- The values of the field have one length and can be stepped. -/
def isFixed (f : Field) : Bool := f.domain?.isSome

/-- The field steps its values in a domain that it brings itself. -/
def hasOwnDomain (f : Field) : Bool :=
  match f.kind with
  | .fixedIn _ => true
  | _ => false

/-- A one-line account of the field. -/
def describe (f : Field) : String :=
  "FieldSpec \x7b name: " ++ Text.quotedName f.name ++ ", fixed_length: " ++ toString f.isFixed ++
    ", custom_domain: " ++ toString f.hasOwnDomain ++ " \x7d"

end Field

end CompositeScan
