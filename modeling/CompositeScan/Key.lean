import CompositeScan.Interval
import CompositeScan.Text.Utf8

/-!
# Keys

A composite key is the values of its fields joined by the separator, and is ordered as that one
text. A key written before the last fields were added simply has fewer values; a key always has at
least one, so the empty key has the single empty value.

The joined text is what a key is, and its values are read off it. Keys come out of the storage as
text, and any text is a key, so a list of values would have to be shown to be free of separators
before it could be compared with anything. The price is that values have to be free of separators if
they are to be found again in the key that was made of them (`Key.values_ofValues`).
-/

namespace CompositeScan

/-- Field values joined into one text. -/
structure Key where
  /-- The joined text. -/
  text : Text
  deriving DecidableEq

namespace Key

instance : LT Key := ⟨fun a b ↦ a.text < b.text⟩

instance : LE Key := ⟨fun a b ↦ a.text ≤ b.text⟩

instance : DecidableLT Key := fun a b ↦ inferInstanceAs (Decidable (a.text < b.text))

instance : DecidableLE Key := fun a b ↦ inferInstanceAs (Decidable (a.text ≤ b.text))

theorem lt_def {a b : Key} : a < b ↔ a.text < b.text := Iff.rfl

theorem le_def {a b : Key} : a ≤ b ↔ a.text ≤ b.text := Iff.rfl

/-- Joins values into a key. -/
def ofValues (values : List Text) : Key := ⟨[Text.separator].intercalate values⟩

/-- The values of a key. -/
def values (k : Key) : List Text := k.text.splitOn Text.separator

/-- The key of the first `n` values. -/
def take (k : Key) (n : Nat) : Key := ofValues (k.values.take n)

/-- The key of the fewest leading values that sorts after `other`. -/
def leadAfter? (k other : Key) : Option Key :=
  ((List.range' 1 k.values.length).map k.take).find? (other < ·)

/-- The stored form of a key. -/
def bytes (k : Key) : Bytes := k.text.encode

/-- The key whose stored form is `bytes`. -/
def ofBytes? (bytes : Bytes) : Option Key := (Text.decode? bytes).map Key.mk

/-- The values of a key with a bar between them, for messages. -/
def display (k : Key) : String := String.ofList (['|'].intercalate k.values)

theorem values_ne_nil (k : Key) : k.values ≠ [] := List.splitOn_ne_nil _ _

theorem ofValues_values (k : Key) : ofValues k.values = k := by
  cases k
  simp [ofValues, values, List.intercalate_splitOn]

/-- The values that were joined are found again, unless one holds the separator. -/
theorem values_ofValues {values : List Text} (hne : values ≠ []) (h : ∀ v ∈ values, v.Plain) :
    (ofValues values).values = values :=
  List.splitOn_intercalate _ h hne

theorem bytes_eq_of_ofBytes? {bytes : Bytes} {k : Key} (h : ofBytes? bytes = some k) :
    k.bytes = bytes := by
  obtain ⟨t, ht, rfl⟩ := Option.map_eq_some_iff.1 h
  exact (Text.eq_encode_of_decode? ht).symm

theorem ofBytes?_bytes (k : Key) : ofBytes? k.bytes = some k := by
  rw [ofBytes?, bytes, Text.decode?_encode, Option.map_some]

/-- Keys are stored in their own order. -/
theorem bytes_lt_bytes {a b : Key} (h : a < b) : a.bytes < b.bytes := Text.encode_lt_encode h

theorem lt_of_leadAfter? {k other p : Key} (h : k.leadAfter? other = some p) : other < p := by
  simpa using List.find?_some h

end Key

/-- A contiguous range of keys. -/
abbrev KeyRange := Interval Key

end CompositeScan
