import CompositeScan.Domain.Hex
import CompositeScan.Proofs.Domain.Counter
import CompositeScan.Proofs.Text.Order

/-!
# Hexadecimal numerals in order

A hexadecimal value is a text of the characters `0` to `9` and `a` to `f` (`Hex.Numeral`). These are
the texts that are written from digits, and they compare as their digits do, since the letters stand
after the numbers among the characters, too (`Hex.write_lt_write_iff`). So stepping the digits as a
counter leads from a numeral to the next one of the same length.

## Characters and bytes

A value may as well be read from its bytes. A digit is one byte, and a character of more than one
byte has none among them that writes a digit, so whoever looks at bytes rejects what whoever looks
at characters rejects (`Hex.digits?_eq_encode`). In an encoding where part of a character could look
like a digit this would fail.
-/

namespace CompositeScan.Hex

variable {t w next : Text} {c : Char} {d : Fin 16} {ds es : List (Fin 16)}

/-- The character writes a digit. -/
def IsDigit (c : Char) : Prop := '0' ≤ c ∧ c ≤ '9' ∨ 'a' ≤ c ∧ c ≤ 'f'

instance : DecidablePred IsDigit := fun _ ↦ inferInstanceAs (Decidable (_ ∨ _))

/-- Every character of the text writes a digit. -/
def Numeral (t : Text) : Prop := ∀ c ∈ t, IsDigit c

instance : DecidablePred Numeral := fun t ↦ inferInstanceAs (Decidable (∀ c ∈ t, _))

/-! ## Writing digits -/

theorem digit?_digitChar (d : Fin 16) : digit? (Nat.digitChar d) = some d := by
  revert d
  decide

theorem digitChar_lt_digitChar_iff {e : Fin 16} : Nat.digitChar d < Nat.digitChar e ↔ d < e := by
  revert d e
  decide

theorem isDigit_digitChar (d : Fin 16) : IsDigit (Nat.digitChar d) := by
  revert d
  decide

theorem digitChar_of_digit? (h : digit? c = some d) : Nat.digitChar d = c := by
  have numbers : ∀ n : Fin 10, Nat.digitChar (Fin.ofNat 16 n) = Char.ofNat (n + 48) := by decide
  have letters : ∀ n : Fin 6, Nat.digitChar (Fin.ofNat 16 (n + 10)) = Char.ofNat (n + 97) := by
    decide
  rw [digit?] at h
  split at h
  · next hc =>
    cases h
    have hlow : 48 ≤ c.toNat := hc.1
    have hhigh : c.toNat ≤ 57 := hc.2
    have hn := numbers ⟨c.toNat - 48, by omega⟩
    rwa [Nat.sub_add_cancel hlow, Char.ofNat_toNat] at hn
  · split at h
    · next hc =>
      cases h
      have hlow : 97 ≤ c.toNat := hc.1
      have hhigh : c.toNat ≤ 102 := hc.2
      have hn := letters ⟨c.toNat - 97, by omega⟩
      rwa [Nat.sub_add_cancel hlow, Char.ofNat_toNat] at hn
    · cases h

theorem isSome_digit?_iff : (digit? c).isSome ↔ IsDigit c := by
  rw [digit?]
  split
  · next hc => exact iff_of_true rfl (.inl hc)
  · next hc =>
    split
    · next hc' => exact iff_of_true rfl (.inr hc')
    · next hc' => exact iff_of_false Bool.false_ne_true fun h ↦ h.elim hc hc'

theorem write_cons (d : Fin 16) (ds : List (Fin 16)) :
    write (d :: ds) = Nat.digitChar d :: write ds := rfl

@[simp] theorem length_write (ds : List (Fin 16)) : (write ds).length = ds.length :=
  List.length_map _

theorem numeral_write (ds : List (Fin 16)) : Numeral (write ds) :=
  List.forall_mem_map.2 fun d _ ↦ isDigit_digitChar d

theorem mapM_digit?_eq_some_iff : t.mapM digit? = some ds ↔ t = write ds := by
  induction t generalizing ds with
  | nil =>
    cases ds with
    | nil => exact iff_of_true rfl rfl
    | cons d ds => exact iff_of_false nofun nofun
  | cons c t ih =>
    rw [List.mapM_cons, Option.bind_eq_bind, Option.bind_eq_some_iff]
    constructor
    · rintro ⟨d, hd, h⟩
      obtain ⟨ds', hds, h⟩ := Option.bind_eq_some_iff.1 h
      cases h
      rw [write_cons, digitChar_of_digit? hd, ← ih.1 hds]
    · intro h
      cases ds with
      | nil => cases h
      | cons d ds =>
        rw [write_cons, List.cons.injEq] at h
        obtain ⟨rfl, ht⟩ := h
        exact ⟨d, digit?_digitChar d, Option.bind_eq_some_iff.2 ⟨ds, ih.2 ht, rfl⟩⟩

theorem digits?_eq_some_iff : digits? t = some ds ↔ t ≠ [] ∧ t = write ds := by
  rw [digits?]
  split
  · next hnil => simp [hnil]
  · next hne => rw [mapM_digit?_eq_some_iff, and_iff_right hne]

theorem exists_eq_write_iff : (∃ ds, t = write ds) ↔ Numeral t := by
  constructor
  · rintro ⟨ds, rfl⟩
    exact numeral_write ds
  · intro h
    induction t with
    | nil => exact ⟨[], rfl⟩
    | cons c t ih =>
      obtain ⟨hc, ht⟩ := List.forall_mem_cons.1 h
      obtain ⟨d, hd⟩ := Option.isSome_iff_exists.1 (isSome_digit?_iff.2 hc)
      obtain ⟨ds, rfl⟩ := ih ht
      exact ⟨d :: ds, by rw [write_cons, digitChar_of_digit? hd]⟩

/-! ## Digits as bytes -/

/-- The digit that a byte writes. -/
def byteDigit? (b : UInt8) : Option (Fin 16) :=
  if h : 0x30 ≤ b.toNat ∧ b.toNat ≤ 0x39 then some ⟨b.toNat - 0x30, by omega⟩
  else if h : 0x61 ≤ b.toNat ∧ b.toNat ≤ 0x66 then some ⟨b.toNat - 0x61 + 10, by omega⟩
  else none

theorem utf8EncodeChar_of_lt (h : c.toNat < 0x80) :
    String.utf8EncodeChar c = [UInt8.ofNat c.toNat] := by
  have hle : c.val.toNat ≤ 0x7F := Nat.le_of_lt_succ h
  simp only [String.utf8EncodeChar, if_pos hle]
  rfl

/-- Past the first 128 characters, all bytes of a character are past them. -/
theorem exists_utf8EncodeChar_eq_cons (h : 0x80 ≤ c.toNat) :
    ∃ b rest, String.utf8EncodeChar c = b :: rest ∧ 0x80 ≤ b.toNat := by
  have hlt : ¬c.val.toNat ≤ 0x7F := Nat.not_le_of_lt h
  simp only [String.utf8EncodeChar, if_neg hlt]
  repeat' split
  all_goals
    refine ⟨_, _, rfl, ?_⟩
    rw [UInt8.toNat_ofNat']
    omega

theorem byteDigit?_ofNat (h : c.toNat < 0x80) : byteDigit? (UInt8.ofNat c.toNat) = digit? c := by
  have htoNat : (UInt8.ofNat c.toNat).toNat = c.toNat := by
    rw [UInt8.toNat_ofNat', Nat.mod_eq_of_lt (by omega)]
  have hnumber : '0' ≤ c ∧ c ≤ '9' ↔ 0x30 ≤ c.toNat ∧ c.toNat ≤ 0x39 := Iff.rfl
  have hletter : 'a' ≤ c ∧ c ≤ 'f' ↔ 0x61 ≤ c.toNat ∧ c.toNat ≤ 0x66 := Iff.rfl
  simp only [byteDigit?, digit?, htoNat, hnumber, hletter]
  split
  · next hc => exact congrArg some (Fin.ext (Nat.mod_eq_of_lt (by omega)).symm)
  · split
    · next hc => exact congrArg some (Fin.ext (Nat.mod_eq_of_lt (by omega)).symm)
    · rfl

theorem byteDigit?_of_le {b : UInt8} (h : 0x80 ≤ b.toNat) : byteDigit? b = none := by
  have hnumber : ¬b.toNat ≤ 0x39 := by omega
  have hletter : ¬b.toNat ≤ 0x66 := by omega
  rw [byteDigit?, dif_neg (hnumber ∘ And.right), dif_neg (hletter ∘ And.right)]

theorem digit?_of_le (h : 0x80 ≤ c.toNat) : digit? c = none := by
  have hnumber : ¬c ≤ '9' := fun hc ↦ by
    have hc : c.toNat ≤ 0x39 := hc
    omega
  have hletter : ¬c ≤ 'f' := fun hc ↦ by
    have hc : c.toNat ≤ 0x66 := hc
    omega
  rw [digit?, if_neg (hnumber ∘ And.right), if_neg (hletter ∘ And.right)]

theorem mapM_byteDigit?_encode (t : Text) : t.encode.mapM byteDigit? = t.mapM digit? := by
  induction t with
  | nil => rfl
  | cons c t ih =>
    rw [Text.encode_cons, List.mapM_append, ih, List.mapM_cons]
    by_cases h : c.toNat < 0x80
    · rw [utf8EncodeChar_of_lt h, List.mapM_cons, byteDigit?_ofNat h]
      cases digit? c <;> rfl
    · have hle := Nat.le_of_not_lt h
      obtain ⟨b, rest, hbytes, hb⟩ := exists_utf8EncodeChar_eq_cons hle
      rw [hbytes, List.mapM_cons, byteDigit?_of_le hb, digit?_of_le hle]
      rfl

/-- **A value is read alike** by its characters and by its bytes, of which a character may have more
than one. -/
theorem digits?_eq_encode (t : Text) :
    digits? t = if t.encode = [] then none else t.encode.mapM byteDigit? := by
  have hnil : t.encode = [] ↔ t = [] := by
    cases t with
    | nil => simp
    | cons c t => simp [Text.encode_cons, String.utf8EncodeChar_ne_nil]
  simp only [digits?, hnil, mapM_byteDigit?_encode]

/-! ## The order of numerals -/

theorem write_lt_write_iff : write ds < write es ↔ ds < es := by
  induction ds generalizing es with
  | nil => cases es with
    | nil => exact iff_of_false (List.lt_irrefl _) (List.lt_irrefl _)
    | cons e es => exact iff_of_true (List.nil_lt_cons _ _) (List.nil_lt_cons _ _)
  | cons d ds ih => cases es with
    | nil => exact iff_of_false (List.not_lt_nil _) (List.not_lt_nil _)
    | cons e es =>
      have heq : Nat.digitChar d = Nat.digitChar e ↔ d = e := by
        revert d e
        decide
      rw [write_cons, write_cons, List.cons_lt_cons_iff, List.cons_lt_cons_iff,
        digitChar_lt_digitChar_iff, heq, ih]

theorem up_follows : Counter.Follows (· < ·) (fun _ ↦ True) up 0 where
  next {c d e} := by
    revert c d e
    decide
  last {c e} := by
    revert c e
    decide
  first {e} _ := by
    revert e
    decide

/-- The value after a numeral is the least numeral above it that is as long. -/
theorem successor_le_of_lt (h : successor t = .ok next) (hw : Numeral w)
    (hlen : w.length = t.length) (hlt : t < w) : next ≤ w := by
  obtain ⟨es, rfl⟩ := exists_eq_write_iff.2 hw
  rw [successor, step] at h
  split at h
  · cases h
  · next ds hds =>
    obtain ⟨-, rfl⟩ := digits?_eq_some_iff.1 hds
    rw [length_write, length_write] at hlen
    rw [write_lt_write_iff] at hlt
    split at h
    · cases h
    · next moved hstep =>
      cases h
      rcases up_follows.eq_or_lex_of_step hstep (fun _ _ ↦ trivial) hlen hlt with rfl | hlt
      · exact le_rfl
      · exact (write_lt_write_iff.2 hlt).le

theorem not_lt_of_successor_eq_exhausted {v : Text} (h : successor t = .error (.exhausted v))
    (hw : Numeral w) (hlen : w.length = t.length) : ¬t < w := by
  obtain ⟨es, rfl⟩ := exists_eq_write_iff.2 hw
  rw [successor, step] at h
  split at h
  · cases h
  · next ds hds =>
    obtain ⟨-, rfl⟩ := digits?_eq_some_iff.1 hds
    rw [length_write, length_write] at hlen
    rw [write_lt_write_iff]
    split at h
    · next hstep => exact up_follows.not_lex_of_step_eq_none hstep (fun _ _ ↦ trivial) hlen
    · cases h

theorem length_eq_of_successor (h : successor t = .ok next) : next.length = t.length := by
  rw [successor, step] at h
  split at h
  · cases h
  · next ds hds =>
    obtain ⟨-, rfl⟩ := digits?_eq_some_iff.1 hds
    split at h
    · cases h
    · next moved hstep =>
      cases h
      rw [length_write, length_write, Counter.length_eq_of_step hstep]

end CompositeScan.Hex
