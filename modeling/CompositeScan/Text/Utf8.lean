import CompositeScan.Text.Basic

/-!
# UTF-8

Stored keys are bytes. `encode` writes each character in its shortest form; `decode?` accepts
exactly what `encode` writes, because it reads a character only from bytes that are the encoding
of one: overlong forms, surrogates and values past the last scalar are the encoding of nothing.

The statements the storage layer relies on are `encode_lt_encode`, the encoding keeps the order, so
a store sorted by bytes is sorted by code point, and `decode?_encode`, what was written is read
back.
-/

namespace CompositeScan

/-- A sequence of bytes, ordered by the first difference. -/
abbrev Bytes := List UInt8

namespace Text

/-- The UTF-8 bytes of a text. -/
def encode (t : Text) : Bytes := t.flatMap String.utf8EncodeChar

/-- The number that the payload bits of one encoded character spell. -/
def scalarValue : Bytes → Nat
  | [a] => a.toNat
  | [a, b] => (a.toNat - 0xC0) * 0x40 + (b.toNat - 0x80)
  | [a, b, c] => ((a.toNat - 0xE0) * 0x40 + (b.toNat - 0x80)) * 0x40 + (c.toNat - 0x80)
  | [a, b, c, d] =>
    (((a.toNat - 0xF0) * 0x40 + (b.toNat - 0x80)) * 0x40 + (c.toNat - 0x80)) * 0x40
      + (d.toNat - 0x80)
  | _ => 0

/-- The character whose encoding is exactly `bytes`. -/
def charOfBytes? (bytes : Bytes) : Option Char :=
  let c := Char.ofNat (scalarValue bytes)
  if String.utf8EncodeChar c = bytes then some c else none

/-- Reads the rest of a text when `pending` are the bytes of a character not yet complete. -/
def decodeAfter? (pending : Bytes) : Bytes → Option Text
  | [] => if pending = [] then some [] else none
  | b :: bytes =>
    match charOfBytes? (pending ++ [b]) with
    | some c => (decodeAfter? [] bytes).map (c :: ·)
    | none => decodeAfter? (pending ++ [b]) bytes

/-- The text that `bytes` encode, if they encode one. -/
def decode? (bytes : Bytes) : Option Text := decodeAfter? [] bytes

@[simp] theorem encode_nil : encode [] = [] := rfl

@[simp] theorem encode_cons (c : Char) (t : Text) :
    encode (c :: t) = String.utf8EncodeChar c ++ encode t := rfl

theorem utf8EncodeChar_of_charOfBytes? {bytes : Bytes} {c : Char}
    (h : charOfBytes? bytes = some c) : String.utf8EncodeChar c = bytes := by
  simp only [charOfBytes?] at h
  split at h
  · cases h; assumption
  · cases h

theorem append_eq_encode_of_decodeAfter? {pending bytes : Bytes} {t : Text}
    (h : decodeAfter? pending bytes = some t) : pending ++ bytes = encode t := by
  induction bytes generalizing pending t with
  | nil =>
    simp only [decodeAfter?] at h
    split at h
    · cases h; simp [*]
    · cases h
  | cons b bytes ih =>
    simp only [decodeAfter?] at h
    split at h
    · next c hc =>
      obtain ⟨s, hs, rfl⟩ := Option.map_eq_some_iff.1 h
      have := ih hs
      simp only [List.nil_append] at this
      rw [encode_cons, utf8EncodeChar_of_charOfBytes? hc, ← this]
      simp
    · simpa using ih h

/-- Bytes that are read are the bytes that would be written. -/
theorem eq_encode_of_decode? {bytes : Bytes} {t : Text} (h : decode? bytes = some t) :
    bytes = encode t := by
  simpa using append_eq_encode_of_decodeAfter? h

/-! ## Order

The bytes of a character are a lead byte and then, one to a byte, the last digits of its number to
the base 64. A lead byte tells how many digits follow, and more digits go with a greater lead byte.
So the lead bytes decide between encodings of different lengths, and the first digit that differs
decides between encodings of one length (`digitBytes_append_lt`).
-/

/-- How many bytes follow the lead byte of the character of a number. -/
private def tailSize (n : Nat) : Nat :=
  if n ≤ 0x7F then 0 else if n ≤ 0x7FF then 1 else if n ≤ 0xFFFF then 2 else 3

/-- The least lead byte before a number of bytes, and past the last such number a bound for all. -/
private def leastLead (size : Nat) : Nat :=
  if size = 0 then 0 else if size = 1 then 0xC0 else if size = 2 then 0xE0
  else if size = 3 then 0xF0 else 0xF8

/-- What is left of a number without its last digits. -/
private def leading : Nat → Nat → Nat
  | 0, n => n
  | size + 1, n => leading size (n / 64)

/-- A number with its last digits in bytes of their own. -/
private def digitBytes (lead : Nat) : Nat → Nat → Bytes
  | 0, n => [UInt8.ofNat (n + lead)]
  | size + 1, n => digitBytes lead size (n / 64) ++ [UInt8.ofNat (n % 64 + 0x80)]

private theorem utf8EncodeChar_eq_digitBytes {c : Char} {n : Nat} (hn : c.val.toNat = n)
    (h : n < 0x110000) :
    String.utf8EncodeChar c = digitBytes (leastLead (tailSize n)) (tailSize n) n := by
  have htwo : n / 4096 = n / 64 / 64 := (Nat.div_div_eq_div_mul n 64 64).symm
  have hthree : n / 262144 = n / 64 / 64 / 64 := by
    rw [← htwo, Nat.div_div_eq_div_mul]
  simp only [String.utf8EncodeChar, hn, tailSize]
  split
  · rfl
  · split
    · rw [Nat.mod_eq_of_lt (by omega)]
      rfl
    · split
      · rw [htwo, Nat.mod_eq_of_lt (a := n / 64 / 64) (by omega)]
        rfl
      · rw [htwo, hthree, Nat.mod_eq_of_lt (a := n / 64 / 64 / 64) (by omega)]
        rfl

private theorem tailSize_le_tailSize {m n : Nat} (h : m ≤ n) : tailSize m ≤ tailSize n := by
  simp only [tailSize]
  repeat' split
  all_goals omega

private theorem leastLead_le_leastLead {i j : Nat} (h : i ≤ j) : leastLead i ≤ leastLead j := by
  simp only [leastLead]
  repeat' split
  all_goals omega

private theorem leastLead_le (size : Nat) : leastLead size ≤ 0xF8 := by
  simp only [leastLead]
  repeat' split
  all_goals omega

private theorem lead_lt_leastLead {n : Nat} (h : n < 0x110000) :
    leading (tailSize n) n + leastLead (tailSize n) < leastLead (tailSize n + 1) := by
  simp only [tailSize]
  repeat' split
  all_goals
    simp only [leading, leastLead, reduceIte, Nat.reduceEqDiff, Nat.reduceAdd]
    omega

private theorem ofNat_lt_ofNat {m n : Nat} (h : m < n) (hn : n < 256) :
    UInt8.ofNat m < UInt8.ofNat n := by
  rw [UInt8.lt_iff_toNat_lt, UInt8.toNat_ofNat', UInt8.toNat_ofNat', Nat.mod_eq_of_lt hn]
  exact Nat.lt_of_le_of_lt (Nat.mod_le m _) h

private theorem exists_digitBytes_eq_cons (lead size n : Nat) :
    ∃ rest, digitBytes lead size n = UInt8.ofNat (leading size n + lead) :: rest := by
  induction size generalizing n with
  | zero => exact ⟨[], rfl⟩
  | succ size ih =>
    obtain ⟨rest, hrest⟩ := ih (n / 64)
    rw [digitBytes, hrest]
    exact ⟨_, rfl⟩

private theorem digitBytes_append_lt {lead size m n : Nat} (h : m < n)
    (hn : leading size n + lead < 256) (x y : Bytes) :
    digitBytes lead size m ++ x < digitBytes lead size n ++ y := by
  induction size generalizing m n x y with
  | zero => exact List.cons_lt_cons_iff.2 (.inl (ofNat_lt_ofNat (Nat.add_lt_add_right h lead) hn))
  | succ size ih =>
    rw [digitBytes, digitBytes, List.append_assoc, List.append_assoc]
    rcases Nat.lt_or_eq_of_le (Nat.div_le_div_right (c := 64) (Nat.le_of_lt h)) with hlt | heq
    · exact ih hlt hn _ _
    -- The last digits decide when all digits before them are the same.
    · rw [heq]
      apply List.append_left_lt
      exact List.cons_lt_cons_iff.2 (.inl (ofNat_lt_ofNat (by omega) (by omega)))

/-- Two characters in order have encodings that differ, in order, within their own bytes, so
whatever follows them has no say. -/
theorem utf8EncodeChar_append_lt {c d : Char} (h : c < d) (x y : Bytes) :
    String.utf8EncodeChar c ++ x < String.utf8EncodeChar d ++ y := by
  have hscalar : ∀ c : Char, c.val.toNat < 0x110000 := by
    intro c
    have hvalid := c.valid
    simp only [UInt32.isValidChar, Nat.isValidChar] at hvalid
    omega
  have hlt : c.val.toNat < d.val.toNat := h
  have hlead := lead_lt_leastLead (hscalar d)
  rw [utf8EncodeChar_eq_digitBytes rfl (hscalar c), utf8EncodeChar_eq_digitBytes rfl (hscalar d)]
  have hlast : leading (tailSize d.val.toNat) d.val.toNat + leastLead (tailSize d.val.toNat) <
      256 :=
    Nat.lt_of_lt_of_le hlead (Nat.le_trans (leastLead_le _) (by decide))
  rcases Nat.lt_or_eq_of_le (tailSize_le_tailSize (Nat.le_of_lt hlt)) with hsize | hsize
  · obtain ⟨cs, hcs⟩ := exists_digitBytes_eq_cons (leastLead (tailSize c.val.toNat))
      (tailSize c.val.toNat) c.val.toNat
    obtain ⟨ds, hds⟩ := exists_digitBytes_eq_cons (leastLead (tailSize d.val.toNat))
      (tailSize d.val.toNat) d.val.toNat
    rw [hcs, hds]
    refine List.cons_lt_cons_iff.2 (.inl (ofNat_lt_ofNat ?_ hlast))
    exact Nat.lt_of_lt_of_le (lead_lt_leastLead (hscalar c)) (Nat.le_trans
      (leastLead_le_leastLead hsize) (Nat.le_add_left _ _))
  · rw [hsize]
    exact digitBytes_append_lt hlt hlast x y

/-- The encoding keeps the order of texts. -/
theorem encode_lt_encode {s t : Text} (h : s < t) : encode s < encode t := by
  induction h with
  | nil =>
    next c t =>
    rw [encode_cons, encode_nil]
    cases hb : String.utf8EncodeChar c with
    | nil => exact absurd hb String.utf8EncodeChar_ne_nil
    | cons b bs => exact List.nil_lt_cons b _
  | rel h => exact utf8EncodeChar_append_lt h _ _
  | cons _ ih => exact List.append_left_lt ih

/-! ## Reading back

A decoder that takes bytes until they are those of a character stops neither too late nor too early:
no leading part of the bytes of a character are the bytes of another, or the order of the two would
depend on what follows them.
-/

private theorem toNat_ofNat_of_lt {n : Nat} (h : n < 256) : (UInt8.ofNat n).toNat = n := by
  rw [UInt8.toNat_ofNat', Nat.mod_eq_of_lt h]

/-- The payload bits of an encoded character spell its number. -/
private theorem scalarValue_of_toNat_eq {c : Char} {n : Nat} (hn : c.val.toNat = n)
    (h : n < 0x110000) : scalarValue (String.utf8EncodeChar c) = n := by
  simp only [String.utf8EncodeChar, hn]
  split
  · exact toNat_ofNat_of_lt (by omega)
  · split
    · unfold scalarValue
      simp (disch := omega) only [toNat_ofNat_of_lt]
      omega
    · split
      · unfold scalarValue
        simp (disch := omega) only [toNat_ofNat_of_lt]
        omega
      · unfold scalarValue
        simp (disch := omega) only [toNat_ofNat_of_lt]
        omega

theorem scalarValue_utf8EncodeChar (c : Char) :
    scalarValue (String.utf8EncodeChar c) = c.toNat := by
  have hvalid := c.valid
  simp only [UInt32.isValidChar, Nat.isValidChar] at hvalid
  show _ = c.val.toNat
  exact scalarValue_of_toNat_eq rfl (by omega)

theorem charOfBytes?_utf8EncodeChar (c : Char) :
    charOfBytes? (String.utf8EncodeChar c) = some c := by
  simp only [charOfBytes?, scalarValue_utf8EncodeChar, Char.ofNat_toNat, if_true]

/-- No leading part of an encoded character is the encoding of one. -/
theorem charOfBytes?_eq_none {c : Char} {p q : Bytes} (h : String.utf8EncodeChar c = p ++ q)
    (hq : q ≠ []) : charOfBytes? p = none := by
  cases hd : charOfBytes? p with
  | none => rfl
  | some d =>
    have hp := utf8EncodeChar_of_charOfBytes? hd
    subst hp
    rcases Std.lt_trichotomy c d with hlt | rfl | hgt
    · have := utf8EncodeChar_append_lt hlt [] q
      rw [List.append_nil, h] at this
      exact absurd this (List.lt_irrefl _)
    · exact absurd (List.self_eq_append_right.1 h) hq
    · have := utf8EncodeChar_append_lt hgt q []
      rw [List.append_nil, h] at this
      exact absurd this (List.lt_irrefl _)

theorem decodeAfter?_append {c : Char} {pending bytes : Bytes} (rest : Bytes)
    (h : String.utf8EncodeChar c = pending ++ bytes) (hne : bytes ≠ []) :
    decodeAfter? pending (bytes ++ rest) = (decodeAfter? [] rest).map (c :: ·) := by
  induction bytes generalizing pending with
  | nil => exact absurd rfl hne
  | cons b bytes ih =>
    rw [List.cons_append, decodeAfter?]
    by_cases hb : bytes = []
    · subst hb
      rw [← h, charOfBytes?_utf8EncodeChar, List.nil_append]
    · have h' : String.utf8EncodeChar c = (pending ++ [b]) ++ bytes := by
        rw [h, List.append_assoc, List.singleton_append]
      rw [charOfBytes?_eq_none h' hb]
      exact ih h' hb

/-- What was written is read back. -/
theorem decode?_encode (t : Text) : decode? (encode t) = some t := by
  induction t with
  | nil => rfl
  | cons c t ih =>
    rw [decode?, encode_cons, decodeAfter?_append (encode t) rfl String.utf8EncodeChar_ne_nil]
    rw [decode?] at ih
    rw [ih, Option.map_some]

end Text

end CompositeScan
