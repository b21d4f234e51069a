import CompositeScan.Text.Basic

/-!
# JSON tokens

A JSON text is a sequence of tokens with blanks between them. A string token is kept as the pieces
it is written in, because an escape may name half of a surrogate pair: two halves in a row make a
character, a half alone makes none. Such a string is well formed, but it is no text.

A number token is kept as it is written. Reading takes the longest run of characters that could
belong to a number or a word and then asks whether the run is one; after a complete number or word
nothing that extends it could follow anyway.
-/

namespace CompositeScan.Json

/-- A piece of a string token. -/
inductive Piece where
  /-- A character. -/
  | char (c : Char)
  /-- Half of a surrogate pair; the first 1024 are the high halves. -/
  | surrogate (half : Fin 0x800)
  deriving DecidableEq

/-- A token. -/
inductive Token where
  | beginObject
  | endObject
  | beginArray
  | endArray
  | comma
  | colon
  | null
  | boolean (b : Bool)
  | number (literal : Text)
  | string (pieces : List Piece)
  deriving DecidableEq

/-! ## Strings -/

namespace Piece

/-- The character that a high and a low half make together. -/
def pair? (high low : Fin 0x800) : Option Char :=
  if high.val < 0x400 ∧ 0x400 ≤ low.val then
    some (Char.ofNat (0x10000 + high.val * 0x400 + (low.val - 0x400)))
  else none

/-- The text that pieces make, unless a half stands alone. -/
def text? : List Piece → Option Text
  | [] => some []
  | char c :: pieces => (text? pieces).map (c :: ·)
  | surrogate high :: surrogate low :: pieces =>
    match pair? high low with
    | some c => (text? pieces).map (c :: ·)
    | none => none
  | surrogate _ :: _ => none

/-- The pieces of a text. -/
def ofText (t : Text) : List Piece := t.map char

/-- The piece that a code in an escape names. -/
def ofCode (code : Nat) : Piece :=
  if h : 0xD800 ≤ code ∧ code < 0xE000 then surrogate ⟨code - 0xD800, by omega⟩
  else char (Char.ofNat code)

/-- The four lowercase hexadecimal digits of a code after `\u`. -/
def codeEscape (code : Nat) : Text :=
  let digit (n : Nat) : Char := Nat.digitChar (n % 16)
  ['\\', 'u', digit (code / 0x1000), digit (code / 0x100), digit (code / 0x10), digit code]

/-- How a piece is written. -/
def write : Piece → Text
  | char c =>
    if c = '"' ∨ c = '\\' then ['\\', c]
    else if c = '\x08' then ['\\', 'b']
    else if c = '\t' then ['\\', 't']
    else if c = '\n' then ['\\', 'n']
    else if c = '\x0c' then ['\\', 'f']
    else if c = '\r' then ['\\', 'r']
    else if c.toNat < 0x20 then codeEscape c.toNat
    else [c]
  | surrogate half => codeEscape (0xD800 + half.val)

end Piece

/-- The number that a hexadecimal digit of either case writes. -/
def hexDigit? (c : Char) : Option Nat :=
  if '0' ≤ c ∧ c ≤ '9' then some (c.toNat - '0'.toNat)
  else if 'a' ≤ c ∧ c ≤ 'f' then some (c.toNat - 'a'.toNat + 10)
  else if 'A' ≤ c ∧ c ≤ 'F' then some (c.toNat - 'A'.toNat + 10)
  else none

/-- The number that four hexadecimal digits write. -/
def hexCode? (a b c d : Char) : Option Nat :=
  match hexDigit? a, hexDigit? b, hexDigit? c, hexDigit? d with
  | some a, some b, some c, some d => some (((a * 16 + b) * 16 + c) * 16 + d)
  | _, _, _, _ => none

/-- The character that a backslash and `c` stand for. -/
def escaped? (c : Char) : Option Char :=
  if c = '"' ∨ c = '\\' ∨ c = '/' then some c
  else if c = 'b' then some '\x08'
  else if c = 'f' then some '\x0c'
  else if c = 'n' then some '\n'
  else if c = 'r' then some '\r'
  else if c = 't' then some '\t'
  else none

/-- The pieces up to the closing quote, and the text after it. -/
def stringBody? : Text → Option (List Piece × Text)
  | [] => none
  | '"' :: rest => some ([], rest)
  | '\\' :: 'u' :: a :: b :: c :: d :: rest =>
    match hexCode? a b c d, stringBody? rest with
    | some code, some (pieces, rest) => some (.ofCode code :: pieces, rest)
    | _, _ => none
  | '\\' :: e :: rest =>
    match escaped? e, stringBody? rest with
    | some c, some (pieces, rest) => some (.char c :: pieces, rest)
    | _, _ => none
  | c :: rest =>
    if c = '\\' ∨ c.toNat < 0x20 then none
    else match stringBody? rest with
      | some (pieces, rest) => some (.char c :: pieces, rest)
      | none => none

theorem length_of_stringBody? {t rest : Text} {pieces : List Piece}
    (h : stringBody? t = some (pieces, rest)) : rest.length < t.length := by
  fun_induction stringBody? t generalizing pieces rest
  all_goals try cases h
  all_goals simp only [List.length_cons]
  all_goals grind

/-! ## Numbers and words -/

/-- The text after a run of at least one digit. -/
def afterDigits? (t : Text) : Option Text :=
  if t.takeWhile Char.isDigit = [] then none else some (t.dropWhile Char.isDigit)

/-- The text without a leading sign. -/
def afterSign : Text → Text
  | '+' :: t => t
  | '-' :: t => t
  | t => t

/-- The text after the integer part of a number, which has no leading zero. -/
def afterInteger? : Text → Option Text
  | '0' :: t => some t
  | t => afterDigits? t

/-- The text after the fraction of a number, if there is one. -/
def afterFraction? : Text → Option Text
  | '.' :: t => afterDigits? t
  | t => some t

/-- The text after the exponent of a number, if there is one. -/
def afterExponent? : Text → Option Text
  | 'e' :: t => afterDigits? (afterSign t)
  | 'E' :: t => afterDigits? (afterSign t)
  | t => some t

/-- The text is a number. -/
def isNumber (t : Text) : Bool :=
  let unsigned := match t with
    | '-' :: t => t
    | t => t
  ((afterInteger? unsigned).bind afterFraction?).bind afterExponent? == some []

/-- The token that a run of characters writes. -/
def wordToken? (word : Text) : Option Token :=
  if word = ['n', 'u', 'l', 'l'] then some .null
  else if word = ['t', 'r', 'u', 'e'] then some (.boolean true)
  else if word = ['f', 'a', 'l', 's', 'e'] then some (.boolean false)
  else if isNumber word then some (.number word)
  else none

/-- A character that may stand in a number or a word. -/
def isWordChar (c : Char) : Bool := c.isAlphanum || c = '+' || c = '-' || c = '.'

/-! ## Texts -/

namespace Token

/-- A character that may stand between tokens. -/
def isBlank (c : Char) : Bool := c = ' ' || c = '\t' || c = '\n' || c = '\r'

/-- The token that is written as one character. -/
def ofChar? (c : Char) : Option Token :=
  if c = '\x7b' then some .beginObject
  else if c = '\x7d' then some .endObject
  else if c = '[' then some .beginArray
  else if c = ']' then some .endArray
  else if c = ',' then some .comma
  else if c = ':' then some .colon
  else none

/-- The first token of a text and the text after it; no token at the end of the text. -/
def first? : Text → Option (Token × Text)
  | [] => none
  | c :: t =>
    match ofChar? c with
    | some token => some (token, t)
    | none =>
      if c = '"' then (stringBody? t).map fun p ↦ (.string p.1, p.2)
      else
        let word := (c :: t).takeWhile isWordChar
        (wordToken? word).map (·, t.dropWhile isWordChar)

theorem length_of_first? {t rest : Text} {token : Token} (h : first? t = some (token, rest)) :
    rest.length < t.length := by
  cases t with
  | nil => simp [first?] at h
  | cons c t =>
    simp only [first?] at h
    split at h
    · simp only [Option.some.injEq, Prod.mk.injEq] at h
      simp [← h.2]
    · split at h
      · obtain ⟨p, hp, heq⟩ := Option.map_eq_some_iff.1 h
        simp only [Prod.mk.injEq] at heq
        have := length_of_stringBody? hp
        simp only [List.length_cons, ← heq.2]
        omega
      · obtain ⟨p, hp, heq⟩ := Option.map_eq_some_iff.1 h
        simp only [Prod.mk.injEq] at heq
        have := (List.dropWhile_suffix (l := t) isWordChar).length_le
        simp only [List.length_cons, ← heq.2]
        omega

/-- The tokens of a text. -/
def ofText? (t : Text) : Option (List Token) :=
  match _h : t.dropWhile isBlank with
  | [] => some []
  | c :: rest =>
    match _h' : first? (c :: rest) with
    | some (token, later) => (ofText? later).map (token :: ·)
    | none => none
termination_by t.length
decreasing_by
  have := length_of_first? (by assumption)
  have := (List.dropWhile_suffix (l := t) isBlank).length_le
  simp_all
  omega

/-- How a token is written. -/
def write : Token → Text
  | beginObject => ['\x7b']
  | endObject => ['\x7d']
  | beginArray => ['[']
  | endArray => [']']
  | comma => [',']
  | colon => [':']
  | null => ['n', 'u', 'l', 'l']
  | boolean true => ['t', 'r', 'u', 'e']
  | boolean false => ['f', 'a', 'l', 's', 'e']
  | number literal => literal
  | string pieces => '"' :: pieces.flatMap Piece.write ++ ['"']

end Token

end CompositeScan.Json
