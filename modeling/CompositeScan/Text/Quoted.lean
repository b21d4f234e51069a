import CompositeScan.Text.Printable

/-!
# Quoted text

How a text appears inside a message: between double quotes, with a backslash before a quote or a
backslash, short escapes for the common controls, and the code point of every other character that
is not printable in `\u` and braces.
-/

namespace CompositeScan.Text

/-- The code point of `c` in lowercase hexadecimal, between braces after `\u`. -/
def codePointEscape (c : Char) : Text :=
  "\\u\x7b".toList ++ Nat.toDigits 16 c.toNat ++ "\x7d".toList

/-- What a message shows for `c`. -/
def quotedChar (c : Char) : Text :=
  if c = '"' ∨ c = '\\' then ['\\', c]
  else if c = '\t' then ['\\', 't']
  else if c = '\r' then ['\\', 'r']
  else if c = '\n' then ['\\', 'n']
  else if c = Char.ofNat 0 then ['\\', '0']
  else if isPrintable c then [c]
  else codePointEscape c

/-- A text as a message shows it. -/
def quoted (t : Text) : String :=
  "\"" ++ String.ofList (t.flatMap quotedChar) ++ "\""

/-- A name as a message shows it. -/
def quotedName (name : String) : String := quoted name.toList

end CompositeScan.Text
