import Lineage.Text.Printable

/-!
# Lineage.Text.Quoted

Quoted text, as messages show an identifier: between double quotes, with a
backslash before a quote or a backslash, short escapes for tab, line feed,
carriage return and NUL, and the code point in hexadecimal for every other
character that would not show.
-/

namespace Lineage.Text

/-- The hexadecimal digits of a number, in lower case and without padding. -/
def hexDigits (n : Nat) : List Char := Nat.toDigits 16 n

/-- One character of a quoted text. -/
def quoteChar (c : Char) : List Char :=
  if c = '"' then ['\\', '"']
  else if c = '\\' then ['\\', '\\']
  else if c = '\t' then ['\\', 't']
  else if c = '\n' then ['\\', 'n']
  else if c = '\r' then ['\\', 'r']
  else if c = '\x00' then ['\\', '0']
  else if isPrintable c && !isExtendingMark c then [c]
  else ['\\', 'u', '\x7b'] ++ hexDigits c.toNat ++ ['\x7d']

/-- A text between quotes. -/
def quoted (text : String) : String :=
  String.ofList ('"' :: (text.toList.flatMap quoteChar ++ ['"']))

end Lineage.Text
