import Custody.Text.Printable

/-!
# Quoted text

* `escape`: how a character is written between double quotes.
* `quoted`: a text between double quotes.
-/

namespace Custody.Text

/-- The code point in base 16 between braces. -/
def codePoint (c : Char) : List Char :=
  ['\\', 'u', '\x7b'] ++ Nat.toDigits 16 c.toNat ++ ['\x7d']

/-- A tab, a line end, a quote and a backslash have short forms, as has the null character; what
cannot be shown is written as its code point. -/
def escape (c : Char) : List Char :=
  if c = '\t' then ['\\', 't']
  else if c = '\n' then ['\\', 'n']
  else if c = '\r' then ['\\', 'r']
  else if c = '"' then ['\\', '"']
  else if c = '\\' then ['\\', '\\']
  else if c.toNat = 0 then ['\\', '0']
  else if isExtender c || !isPrintable c then codePoint c
  else [c]

/-- A text in quotes, with what needs it escaped. -/
def quoted (s : String) : String := String.ofList ('"' :: s.toList.flatMap escape ++ ['"'])

end Custody.Text
