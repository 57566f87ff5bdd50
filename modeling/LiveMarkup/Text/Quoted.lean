import LiveMarkup.Text.Digits
import LiveMarkup.Text.Printable

/-!
# Quoted text

The quoted form of a text stands on one line and can be told from what surrounds it: it
is enclosed in double quotes, quotes and backslashes are escaped, and so is every
character that cannot be seen.
-/

namespace LiveMarkup.Text

/-- A character by its code point: lower-case hexadecimal in braces. -/
def lowerEscape (c : Char) : List Char :=
  ['\\', 'u', '\x7b'] ++ lowerHex c.toNat ++ ['\x7d']

/-- A character inside a quoted text. -/
def quotedChar (c : Char) : List Char :=
  if c = '\\' || c = '"' then ['\\', c]
  else if c = '\x00' then ['\\', '0']
  else if c = '\t' then ['\\', 't']
  else if c = '\n' then ['\\', 'n']
  else if c = '\r' then ['\\', 'r']
  else if isPrintable c then [c]
  else lowerEscape c

/-- The quoted form of a text. -/
def quoted (s : String) : String :=
  String.ofList ('"' :: s.toList.flatMap quotedChar ++ ['"'])

end LiveMarkup.Text
