import LiveMarkup.Text.Digits

/-!
# One-line escapes

Two encodings put a text on one line. Both escape backslash, double quote, line feed,
carriage return and tab in the same way. `escapeControls` escapes the other characters
below the space too and copies the rest; `escapeForeign` copies all of ASCII otherwise
and escapes what lies beyond it.
-/

namespace LiveMarkup.Text

/-- The escapes that both encodings share. -/
def commonEscape? (c : Char) : Option (List Char) :=
  if c = '\\' then some ['\\', '\\']
  else if c = '"' then some ['\\', '"']
  else if c = '\n' then some ['\\', 'n']
  else if c = '\r' then some ['\\', 'r']
  else if c = '\t' then some ['\\', 't']
  else none

/-- A character by its code point: upper-case hexadecimal of at least `width` digits in
braces. -/
def upperEscape (width : Nat) (c : Char) : List Char :=
  ['\\', 'u', '\x7b'] ++ padLeft width '0' (upperHex c.toNat) ++ ['\x7d']

/-- A character under `escapeControls`. -/
def controlsEscape (c : Char) : List Char :=
  (commonEscape? c).getD (if c < ' ' then upperEscape 2 c else [c])

/-- A character under `escapeForeign`. -/
def foreignEscape (c : Char) : List Char :=
  (commonEscape? c).getD (if c.toNat < 0x80 then [c] else upperEscape 0 c)

/-- Escapes quotes, backslashes and all characters below the space. -/
def escapeControls (s : String) : String := String.ofList (s.toList.flatMap controlsEscape)

/-- Escapes quotes, backslashes, line ends, tabs and all characters beyond ASCII. -/
def escapeForeign (s : String) : String := String.ofList (s.toList.flatMap foreignEscape)

end LiveMarkup.Text
