/-!
# Numerals

Reading a numeral in a base up to sixteen, and writing hexadecimal in the two
spellings that escapes and keys use.
-/

namespace LiveMarkup.Text

/-- The value of `c` as a hexadecimal digit of either case. -/
def hexValue? (c : Char) : Option Nat :=
  if '0' ≤ c ∧ c ≤ '9' then some (c.toNat - 48)
  else if 'a' ≤ c ∧ c ≤ 'f' then some (c.toNat - 87)
  else if 'A' ≤ c ∧ c ≤ 'F' then some (c.toNat - 55)
  else none

/-- The value of `c` as a digit in the given base, which is at most sixteen. -/
def digitValue? (base : Nat) (c : Char) : Option Nat :=
  (hexValue? c).filter (· < base)

/-- Whether `c` is a digit in the given base. -/
def isDigitOf (base : Nat) (c : Char) : Bool :=
  (digitValue? base c).isSome

/-- The number that a run of digits denotes, the most significant digit first. A
character that is no digit counts as zero. -/
def numeralValue (base : Nat) (digits : List Char) : Nat :=
  digits.foldl (fun n c => base * n + (digitValue? base c).getD 0) 0

/-- Hexadecimal with lower-case letters and no leading zeros. -/
def lowerHex (n : Nat) : List Char := Nat.toDigits 16 n

/-- Hexadecimal with upper-case letters and no leading zeros. -/
def upperHex (n : Nat) : List Char := (Nat.toDigits 16 n).map Char.toUpper

/-- Fills `cs` up to the given width with the character `c` in front. -/
def padLeft (width : Nat) (c : Char) (cs : List Char) : List Char :=
  List.replicate (width - cs.length) c ++ cs

end LiveMarkup.Text
