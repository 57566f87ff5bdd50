/-!
# Pieces of a text between byte positions

A position in a text counts bytes of its UTF-8 encoding. A piece of the text stands between two
positions, and there is such a piece only if both are within the text, on the boundary of
characters and in order; `slice?` has no answer otherwise. All else looks at single bytes, where a
byte is given as the character of its number, so that the classes of ASCII characters apply.
-/

namespace LiveMarkup.Text

/-- The bytes of a text. -/
def bytes (s : String) : List UInt8 := s.toUTF8.data.toList

/-- A position within the text that is not inside a character. -/
def IsBoundary (s : String) (pos : Nat) : Prop := String.Pos.Raw.IsValid s ⟨pos⟩

instance (s : String) (pos : Nat) : Decidable (IsBoundary s pos) :=
  inferInstanceAs (Decidable (String.Pos.Raw.IsValid s ⟨pos⟩))

/-- The piece of a text between two positions. -/
def slice? (s : String) (start stop : Nat) : Option String :=
  if h : IsBoundary s start ∧ IsBoundary s stop ∧ start ≤ stop then
    some (s.extract (s.pos ⟨start⟩ h.1) (s.pos ⟨stop⟩ h.2.1))
  else none

/-- The bytes from a position on, which must not be behind the end. -/
def from? (bs : List UInt8) (start : Nat) : Option (List UInt8) :=
  if start ≤ bs.length then some (bs.drop start) else none

/-- The byte at a position. -/
def byte? (bs : List UInt8) (pos : Nat) : Option Char := bs[pos]?.map Char.ofUInt8

/-- The first position from `pos` on whose byte is not of the class. -/
def skipWhile (p : Char → Bool) (bs : List UInt8) (pos : Nat) : Nat :=
  pos + ((bs.drop pos).takeWhile fun b => p (Char.ofUInt8 b)).length

/-- The index of the first byte that is the given ASCII character. -/
def indexOf? (c : Char) (bs : List UInt8) : Option Nat := bs.findIdx? (Char.ofUInt8 · == c)

/-- Whether a word of ASCII characters in lower case stands at a position, in any case. -/
def standsAt (bs : List UInt8) (pos : Nat) (word : List Char) : Bool :=
  ((bs.drop pos).take word.length).map (fun b => (Char.ofUInt8 b).toLower) == word

end LiveMarkup.Text
