/-!
# Reading UTF-8

`decodeUtf8` reads bytes as UTF-8. Where they are not, each maximal piece that starts a
sequence and cannot be completed, or else a single byte, is replaced by one U+FFFD, and
reading goes on behind it.
-/

namespace LiveMarkup.Text

/-- The replacement character U+FFFD. -/
def replacement : Char := '\ufffd'

/-- What the first byte of a longer sequence promises: the bits it carries, the number of
bytes after it, and the bounds of the first of those. The bounds rule out overlong
sequences, surrogates and values beyond U+10FFFF. -/
structure Lead where
  bits : Nat
  more : Nat
  low : Nat
  high : Nat
deriving DecidableEq, Repr

/-- The promise of a byte that starts a sequence of two to four. -/
def lead? (b : Nat) : Option Lead :=
  if 0xC2 ≤ b ∧ b ≤ 0xDF then some ⟨b - 0xC0, 1, 0x80, 0xBF⟩
  else if b = 0xE0 then some ⟨0, 2, 0xA0, 0xBF⟩
  else if b = 0xED then some ⟨0xD, 2, 0x80, 0x9F⟩
  else if 0xE1 ≤ b ∧ b ≤ 0xEF then some ⟨b - 0xE0, 2, 0x80, 0xBF⟩
  else if b = 0xF0 then some ⟨0, 3, 0x90, 0xBF⟩
  else if 0xF1 ≤ b ∧ b ≤ 0xF3 then some ⟨b - 0xF0, 3, 0x80, 0xBF⟩
  else if b = 0xF4 then some ⟨4, 3, 0x80, 0x8F⟩
  else none

/-- Reads the `more` further bytes of a sequence, of which the next lies within the given
bounds and all others within those of any continuation. Answers the value, `none` where
the sequence breaks off, and the bytes that are left. -/
def continueUtf8 : (value more low high : Nat) → List UInt8 → Option Nat × List UInt8
  | value, 0, _, _, bytes => (some value, bytes)
  | _, _ + 1, _, _, [] => (none, [])
  | value, more + 1, low, high, b :: bytes =>
    if low ≤ b.toNat ∧ b.toNat ≤ high then
      continueUtf8 (64 * value + (b.toNat - 0x80)) more 0x80 0xBF bytes
    else (none, b :: bytes)

theorem suffix_continueUtf8 (value more low high : Nat) (bytes : List UInt8) :
    (continueUtf8 value more low high bytes).2 <:+ bytes := by
  induction bytes generalizing value more low high with
  | nil => cases more <;> exact List.suffix_refl _
  | cons b bytes ih =>
    cases more with
    | zero => exact List.suffix_refl _
    | succ more =>
      simp only [continueUtf8]
      split
      · exact (ih _ _ _ _).trans (List.suffix_cons b bytes)
      · exact List.suffix_refl _

/-- The characters of a list of bytes. -/
def decodeUtf8 : List UInt8 → List Char
  | [] => []
  | b :: bytes =>
    if b.toNat < 0x80 then Char.ofNat b.toNat :: decodeUtf8 bytes
    else
      match lead? b.toNat with
      | none => replacement :: decodeUtf8 bytes
      | some lead =>
        let found := continueUtf8 lead.bits lead.more lead.low lead.high bytes
        (found.1.map Char.ofNat).getD replacement :: decodeUtf8 found.2
termination_by bytes => bytes.length
decreasing_by
  · exact Nat.lt_succ_self _
  · exact Nat.lt_succ_self _
  · exact Nat.lt_succ_of_le (suffix_continueUtf8 _ _ _ _ _).length_le

end LiveMarkup.Text
