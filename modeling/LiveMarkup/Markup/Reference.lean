import LiveMarkup.Text.Digits
import LiveMarkup.Text.Search

/-!
# Character references

A reference is `&`, one of six names or a number, and `;`. A number is `#` with one to
seven decimal digits, or `#x` or `#X` with one to six hexadecimal digits, and has to be
a Unicode scalar value. `decode` replaces every reference by its character, once, and
copies all else; an ampersand that starts no reference is an ordinary character.
-/

namespace LiveMarkup.Markup.Reference

/-- The named references, without the ampersand. -/
def named : List (List Char × Char) :=
  [("amp;".toList, '&'), ("lt;".toList, '<'), ("gt;".toList, '>'), ("quot;".toList, '"'),
   ("apos;".toList, '\''), ("nbsp;".toList, '\u00a0')]

/-- A name and its semicolon at the start of the input. -/
def named? (cs : List Char) : Option (Char × List Char) :=
  named.findSome? fun (name, c) => (name.isPrefixOf? cs).map (c, ·)

/-- A number of one to `width` digits and its semicolon at the start of the input. -/
def number? (base width : Nat) (cs : List Char) : Option (Char × List Char) :=
  let digits := cs.takeWhile (Text.isDigitOf base)
  let value := Text.numeralValue base digits
  match cs.dropWhile (Text.isDigitOf base) with
  | ';' :: rest =>
    if 0 < digits.length ∧ digits.length ≤ width ∧ value.isValidChar then
      some (Char.ofNat value, rest)
    else none
  | _ => none

/-- The numeric references, without ampersand and number sign. -/
def numeric? : List Char → Option (Char × List Char)
  | 'x' :: cs => number? 16 6 cs
  | 'X' :: cs => number? 16 6 cs
  | cs => number? 10 7 cs

/-- The reference whose ampersand stands just before the input: its character, and what
follows the semicolon. -/
def read? (cs : List Char) : Option (Char × List Char) :=
  match named? cs, cs with
  | some found, _ => some found
  | none, '#' :: rest => numeric? rest
  | none, _ => none

theorem suffix_of_number? {base width : Nat} {cs rest : List Char} {c : Char}
    (h : number? base width cs = some (c, rest)) : rest <:+ cs := by
  simp only [number?] at h
  split at h
  · next tail htail =>
    split at h
    · cases h
      exact (List.suffix_cons ';' rest).trans (htail ▸ List.dropWhile_suffix _)
    · cases h
  · cases h

theorem suffix_of_named? {cs rest : List Char} {c : Char}
    (h : named? cs = some (c, rest)) : rest <:+ cs := by
  obtain ⟨⟨name, _⟩, _, heq⟩ := List.exists_of_findSome?_eq_some h
  obtain ⟨tail, htail, heq⟩ := Option.map_eq_some_iff.1 heq
  cases heq
  exact ⟨name, Text.append_of_isPrefixOf? htail⟩

/-- Reading a reference leaves a part of the input. -/
theorem suffix_of_read? {cs rest : List Char} {c : Char}
    (h : read? cs = some (c, rest)) : rest <:+ cs := by
  simp only [read?] at h
  split at h
  · next hnamed => cases h; exact suffix_of_named? hnamed
  · next tail _ =>
    refine List.IsSuffix.trans ?_ (List.suffix_cons '#' tail)
    unfold numeric? at h
    split at h
    · exact (suffix_of_number? h).trans (List.suffix_cons _ _)
    · exact (suffix_of_number? h).trans (List.suffix_cons _ _)
    · exact suffix_of_number? h
  · cases h

/-- Replaces every reference by its character. -/
def decode : List Char → List Char
  | [] => []
  | c :: cs =>
    if c = '&' then
      match _found : read? cs with
      | some (d, rest) => d :: decode rest
      | none => c :: decode cs
    else c :: decode cs
termination_by cs => cs.length
decreasing_by
  · exact Nat.lt_succ_of_le (suffix_of_read? _found).length_le
  · exact Nat.lt_succ_self _
  · exact Nat.lt_succ_self _

@[simp] theorem decode_nil : decode [] = [] := by simp [decode]

/-- Characters other than the ampersand stand for themselves. -/
theorem decode_cons {c : Char} {cs : List Char} (h : c ≠ '&') :
    decode (c :: cs) = c :: decode cs := by
  rw [decode]; simp [h]

/-- A text without ampersands stands for itself. -/
theorem decode_eq_self {cs : List Char} (h : '&' ∉ cs) : decode cs = cs := by
  induction cs with
  | nil => simp
  | cons c cs ih =>
    simp only [List.mem_cons, not_or] at h
    rw [decode_cons (Ne.symm h.1), ih h.2]

end LiveMarkup.Markup.Reference
