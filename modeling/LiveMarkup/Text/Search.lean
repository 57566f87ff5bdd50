/-!
# Leftmost occurrences

A recogniser looks at the start of an input and, where it matches, answers what
follows the match. `splitFirst?` runs a recogniser at every position in turn and
cuts the input around the leftmost match. The recognisers used here answer a part of
their input, and so does the search; that is what lets a scanner recurse on the rest.
-/

namespace LiveMarkup.Text

/-- Cuts `cs` around the leftmost match of `rest?`: the characters before the match and
those after it. -/
def splitFirst? (rest? : List Char → Option (List Char)) :
    List Char → Option (List Char × List Char)
  | [] => (rest? []).map ([], ·)
  | c :: cs =>
    match rest? (c :: cs) with
    | some rest => some ([], rest)
    | none => (splitFirst? rest? cs).map fun (before, rest) => (c :: before, rest)

/-- What follows `word` where the input starts with it, letters compared without their
ASCII case. The word is given in lower case. -/
def afterWord? : (word cs : List Char) → Option (List Char)
  | [], cs => some cs
  | _ :: _, [] => none
  | w :: word, c :: cs => if c.toLower = w then afterWord? word cs else none

theorem suffix_of_afterWord? {word cs rest : List Char} (h : afterWord? word cs = some rest) :
    rest <:+ cs := by
  induction word generalizing cs with
  | nil => cases h; exact List.suffix_refl _
  | cons w word ih =>
    cases cs with
    | nil => cases h
    | cons c cs =>
      simp only [afterWord?] at h
      split at h
      · exact (ih h).trans (List.suffix_cons c cs)
      · cases h

theorem append_of_isPrefixOf? {word cs rest : List Char}
    (h : word.isPrefixOf? cs = some rest) : word ++ rest = cs := by
  induction word generalizing cs with
  | nil => exact (Option.some.inj h).symm
  | cons w word ih =>
    cases cs with
    | nil => cases h
    | cons c cs =>
      change (if w == c then word.isPrefixOf? cs else none) = some rest at h
      split at h
      · next hwc => simp [beq_iff_eq.1 hwc, ih h]
      · cases h

/-- A search answers a part of its input when its recogniser does. -/
theorem suffix_of_splitFirst? {rest? : List Char → Option (List Char)}
    (hsuffix : ∀ {cs rest}, rest? cs = some rest → rest <:+ cs)
    {cs before rest : List Char} (h : splitFirst? rest? cs = some (before, rest)) :
    rest <:+ cs := by
  induction cs generalizing before with
  | nil =>
    obtain ⟨r, hr, heq⟩ := Option.map_eq_some_iff.1 h
    cases heq
    exact hsuffix hr
  | cons c cs ih =>
    simp only [splitFirst?] at h
    split at h
    · next r hr => cases h; exact hsuffix hr
    · obtain ⟨⟨b, r⟩, hr, heq⟩ := Option.map_eq_some_iff.1 h
      cases heq
      exact (ih hr).trans (List.suffix_cons c cs)

end LiveMarkup.Text
