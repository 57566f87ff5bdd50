import LiveMarkup.Markup.Escape
import LiveMarkup.Markup.Reference

/-!
# Reading escaped text

What is written by `escape` is read back by `decode`, and the end of the escaped text does
not matter: no reference begins in it and ends behind it, since every ampersand in it is
the start of a reference of its own.
-/

namespace LiveMarkup.Markup

namespace Reference

/-- A reference stands for its character. -/
theorem decode_reference {cs rest : List Char} {c : Char} (h : read? cs = some (c, rest)) :
    decode ('&' :: cs) = c :: decode rest := by
  rw [decode, if_pos rfl]
  split
  · next d tail hfound =>
    rw [h] at hfound
    cases hfound
    rfl
  · next hnone =>
    rw [h] at hnone
    cases hnone

/-- A character as it is written is read back, whatever follows it. -/
theorem decode_escapeChar (place : Place) (c : Char) (rest : List Char) :
    decode (escapeChar place c ++ rest) = c :: decode rest := by
  unfold escapeChar
  split
  · exact decode_reference rfl
  · exact decode_reference rfl
  · exact decode_reference rfl
  · exact decode_reference rfl
  · exact decode_reference rfl
  · next hcontent hvalue _ _ _ =>
    refine decode_cons ?_
    rintro rfl
    cases place with
    | content => exact hcontent rfl rfl
    | value => exact hvalue rfl rfl

/-- An escaped text is read back, whatever follows it. -/
theorem decode_escape (place : Place) (s : String) (rest : List Char) :
    decode ((escape place s).toList ++ rest) = s.toList ++ decode rest := by
  rw [escape, String.toList_ofList]
  induction s.toList with
  | nil => rfl
  | cons c cs ih =>
    rw [List.flatMap_cons, List.append_assoc, decode_escapeChar, ih, List.cons_append]

end Reference

theorem lt_not_mem_escape (s : String) : '<' ∉ (escape .content s).toList := by
  rw [escape, String.toList_ofList, List.mem_flatMap]
  rintro ⟨c, _, hc⟩
  by_cases hlt : c = '<'
  · subst hlt
    exact absurd hc (by decide)
  · unfold escapeChar at hc
    split at hc
    · exact absurd hc (by decide)
    · exact absurd hc (by decide)
    · exact hlt rfl
    · exact absurd hc (by decide)
    · exact absurd hc (by decide)
    · exact hlt (List.mem_singleton.mp hc).symm

theorem quote_not_mem_escape (s : String) : '"' ∉ (escape .value s).toList := by
  rw [escape, String.toList_ofList, List.mem_flatMap]
  rintro ⟨c, _, hc⟩
  by_cases hquote : c = '"'
  · subst hquote
    exact absurd hc (by decide)
  · unfold escapeChar at hc
    split at hc
    · exact absurd hc (by decide)
    · exact absurd hc (by decide)
    · exact absurd hc (by decide)
    · exact absurd hc (by decide)
    · exact hquote rfl
    · exact hquote (List.mem_singleton.mp hc).symm

end LiveMarkup.Markup
