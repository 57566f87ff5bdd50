import LiveMarkup.Markup.Name
import Mathlib

/-!
# Reading names

Names are read in lower case, and what is read is a name again. A name without capitals
reads back as it is, and none of its characters has a meaning of its own in a tag.
-/

namespace LiveMarkup.Markup

theorem toLower_eq_self {c : Char} (h : c.isUpper = false) : c.toLower = c :=
  Char.toLower_eq_of_not_isUpper (by simp [h])

theorem isNameChar_of_isAlpha {c : Char} (h : c.isAlpha = true) : isNameChar c = true := by
  simp [isNameChar, Char.isAlphanum, h]

theorem isNameChar_toLower {c : Char} (h : isNameChar c = true) :
    isNameChar c.toLower = true := by
  cases hc : c.isUpper with
  | true => exact isNameChar_of_isAlpha (by simp [Char.isAlpha, hc])
  | false => rwa [toLower_eq_self hc]

theorem isAttributeName_iff {name : String} : isAttributeName name = true ↔
    name.toList ≠ [] ∧ ∀ c ∈ name.toList, isNameChar c = true ∧ c.isUpper = false := by
  simp [isAttributeName]

/-- What is read as a name is one. -/
theorem isAttributeName_ofList {cs : List Char} (hne : cs ≠ [])
    (hcs : ∀ c ∈ cs, isNameChar c = true) :
    isAttributeName (String.ofList (cs.map Char.toLower)) = true := by
  rw [isAttributeName_iff, String.toList_ofList]
  refine ⟨by simpa using hne, fun c hc => ?_⟩
  obtain ⟨d, hd, rfl⟩ := List.mem_map.mp hc
  exact ⟨isNameChar_toLower (hcs d hd), Char.isUpper_toLower_eq_false d⟩

theorem isTagName_ofList {c : Char} {cs : List Char} (hc : c.isAlpha = true)
    (hcs : ∀ d ∈ cs, isNameChar d = true) :
    isTagName (String.ofList ((c :: cs).map Char.toLower)) = true := by
  have hname : isAttributeName (String.ofList ((c :: cs).map Char.toLower)) = true := by
    refine isAttributeName_ofList (List.cons_ne_nil c cs) fun d hd => ?_
    rcases List.mem_cons.mp hd with rfl | hd
    · exact isNameChar_of_isAlpha hc
    · exact hcs d hd
  rw [isTagName, hname, String.toList_ofList, List.map_cons, List.head?_cons, Option.any_some,
    Char.isAlpha_toLower_eq_isAlpha, hc, Bool.and_self]

/-- The names of raw-text elements are read back as all others are. -/
theorem isTagName_of_isRawText {name : String} (h : isRawText name = true) :
    isTagName name = true := by
  rcases isRawText_iff.mp h with rfl | rfl
  · decide
  · decide

/-- A name without capitals is what it is read as. -/
theorem map_toLower_of_isAttributeName {name : String} (h : isAttributeName name = true) :
    name.toList.map Char.toLower = name.toList := by
  refine (List.map_congr_left fun c hc => ?_).trans (List.map_id _)
  exact toLower_eq_self ((isAttributeName_iff.mp h).2 c hc).2

end LiveMarkup.Markup
