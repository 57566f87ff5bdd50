import LiveMarkup.Markup.Name
import LiveMarkup.Text.Blank
import LiveMarkup.Text.Search

/-!
# Raw text

The body of a `script` or `style` element is not markup. It runs up to the first end tag
of that element, in any case and with white space allowed before its `>`; what looks
like a tag or a reference before that is content.
-/

namespace LiveMarkup.Markup

/-- What follows an end tag of the element where the input starts with one. -/
def afterEndTag? (element : String) (cs : List Char) : Option (List Char) :=
  match (Text.afterWord? ('<' :: '/' :: element.toList) cs).map (·.dropWhile Text.isSpace) with
  | some ('>' :: rest) => some rest
  | _ => none

/-- Cuts the input around the first end tag of the element. -/
def splitRawText? (element : String) (cs : List Char) : Option (List Char × List Char) :=
  Text.splitFirst? (afterEndTag? element) cs

/-- Whether `text`, written as it stands into the element, would end it early. Only
raw-text elements can be ended by their text. -/
def endsRawText (element text : String) : Bool :=
  isRawText element && (splitRawText? element text.toList).isSome

theorem suffix_of_afterEndTag? {element : String} {cs rest : List Char}
    (h : afterEndTag? element cs = some rest) : rest <:+ cs := by
  simp only [afterEndTag?] at h
  split at h
  · next tail htail =>
    cases h
    obtain ⟨r, hr, heq⟩ := Option.map_eq_some_iff.1 htail
    have hcons : rest <:+ '>' :: rest := List.suffix_cons _ _
    rw [← heq] at hcons
    exact hcons.trans ((List.dropWhile_suffix _).trans (Text.suffix_of_afterWord? hr))
  · cases h

theorem suffix_of_splitRawText? {element : String} {cs body rest : List Char}
    (h : splitRawText? element cs = some (body, rest)) : rest <:+ cs :=
  Text.suffix_of_splitFirst? suffix_of_afterEndTag? h

end LiveMarkup.Markup
