/-!
# Writing text and values as markup

Text content and attribute values are written so that reading them gives them back. In
text the characters `&`, `<` and `>` are written as references; in a value, which stands
in double quotes, `&` and the quote are.
-/

namespace LiveMarkup.Markup

/-- Where a text is written. -/
inductive Place where
  | content
  | value
deriving DecidableEq, Repr

/-- A character as it is written in that place. -/
def escapeChar : Place → Char → List Char
  | .content, '&' | .value, '&' => "&amp;".toList
  | .content, '<' => "&lt;".toList
  | .content, '>' => "&gt;".toList
  | .value, '"' => "&quot;".toList
  | _, c => [c]

/-- A text as it is written in that place. -/
def escape (place : Place) (s : String) : String :=
  String.ofList (s.toList.flatMap (escapeChar place))

end LiveMarkup.Markup
