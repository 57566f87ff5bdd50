/-!
# Names

Tag and attribute names share one class of characters, all of them ASCII: letters,
digits, `-`, `_` and `:`. A tag is read only where a letter follows `<`, and names are
read in lower case, so a name reads back as it is exactly when it has no capitals and,
for a tag, starts with a letter.
-/

namespace LiveMarkup.Markup

/-- The characters of tag and attribute names. -/
def isNameChar (c : Char) : Bool :=
  c.isAlphanum || c == '-' || c == '_' || c == ':'

/-- Attribute names that read back as they are: not empty, name characters only, no
capitals. -/
def isAttributeName (name : String) : Bool :=
  !name.toList.isEmpty && name.toList.all fun c => isNameChar c && !c.isUpper

/-- Tag names that read back as they are: attribute names that start with a letter. -/
def isTagName (name : String) : Bool :=
  name.toList.head?.any Char.isAlpha && isAttributeName name

/-- The elements that have no content and no end tag. -/
def voidElements : List String :=
  ["area", "base", "br", "col", "embed", "hr", "img", "input", "link", "meta", "param",
   "source", "track", "wbr"]

/-- Whether an element of this name stays empty. -/
def isVoid (name : String) : Bool := voidElements.contains name

/-- The elements whose content is taken as it stands up to their end tag. -/
def isRawText (name : String) : Bool := name == "script" || name == "style"

/-- A name as it is read: ASCII capitals become small letters. -/
def lowerName (name : String) : String := String.ofList (name.toList.map Char.toLower)

theorem isAttributeName_of_isTagName {name : String} (h : isTagName name = true) :
    isAttributeName name = true := by
  simp only [isTagName, Bool.and_eq_true] at h
  exact h.2

theorem isRawText_iff {name : String} :
    isRawText name = true ↔ name = "script" ∨ name = "style" := by
  simp [isRawText]

/-- A raw-text element is not void: it has a body to read. -/
theorem isVoid_eq_false_of_isRawText {name : String} (h : isRawText name = true) :
    isVoid name = false := by
  rcases isRawText_iff.1 h with rfl | rfl <;> decide

end LiveMarkup.Markup
