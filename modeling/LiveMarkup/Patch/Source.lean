import LiveMarkup.Text.Quoted
import LiveMarkup.Text.Utf8

/-!
# Sources of markup

What a patch is compiled from: a text of markup, bytes that are read as UTF-8, or an
element of a live tree, which gives its own markup.
-/

namespace LiveMarkup.Patch

/-- A source of markup. An element is given by the markup that it writes. -/
inductive Source where
  | markup (text : String)
  | bytes (octets : List UInt8)
  | element (outer : String)
deriving DecidableEq, Repr

namespace Source

/-- The text of a value as markup. -/
def display {α : Type} [ToString α] (value : α) : Source := .markup (toString value)

/-- The markup of a source. -/
def toMarkup : Source → String
  | .markup text => text
  | .bytes octets => String.ofList (Text.decodeUtf8 octets)
  | .element outer => outer

/-- A source in a message. Only markup is shown; bytes are counted. -/
def describe : Source → String
  | .markup text => "Markup(" ++ Text.quoted text ++ ")"
  | .bytes octets => "Bytes(" ++ toString octets.length ++ " bytes)"
  | .element _ => "Element(..)"

end Source

end LiveMarkup.Patch
