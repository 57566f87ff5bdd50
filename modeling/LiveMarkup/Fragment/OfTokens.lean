import LiveMarkup.Fragment.Basic
import LiveMarkup.Markup.Token

/-!
# Building a fragment from tokens

Tokens are added one by one at the innermost open element, or at the root when none is
open. An end tag closes the nearest open element of its name and all elements opened
since; one that names no open element is ignored. Elements still open at the end are
closed by the end. No list of tokens is refused.
-/

namespace LiveMarkup.Fragment

/-- A fragment under construction, with its open elements, the innermost first. -/
structure Draft where
  fragment : Fragment
  opened : List (Nat × String)
deriving Repr

namespace Draft

/-- The node that the next token is added to. -/
def place (d : Draft) : Nat := (d.opened.head?.map Prod.fst).getD root

/-- The open elements after an end tag. -/
def closeAt (name : String) (opened : List (Nat × String)) : List (Nat × String) :=
  if opened.any (·.2 = name) then (opened.dropWhile (·.2 ≠ name)).drop 1 else opened

end Draft

/-- One attribute for each name, with the first of the values written for it. An attribute
without a value has the empty one. -/
def distinctAttributes : List (String × Option String) → List (String × String)
  | [] => []
  | (name, value) :: rest =>
    (name, value.getD "") :: (distinctAttributes rest).filter (·.1 ≠ name)

/-- Adds one token. -/
def Draft.add (d : Draft) : Markup.Token → Draft
  | .doctype text => { d with fragment := d.fragment.attach d.place (.directive text) }
  | .comment text => { d with fragment := d.fragment.attach d.place (.comment text) }
  | .text content => { d with fragment := d.fragment.attachText d.place content }
  | .startTag name attributes selfClosing =>
    { fragment := d.fragment.attach d.place (.tag name (distinctAttributes attributes))
      opened := if selfClosing then d.opened else (d.fragment.size, name) :: d.opened }
  | .endTag name => { d with opened := Draft.closeAt name d.opened }

/-- The fragment of a list of tokens. -/
def ofTokens (tokens : List Markup.Token) : Fragment :=
  (tokens.foldl Draft.add ⟨empty, []⟩).fragment

/-- The fragment of a text of markup. -/
def ofMarkup (markup : String) : Fragment := ofTokens (Markup.Token.scan markup)

end LiveMarkup.Fragment
