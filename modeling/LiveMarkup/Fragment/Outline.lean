import LiveMarkup.Fragment.Basic
import LiveMarkup.Text.Blank

/-!
# Outlines

An outline shows a fragment with one indented line for each node, as far as a given
number of lines. Text is trimmed and shortened, and blank text has no line, so an outline
tells the structure of a fragment and not its exact content.
-/

namespace LiveMarkup.Fragment

/-- The number of characters of a text or comment that an outline shows. -/
def previewWidth : Nat := 40

/-- The start of a text on one line, with an ellipsis where something is left out. -/
def preview (cs : List Char) : List Char :=
  (cs.take previewWidth).map (fun c => if c = '\n' then ' ' else c) ++
    if cs.length ≤ previewWidth then [] else ['…']

/-- The `id` and `class` of a tag as an outline shows them: those that are not empty. -/
def outlineAttributes (kind : Kind) : String :=
  String.join <| ["id", "class"].filterMap fun name =>
    match kind.attribute? name with
    | some value => if value = "" then none else some (" " ++ name ++ "=\"" ++ value ++ "\"")
    | none => none

/-- The line of a node without its indentation; blank text has none. -/
def outlineEntry? (kind : Kind) : Option String :=
  match kind with
  | .root => some "#root"
  | .tag name _ => some ("<" ++ name ++ outlineAttributes kind ++ ">")
  | .text data =>
    let trimmed := Text.trim data.toList
    if trimmed.isEmpty then none else some ("\"" ++ String.ofList (preview trimmed) ++ "\"")
  | .comment data => some ("<!-- " ++ String.ofList (preview data.toList) ++ " -->")
  | .directive data => some ("<!" ++ data ++ ">")

/-- Two blanks for each level. -/
def indent (depth : Nat) : String := String.ofList (List.replicate (2 * depth) ' ')

/-- The lines of a work list of nodes with their depths, as long as there is room; `none` is
room without end. -/
def outlineFrom (t : Fragment) :
    (steps : Nat) → (room : Option Nat) → List (Nat × Nat) → List String
  | 0, _, _ => []
  | _ + 1, _, [] => []
  | steps + 1, room, (id, depth) :: later =>
    if room = some 0 then []
    else
      match (t.kind? id).bind outlineEntry? with
      | none => outlineFrom t steps room later
      | some entry =>
        (indent depth ++ entry) :: outlineFrom t steps (room.map (· - 1))
          ((t.children id).map (·, depth + 1) ++ later)

/-- The outline of a fragment in at most `cap` lines. -/
def outline (t : Fragment) (cap : Option Nat) : List String :=
  outlineFrom t t.size cap ((t.children root).map (·, 0))

end LiveMarkup.Fragment
