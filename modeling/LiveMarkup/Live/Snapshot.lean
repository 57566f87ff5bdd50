import LiveMarkup.Live.Tree
import LiveMarkup.Text.Escape

/-!
# Snapshots

A snapshot shows a live tree with one indented line for each node. Texts and values are
escaped to ASCII on one line. Keys are shown on request, as if they were a first attribute.
-/

namespace LiveMarkup.Live.Tree

/-- A value of an element in a snapshot. -/
def snapshotField (name value : String) : String :=
  " " ++ name ++ "=\"" ++ Text.escapeForeign value ++ "\""

/-- The line of a node without its indentation. -/
def snapshotEntry (includeKeys : Bool) : Kind → String
  | .root => "#root"
  | .element name key attributes =>
    let shown := if includeKeys then (key.map (snapshotField "key")).getD "" else ""
    "<" ++ name ++ shown ++
      String.join (attributes.map fun (name, value) => snapshotField name value) ++ ">"
  | .text content => "\"" ++ Text.escapeForeign content ++ "\""

/-- What a node at a depth shows, and the nodes below it. -/
def visitSnapshot (t : Tree) (includeKeys : Bool) :
    Handle × Nat → List String × List (Handle × Nat)
  | (h, depth) =>
    match t.node? h with
    | none => ([], [])
    | some node =>
      ([String.ofList (List.replicate (2 * depth) ' ') ++ snapshotEntry includeKeys node.kind],
        node.children.map (·, depth + 1))

/-- The lines of a node and all below it. The root itself has no line. -/
def snapshot (t : Tree) (h : Handle) (includeKeys : Bool) : List String :=
  let places := if h = .root then (t.children h).map (·, 0) else [(h, 0)]
  walk (t.visitSnapshot includeKeys) t.capacity places

end LiveMarkup.Live.Tree
