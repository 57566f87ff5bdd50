import LiveMarkup.Live.Tree
import LiveMarkup.Patch.Replay

/-!
# Building a live tree by hand

The calls that make nodes and link them. Each of them leaves a tree, also when it is refused.
Names are taken in lower case.
-/

namespace LiveMarkup.Live.Tree

open Patch (Outcome)

/-- Makes a detached element without key and attributes. -/
def createElement (t : Tree) (name : String) : Except Error Handle × Tree :=
  let name := Markup.lowerName name
  if Markup.isTagName name then
    let (created, t) := t.allocate (.element name none [])
    (.ok created, t)
  else (.error (.invalidName name), t)

/-- Makes a detached text. -/
def createText (t : Tree) (content : String) : Handle × Tree := t.allocate (.text content)

/-- Makes `child` the last child of `parent`, wherever it was before. -/
def appendChild (t : Tree) (parent child : Handle) : Outcome Error Tree :=
  match t.node? parent, t.node? child with
  | none, _ => ⟨some (.unknownNode parent), t⟩
  | some _, none => ⟨some (.unknownNode child), t⟩
  | some above, some below =>
    match t.check parent (above.children.filter (· ≠ child)).length below.kind.text? with
    | .error e => ⟨some e, t⟩
    | .ok () =>
      if child = .root ∨ child = parent ∨ child ∈ t.ancestors parent then
        ⟨some (.cycle parent child), t⟩
      else
        let t := t.detach child
        ⟨none, t.link parent (t.children parent).length child⟩

/-- Replaces the value of the first attribute of that name, or adds the attribute. -/
def putAttribute (name value : String) : List (String × String) → List (String × String)
  | [] => [(name, value)]
  | (n, v) :: rest =>
    if n = name then (n, value) :: rest else (n, v) :: putAttribute name value rest

/-- Sets an attribute of an element. -/
def setAttribute (t : Tree) (h : Handle) (name value : String) : Outcome Error Tree :=
  match t.node? h with
  | none => ⟨some (.unknownNode h), t⟩
  | some node =>
    let name := Markup.lowerName name
    if !Markup.isAttributeName name then ⟨some (.invalidName name), t⟩
    else
      match node.kind with
      | .element tag key attributes =>
        ⟨none, t.modify h fun n =>
          { n with kind := .element tag key (putAttribute name value attributes) }⟩
      | _ => ⟨some (.notElement h), t⟩

/-- Sets the key of an element. -/
def setKey (t : Tree) (h : Handle) (key : String) : Outcome Error Tree :=
  match t.node? h with
  | none => ⟨some (.unknownNode h), t⟩
  | some node =>
    match node.kind with
    | .element tag _ attributes =>
      ⟨none, t.modify h fun n => { n with kind := .element tag (some key) attributes }⟩
    | _ => ⟨some (.notElement h), t⟩

end LiveMarkup.Live.Tree
