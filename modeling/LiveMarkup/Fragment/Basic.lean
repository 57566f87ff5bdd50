import LiveMarkup.Walk

/-!
# Fragments

A fragment is a tree of tags, texts, comments and directives below one root, stored as an
arena in which a node is named by its index. Nodes are only ever added, each as the last
child of a node that is already there, so a parent has a smaller index than its children.

`append` refuses a second root, an unknown parent and a parent that cannot have children;
`attach` is what it does where nothing is refused.
-/

namespace LiveMarkup

namespace Fragment

/-- What a node of a fragment is. -/
inductive Kind where
  | root
  | tag (name : String) (attributes : List (String × String))
  | text (data : String)
  | comment (data : String)
  | directive (data : String)
deriving DecidableEq, Repr, Inhabited

namespace Kind

/-- The word for a kind in messages. -/
def label : Kind → String
  | .root => "root"
  | .tag _ _ => "tag"
  | .text _ => "text"
  | .comment _ => "comment"
  | .directive _ => "directive"

/-- The root and tags are the nodes that can have children. -/
def isContainer : Kind → Bool
  | .root | .tag _ _ => true
  | .text _ | .comment _ | .directive _ => false

/-- The value of the first attribute of that name. Only tags have attributes. -/
def attribute? (name : String) : Kind → Option String
  | .tag _ attributes => attributes.lookup name
  | _ => none

end Kind

/-- A node with its links. -/
structure Node where
  kind : Kind
  parent : Option Nat
  children : List Nat
deriving DecidableEq, Repr, Inhabited

/-- Why a node cannot be added. -/
inductive AppendError where
  | secondRoot
  | unknownParent (id : Nat)
  | leafParent (kind : Kind)
deriving DecidableEq, Repr

namespace AppendError

/-- The message of a refusal. Naming a parent that does not exist has none. -/
def message : AppendError → Option String
  | .secondRoot => some "source tree has exactly one root"
  | .leafParent kind => some (kind.label ++ " node cannot have children")
  | .unknownParent _ => none

end AppendError

end Fragment

/-- A tree of markup nodes. The node at index 0 is the root. -/
structure Fragment where
  nodes : Array Fragment.Node
deriving DecidableEq, Repr

namespace Fragment

/-- The index of the root. -/
def root : Nat := 0

/-- The fragment that is only a root. -/
def empty : Fragment := ⟨#[⟨.root, none, []⟩]⟩

instance : Inhabited Fragment := ⟨empty⟩

/-- The number of nodes, the root included. -/
def size (t : Fragment) : Nat := t.nodes.size

/-- The node at an index. -/
def node? (t : Fragment) (id : Nat) : Option Node := t.nodes[id]?

/-- The kind of the node at an index. -/
def kind? (t : Fragment) (id : Nat) : Option Kind := (t.node? id).map Node.kind

/-- The children of a node in order; none for an unknown index. -/
def children (t : Fragment) (id : Nat) : List Nat := ((t.node? id).map Node.children).getD []

/-- The parent of a node; the root has none. -/
def parent? (t : Fragment) (id : Nat) : Option Nat := (t.node? id).bind Node.parent

/-- Whether there is nothing below the root. -/
def isEmpty (t : Fragment) : Bool := (t.children root).isEmpty

/-- Adds a node as the last child of `parent`. The new node gets the next free index, which
is the old size. -/
def attach (t : Fragment) (parent : Nat) (kind : Kind) : Fragment :=
  ⟨(t.nodes.modify parent fun n => { n with children := n.children ++ [t.size] }).push
    ⟨kind, some parent, []⟩⟩

/-- Adds a node as the last child of `parent` and answers its index. -/
def append (t : Fragment) (parent : Nat) (kind : Kind) : Except AppendError (Nat × Fragment) :=
  if kind = .root then .error .secondRoot
  else
    match t.kind? parent with
    | none => .error (.unknownParent parent)
    | some parentKind =>
      if parentKind.isContainer then .ok (t.size, t.attach parent kind)
      else .error (.leafParent parentKind)

/-- The last child of a node if that is a text, with its data. -/
def trailingText? (t : Fragment) (parent : Nat) : Option (Nat × String) :=
  match (t.children parent).getLast? with
  | none => none
  | some last =>
    match t.kind? last with
    | some (.text data) => some (last, data)
    | _ => none

/-- Replaces the data of the text node at an index. -/
def setText (t : Fragment) (id : Nat) (data : String) : Fragment :=
  ⟨t.nodes.modify id fun n => { n with kind := .text data }⟩

/-- Adds text at the end of `parent`: to the text that is its last child, or as a new node.
Empty text adds nothing. -/
def attachText (t : Fragment) (parent : Nat) (text : String) : Fragment :=
  if text = "" then t
  else
    match t.trailingText? parent with
    | some (last, data) => t.setText last (data ++ text)
    | none => t.attach parent (.text text)

/-- Adds text at the end of `parent` and answers the index of the node that holds it, `none`
for empty text. -/
def appendText (t : Fragment) (parent : Nat) (text : String) :
    Except AppendError (Option Nat × Fragment) :=
  if text = "" then .ok (none, t)
  else
    match t.kind? parent with
    | none => .error (.unknownParent parent)
    | some _ =>
      match t.trailingText? parent with
      | some (last, data) => .ok (some last, t.setText last (data ++ text))
      | none => (t.append parent (.text text)).map fun (id, t) => (some id, t)

/-- The indices of all nodes below the root in document order. -/
def preorder (t : Fragment) : List Nat :=
  walk (fun id => ([id], t.children id)) t.size (t.children root)

@[simp] theorem size_empty : empty.size = 1 := rfl

@[simp] theorem size_attach (t : Fragment) (parent : Nat) (kind : Kind) :
    (t.attach parent kind).size = t.size + 1 := by
  simp [attach, size]

@[simp] theorem size_setText (t : Fragment) (id : Nat) (data : String) :
    (t.setText id data).size = t.size := by
  simp [setText, size]

/-- The node that `attach` adds is found under the old size. -/
theorem node?_attach_size (t : Fragment) (parent : Nat) (kind : Kind) :
    (t.attach parent kind).node? t.size = some ⟨kind, some parent, []⟩ := by
  simp only [attach, node?, Array.getElem?_push, Array.size_modify]
  simp [size]

end Fragment

end LiveMarkup
