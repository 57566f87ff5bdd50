import LiveMarkup.Text.Quoted

/-!
# Handles of live nodes, and refusals

A node of a live tree sits in a numbered slot. When it is removed its slot may be given to
another node; the handle of a node therefore also tells the generation of the slot, which
grows with every node that the slot is given to.
-/

namespace LiveMarkup.Live

/-- The name of a live node: its slot, and the generation of the slot when it got it. -/
structure Handle where
  slot : Nat
  generation : Nat
deriving DecidableEq, Repr, Inhabited

namespace Handle

/-- The handle of the root of every tree. -/
def root : Handle := ⟨0, 0⟩

/-- A handle in a message. The first generation is not shown. -/
def display (h : Handle) : String :=
  if h.generation = 0 then toString h.slot
  else toString h.slot ++ "v" ++ toString h.generation

end Handle

/-- Why a tree refuses a call. -/
inductive Error where
  /-- The node was never there or has been removed. -/
  | unknownNode (node : Handle)
  /-- Texts and void elements have no children. -/
  | notContainer (node : Handle)
  /-- A raw-text element takes a single text that does not contain its end tag. -/
  | rawTextContent (parent : Handle)
  /-- The name would not be read back as it is. -/
  | invalidName (name : String)
  /-- Only elements have keys and attributes. -/
  | notElement (node : Handle)
  /-- An instruction is given while no transaction is running. -/
  | noTransaction
  /-- A transaction is begun while another one is running. -/
  | nestedTransaction
  /-- An element is closed under the name of another. -/
  | tagMismatch (expected found : String)
  /-- A close has no open element. -/
  | unbalancedClose (tag : String)
  /-- The transaction ends while an element is open. -/
  | unclosedElement (tag : String)
  /-- The child is the root, the parent itself or an ancestor of it. -/
  | cycle (parent child : Handle)
  /-- The next child of the open container would leave a gap behind the children that it
  has. This comes about only when a body moves children away that it has visited, and
  nothing goes on from it. -/
  | gap (parent : Handle)
deriving DecidableEq, Repr

namespace Error

/-- The message of a refusal. -/
def message : Error → String
  | .unknownNode node => "unknown node " ++ node.display
  | .notContainer node => "node " ++ node.display ++ " cannot have children"
  | .rawTextContent parent =>
    "node " ++ parent.display ++ " only takes one text child without its end tag"
  | .invalidName name => "invalid element or attribute name " ++ Text.quoted name
  | .notElement node => "node " ++ node.display ++ " is not an element"
  | .noTransaction => "no patch transaction is running"
  | .nestedTransaction => "a patch transaction is already running"
  | .tagMismatch expected found => "close of `" ++ found ++ "` while `" ++ expected ++ "` is open"
  | .unbalancedClose tag => "close of `" ++ tag ++ "` with no open element"
  | .unclosedElement tag => "transaction ended with `" ++ tag ++ "` still open"
  | .cycle parent child =>
    "appending node " ++ child.display ++ " to node " ++ parent.display ++ " would create a cycle"
  | .gap parent => "no child of node " ++ parent.display ++ " precedes its next child"

end Error

end LiveMarkup.Live
