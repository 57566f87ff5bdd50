import LiveMarkup.Live.Error
import LiveMarkup.Markup.RawText
import LiveMarkup.Walk

/-!
# Live trees

A live tree is an arena of slots. A live slot holds a node with its links. A slot that is
freed keeps a record, from which the links are cleared, and waits for reuse, the one freed
last in front. The next node takes the record over and changes only what kind of node it is,
so it is for the freed slots to have no links (`Cleared`). A slot whose generation has
reached the limit is never reused. The nodes that no parent links are detached trees, apart
from the root in slot 0.

Every look-up goes through a handle and finds nothing once the node is removed, even when
its slot has a new occupant. What is done to a slot whoever occupies it goes through
`resident`, the handle of the present occupant.
-/

namespace LiveMarkup.Live

/-- What a live node is. -/
inductive Kind where
  | root
  | element (name : String) (key : Option String) (attributes : List (String × String))
  | text (content : String)
deriving DecidableEq, Repr, Inhabited

namespace Kind

/-- The name of an element. -/
def name? : Kind → Option String
  | .element name _ _ => some name
  | _ => none

/-- The content of a text. -/
def text? : Kind → Option String
  | .text content => some content
  | _ => none

/-- The root and all elements that are not void can have children. -/
def isContainer : Kind → Bool
  | .root => true
  | .element name _ _ => !Markup.isVoid name
  | .text _ => false

/-- Whether a container takes a child at this index. The child is given by its text, or as
`none` for an element. Raw-text elements take one text, which must not end them; all
others take any child. -/
def takes (index : Nat) (child : Option String) : Kind → Bool
  | .element name _ _ =>
    !Markup.isRawText name || (index == 0 && child.any fun text => !Markup.endsRawText name text)
  | _ => true

end Kind

/-- A live node with its links. -/
structure Node where
  kind : Kind
  parent : Option Handle
  children : List Handle
deriving DecidableEq, Repr, Inhabited

/-- A place for a node. The generation is that of the last node it was given to, and the
record is that node while the slot is live. -/
structure Slot where
  generation : Nat
  live : Bool
  record : Node
deriving DecidableEq, Repr, Inhabited

namespace Slot

/-- The node that a live slot holds. -/
def occupant (slot : Slot) : Option Node := if slot.live then some slot.record else none

/-- The slot with its node changed, if it is live and in this generation. -/
def update (generation : Nat) (f : Node → Node) (slot : Slot) : Slot :=
  if slot.live ∧ slot.generation = generation then { slot with record := f slot.record }
  else slot

/-- The slot of a node that is removed. Its record is an empty text without links. -/
def clear (slot : Slot) : Slot := { slot with live := false, record := ⟨.text "", none, []⟩ }

/-- The slot in its next generation, given to a new node. The links of the record stay. -/
def reuse (kind : Kind) (slot : Slot) : Slot :=
  { generation := slot.generation + 1, live := true, record := { slot.record with kind := kind } }

variable {generation : Nat} {f : Node → Node} {slot : Slot}

@[simp] theorem isSome_occupant : slot.occupant.isSome = slot.live := by
  rw [occupant]
  split <;> simp_all

@[simp] theorem update_generation : (slot.update generation f).generation = slot.generation := by
  rw [update]
  split <;> rfl

@[simp] theorem update_live : (slot.update generation f).live = slot.live := by
  rw [update]
  split <;> rfl

theorem update_of_dead (hdead : slot.live = false) : slot.update generation f = slot := by
  simp [update, hdead]

theorem occupant_update : (slot.update generation f).occupant =
    if slot.generation = generation then slot.occupant.map f else slot.occupant := by
  by_cases hgeneration : slot.generation = generation
  · cases hlive : slot.live <;> simp [update, occupant, hlive, hgeneration]
  · simp [update, hgeneration]

@[simp] theorem occupant_clear : slot.clear.occupant = none := rfl

end Slot

/-- The last generation of a slot. -/
def lastGeneration : Nat := UInt32.size - 1

/-- An open container of a running transaction, with the index of its next child. -/
structure Frame where
  node : Handle
  cursor : Nat
deriving DecidableEq, Repr, Inhabited

/-- A live tree. The frames are those of the open containers, the innermost in front, and a
flag tells whether a transaction is running. -/
structure Tree where
  slots : Array Slot
  free : List Nat
  frames : List Frame
  running : Bool
deriving DecidableEq, Repr

namespace Tree

/-- The tree that is only a root. -/
def new : Tree := ⟨#[⟨0, true, ⟨.root, none, []⟩⟩], [], [], false⟩

instance : Inhabited Tree := ⟨new⟩

/-- The node that a handle names, while it is there. -/
def node? (t : Tree) (h : Handle) : Option Node :=
  match t.slots[h.slot]? with
  | some slot => if slot.generation = h.generation then slot.occupant else none
  | none => none

/-- The handle of what a slot holds or held last. -/
def resident (t : Tree) (slot : Nat) : Handle :=
  ⟨slot, (t.slots[slot]?.map Slot.generation).getD 0⟩

/-- Whether a handle still names a node. -/
def isLive (t : Tree) (h : Handle) : Bool := (t.node? h).isSome

/-- The children of a node in order; none for an unknown node. -/
def children (t : Tree) (h : Handle) : List Handle := ((t.node? h).map Node.children).getD []

/-- The parent of a node; the root and detached nodes have none. -/
def parent? (t : Tree) (h : Handle) : Option Handle := (t.node? h).bind Node.parent

/-- The name of an element. -/
def elementName? (t : Tree) (h : Handle) : Option String := (t.node? h).bind (·.kind.name?)

/-- The key of an element that has one. -/
def key? (t : Tree) (h : Handle) : Option String :=
  match (t.node? h).map Node.kind with
  | some (.element _ key _) => key
  | _ => none

/-- The attributes of an element in order. -/
def attributes (t : Tree) (h : Handle) : List (String × String) :=
  match (t.node? h).map Node.kind with
  | some (.element _ _ attributes) => attributes
  | _ => []

/-- The value of an element's first attribute of that name. -/
def attribute? (t : Tree) (h : Handle) (name : String) : Option String :=
  (t.attributes h).lookup name

/-- The content of a text. -/
def text? (t : Tree) (h : Handle) : Option String := (t.node? h).bind (·.kind.text?)

/-- The number of nodes, the root and detached nodes included. -/
def liveCount (t : Tree) : Nat := t.slots.toList.countP Slot.live

/-- The number of slots. -/
def capacity (t : Tree) : Nat := t.slots.size

/-- The first of the given number of nodes on the way up from a node's parent. -/
def ancestorsFrom (t : Tree) : (steps : Nat) → Option Handle → List Handle
  | 0, _ => []
  | _ + 1, none => []
  | steps + 1, some h => h :: ancestorsFrom t steps (t.parent? h)

/-- The nodes above a node, its parent first. The way up meets no slot twice. -/
def ancestors (t : Tree) (h : Handle) : List Handle := t.ancestorsFrom t.capacity (t.parent? h)

/-- Changes the node that a handle names; without one, nothing. -/
def modify (t : Tree) (h : Handle) (f : Node → Node) : Tree :=
  { t with slots := t.slots.modify h.slot (Slot.update h.generation f) }

/-- Gives a slot to a new node: the slot freed last, in its next generation and with the links
that its record has, or a new one without links. -/
def allocate (t : Tree) (kind : Kind) : Handle × Tree :=
  match t.free with
  | slot :: free =>
    (⟨slot, (t.resident slot).generation + 1⟩,
      { t with slots := t.slots.modify slot (Slot.reuse kind), free := free })
  | [] => (⟨t.slots.size, 0⟩, { t with slots := t.slots.push ⟨0, true, ⟨kind, none, []⟩⟩ })

/-- Frees the slot of a node and clears its record. -/
def release (t : Tree) (h : Handle) : Tree :=
  if t.isLive h then
    { t with
      slots := t.slots.modify h.slot Slot.clear
      free := if h.generation < lastGeneration then h.slot :: t.free else t.free }
  else t

/-- Takes a node out of the children of its parent. -/
def detach (t : Tree) (h : Handle) : Tree :=
  match t.parent? h with
  | none => t
  | some parent =>
    (t.modify parent fun n => { n with children := n.children.filter (· ≠ h) }).modify h
      fun n => { n with parent := none }

/-- Puts a detached node among the children of a parent, before those from the index on. -/
def link (t : Tree) (parent : Handle) (index : Nat) (h : Handle) : Tree :=
  (t.modify parent fun n =>
      { n with children := n.children.take index ++ h :: n.children.drop index }).modify h
    fun n => { n with parent := some parent }

/-- Removes the children of a node from the index on, with all that is below them. The last
child goes first, and a node goes before what is below it. -/
def truncate (t : Tree) (h : Handle) (start : Nat) : Tree :=
  let dropped := ((t.children h).drop start).reverse
  let removed := walk (fun h => ([h], (t.children h).reverse)) t.capacity dropped
  removed.foldl release (t.modify h fun n => { n with children := n.children.take start })

/-- Checks that a parent takes a child at the index; see `Kind.takes`. -/
def check (t : Tree) (parent : Handle) (index : Nat) (child : Option String) :
    Except Error Unit :=
  match t.node? parent with
  | none => .error (.unknownNode parent)
  | some node =>
    if !node.kind.isContainer then .error (.notContainer parent)
    else if node.kind.takes index child then .ok ()
    else .error (.rawTextContent parent)

end Tree

end LiveMarkup.Live
