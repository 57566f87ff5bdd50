import LiveMarkup.Live.Tree
import LiveMarkup.Patch.Replay

/-!
# Transactions on a live tree

A transaction goes through the children of its target with a cursor, and through those of
each element it opens. An open looks for an element with its name and key, first at the
cursor, then among the later siblings, and makes a new one only when there is none; a text
takes over the text at the cursor or makes a new one. A close removes what the cursor has
not passed, a skip passes all that is there, and the end of the transaction removes what
is left behind the cursor of the target.

Content that would not be read back from its markup is refused. What happened before a
refusal stays, and one refusal leaves something behind: an open with a name that no
attribute can have has claimed its element already.
-/

namespace LiveMarkup.Live.Tree

open Patch (Outcome)

/-- Begins a transaction on a container. -/
def begin (target : Handle) (t : Tree) : Outcome Error Tree :=
  if t.running then ⟨some .nestedTransaction, t⟩
  else
    match t.node? target with
    | none => ⟨some (.unknownNode target), t⟩
    | some node =>
      if node.kind.isContainer then
        ⟨none, { t with frames := ⟨target, 0⟩ :: t.frames, running := true }⟩
      else ⟨some (.notContainer target), t⟩

/-- The frames that an instruction finds. Without a running transaction it finds none. -/
def openFrames (t : Tree) : List Frame := if t.running then t.frames else []

/-- Whether a node is an element with this name and key. -/
def isKeyed (t : Tree) (name key : String) (h : Handle) : Bool :=
  t.elementName? h = some name && t.key? h = some key

/-- The element that an open finds among the children from the cursor on. -/
def findKeyed? (t : Tree) (name key : String) (rest : List Handle) : Option Handle :=
  rest.find? (t.isKeyed name key)

/-- Moves a child up to the cursor, before the children that were skipped in looking for
it. -/
def bringForward (h : Handle) (cursor : Nat) (children : List Handle) : List Handle :=
  children.take cursor ++ h :: (children.drop cursor).erase h

/-- Finds or makes the element at the cursor of a frame. -/
def claim (t : Tree) (frame : Frame) (name key : String) : Except Error Handle × Tree :=
  match t.check frame.node frame.cursor none with
  | .error e => (.error e, t)
  | .ok () =>
    let siblings := t.children frame.node
    match t.findKeyed? name key (siblings.drop frame.cursor) with
    | some found =>
      (.ok found, t.modify frame.node fun n =>
        { n with children := bringForward found frame.cursor n.children })
    | none =>
      if !Markup.isTagName name then (.error (.invalidName name), t)
      else if siblings.length < frame.cursor then (.error (.gap frame.node), t)
      else
        let (created, t) := t.allocate (.element name (some key) [])
        (.ok created, t.link frame.node frame.cursor created)

/-- Gives an element exactly these attributes. -/
def replaceAttributes (t : Tree) (h : Handle) (attributes : List (String × String)) : Tree :=
  t.modify h fun n =>
    match n.kind with
    | .element name key _ => { n with kind := .element name key attributes }
    | _ => n

/-- Opens an element at the cursor and goes inside it. -/
def openElement (name key : String) (attributes : List (String × String)) (t : Tree) :
    Outcome Error Tree :=
  match t.openFrames with
  | [] => ⟨some .noTransaction, t⟩
  | frame :: outer =>
    match t.claim frame name key with
    | (.error e, t) => ⟨some e, t⟩
    | (.ok element, t) =>
      match attributes.find? fun (name, _) => !Markup.isAttributeName name with
      | some (name, _) => ⟨some (.invalidName name), t⟩
      | none =>
        ⟨none, { t.replaceAttributes element attributes with
          frames := ⟨element, 0⟩ :: { frame with cursor := frame.cursor + 1 } :: outer }⟩

/-- Closes the innermost element. What the slot of a frame holds now is taken for the open
element, whether or not the element itself is still there. -/
def closeElement (name : String) (t : Tree) : Outcome Error Tree :=
  match t.openFrames with
  | [] => ⟨some .noTransaction, t⟩
  | [_] => ⟨some (.unbalancedClose name), t⟩
  | frame :: outer =>
    let element := t.resident frame.node.slot
    match t.elementName? element with
    | some expected =>
      if expected = name then ⟨none, { t.truncate element frame.cursor with frames := outer }⟩
      else ⟨some (.tagMismatch expected name), t⟩
    | none => ⟨none, { t.truncate element frame.cursor with frames := outer }⟩

/-- Puts a text at the cursor and passes it. -/
def putText (content : String) (t : Tree) : Outcome Error Tree :=
  match t.openFrames with
  | [] => ⟨some .noTransaction, t⟩
  | frame :: outer =>
    match t.check frame.node frame.cursor (some content) with
    | .error e => ⟨some e, t⟩
    | .ok () =>
      let siblings := t.children frame.node
      let advanced := { frame with cursor := frame.cursor + 1 } :: outer
      match siblings[frame.cursor]?.filter fun h => (t.text? h).isSome with
      | some found =>
        ⟨none, { t.modify found fun n => { n with kind := .text content } with
          frames := advanced }⟩
      | none =>
        if siblings.length < frame.cursor then ⟨some (.gap frame.node), t⟩
        else
          let (created, t) := t.allocate (.text content)
          ⟨none, { t.link frame.node frame.cursor created with frames := advanced }⟩

/-- Passes all that the innermost container holds. -/
def skip (t : Tree) : Outcome Error Tree :=
  match t.openFrames with
  | [] => ⟨some .noTransaction, t⟩
  | frame :: outer =>
    let stop := (t.children (t.resident frame.node.slot)).length
    ⟨none, { t with frames := { frame with cursor := stop } :: outer }⟩

/-- Performs one instruction of a patch. -/
def perform : Patch.Instruction Patch.Key → Tree → Outcome Error Tree
  | .openTag name key attributes => openElement name key.value attributes
  | .closeTag name => closeElement name
  | .text content => putText content
  | .skip => skip

/-- Completes a transaction whose body went well. -/
def complete (t : Tree) : Outcome Error Tree :=
  match t.frames with
  | [] => ⟨some .noTransaction, t⟩
  | [frame] => ⟨none, t.truncate (t.resident frame.node.slot) frame.cursor⟩
  | frame :: _ =>
    ⟨some (.unclosedElement ((t.elementName? (t.resident frame.node.slot)).getD "#root")), t⟩

/-- Ends the running transaction, whether its body went well or raised an error. -/
def finish (raised : Option Error) (t : Tree) : Outcome Error Tree :=
  let ended : Outcome Error Tree :=
    match raised with
    | some e => ⟨some e, t⟩
    | none => t.complete
  ⟨ended.failure, { ended.state with frames := [], running := false }⟩

instance : Patch.Host Tree Handle Error where
  begin := begin
  perform := perform
  finish := finish

end LiveMarkup.Live.Tree
