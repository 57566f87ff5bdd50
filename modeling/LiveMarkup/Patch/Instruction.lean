import LiveMarkup.Text.Quoted

/-!
# Instructions of a patch

A patch is a program of four kinds of instruction that rebuild the content of a container
from front to back. Every element is opened with a key, by which a later replay knows it
again. The type of keys is a parameter: while a patch is compiled, some keys are still to
be chosen.
-/

namespace LiveMarkup

namespace Patch

/-- Where a key comes from: from the markup, or from the compiler. -/
inductive Origin where
  | explicit
  | generated
deriving DecidableEq, Repr, Inhabited

/-- The identity of an element across replays. -/
structure Key where
  value : String
  origin : Origin
deriving DecidableEq, Repr, Inhabited

namespace Key

/-- A key that the markup gives. -/
def explicit (value : String) : Key := ⟨value, .explicit⟩

/-- A key that the compiler chose. -/
def generated (value : String) : Key := ⟨value, .generated⟩

end Key

/-- One step of a program. -/
inductive Instruction (κ : Type) where
  | openTag (name : String) (key : κ) (attributes : List (String × String))
  | closeTag (name : String)
  | text (content : String)
  | skip
deriving DecidableEq, Repr, Inhabited

namespace Instruction

variable {κ ι : Type}

/-- Applies a function to the key, if there is one. -/
def mapKey (f : κ → ι) : Instruction κ → Instruction ι
  | .openTag name key attributes => .openTag name (f key) attributes
  | .closeTag name => .closeTag name
  | .text content => .text content
  | .skip => .skip

/-- Whether the instruction opens an element. -/
def isOpen : Instruction κ → Bool
  | .openTag _ _ _ => true
  | _ => false

/-- Whether the instruction closes an element. -/
def isClose : Instruction κ → Bool
  | .closeTag _ => true
  | _ => false

/-- Whether the instruction emits a text. -/
def isText : Instruction κ → Bool
  | .text _ => true
  | _ => false

/-- Whether the instruction passes over what is there. -/
def isSkip : Instruction κ → Bool
  | .skip => true
  | _ => false

end Instruction

/-- How a listing shows keys: all in full, or those of the compiler as `*`. -/
inductive KeyDisplay where
  | full
  | masked
deriving DecidableEq, Repr

/-- A key in a listing. -/
def Key.display (keys : KeyDisplay) (key : Key) : String :=
  if keys = .masked ∧ key.origin = .generated then "*" else Text.quoted key.value

/-- An instruction on one line. -/
def Instruction.line (keys : KeyDisplay) : Instruction Key → String
  | .openTag name key attributes =>
    "open " ++ name ++ " key=" ++ key.display keys ++
      String.join (attributes.map fun (name, value) => " " ++ name ++ "=" ++ Text.quoted value)
  | .closeTag name => "close " ++ name
  | .text content => "text " ++ Text.quoted content
  | .skip => "skip"

end Patch

/-- A program that rebuilds the content of a container. -/
structure Patch where
  instructions : List (Patch.Instruction Patch.Key)
deriving DecidableEq, Repr, Inhabited

namespace Patch

/-- The number of instructions. -/
def size (p : Patch) : Nat := p.instructions.length

/-- Whether the program does nothing but empty the container. -/
def isEmpty (p : Patch) : Bool := p.instructions.isEmpty

/-- The number of elements, texts and skips of a program. -/
structure Stats where
  elements : Nat
  texts : Nat
  skips : Nat
deriving DecidableEq, Repr

/-- Counts the instructions that make or keep content. -/
def stats (p : Patch) : Stats where
  elements := p.instructions.countP Instruction.isOpen
  texts := p.instructions.countP Instruction.isText
  skips := p.instructions.countP Instruction.isSkip

/-- The lines of instructions that start at the given depth. An element's instructions stand
one level below its open and close; a close without an open stays at the margin. -/
def listingFrom (keys : KeyDisplay) : (depth : Nat) → List (Instruction Key) → List String
  | _, [] => []
  | depth, i :: rest =>
    let here := if i.isClose then depth - 1 else depth
    let below := if i.isOpen then here + 1 else here
    (String.ofList (List.replicate (2 * here) ' ') ++ i.line keys) :: listingFrom keys below rest

/-- The program with one instruction on each line. -/
def listing (keys : KeyDisplay) (p : Patch) : List String :=
  listingFrom keys 0 p.instructions

end Patch

end LiveMarkup
