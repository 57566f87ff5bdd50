import LiveMarkup.Fragment.OfTokens
import LiveMarkup.Patch.Instruction
import LiveMarkup.Patch.Source

/-!
# Compiling a fragment to a patch

Compiling walks the fragment in document order. Text at the root is dropped, other text is
emitted, and a tag becomes an element around what its children give; comments and
directives are refused. A tag that carries the opaque attribute keeps whatever the live
element holds: its own children are not looked at.

A tag with the id attribute has its value as key. The other keys are chosen afterwards, in
document order, from a supply of candidates: the first that is not taken yet. All values of
the id attribute in the fragment are taken from the start, those below opaque tags included.
-/

namespace LiveMarkup.Patch

/-- How keys are chosen for the tags that bring none. -/
inductive KeyScheme where
  /-- The stem with the numbers from one on. -/
  | numbered (stem : String)
  /-- Random numbers in hexadecimal, given in the order in which they are drawn. -/
  | drawn (draws : List UInt64)
deriving DecidableEq, Repr

/-- What a compile depends on beside the fragment. -/
structure Config where
  idAttribute : String := "id"
  keys : KeyScheme
  opaqueAttribute : Option String := none
deriving DecidableEq, Repr

/-- Why a fragment does not compile. -/
inductive CompileError where
  | unrecognized (kind : Fragment.Kind) (node : Nat)
  | outOfDraws
deriving DecidableEq, Repr

/-- The message of a failed compile. -/
def CompileError.message : CompileError → String
  | .unrecognized kind node =>
    "unrecognized node kind `" ++ kind.label ++ "` (node " ++ toString node ++ ")"
  | .outOfDraws => "identity generation failed: no random numbers left"

/-- An instruction whose key, if the markup gives none, is still to be chosen. -/
abbrev Sketch := Instruction (Option String)

/-- A place of the walk: a node, or the end of an element. -/
inductive Stop where
  | node (id : Nat)
  | close (name : String)
deriving DecidableEq, Repr

namespace Config

/-- The key that a kind of node brings. -/
def explicitKey? (config : Config) (kind : Fragment.Kind) : Option String :=
  kind.attribute? config.idAttribute

/-- Whether the content of such a node is left to the live element. -/
def isOpaque (config : Config) (kind : Fragment.Kind) : Bool :=
  config.opaqueAttribute.any fun name => (kind.attribute? name).isSome

/-- What a place gives, and the places below it. -/
def visit (config : Config) (t : Fragment) :
    Stop → List (Except CompileError Sketch) × List Stop
  | .close name => ([.ok (.closeTag name)], [])
  | .node id =>
    match t.node? id with
    | none => ([], [])
    | some node =>
      match node.kind with
      | .text data =>
        (if node.parent = some Fragment.root then [] else [.ok (.text data)], [])
      | .tag name attributes =>
        let opening := .openTag name (config.explicitKey? node.kind) attributes
        if config.isOpaque node.kind then ([.ok opening, .ok .skip], [.close name])
        else ([.ok opening], node.children.map Stop.node ++ [.close name])
      | kind => ([.error (.unrecognized kind id)], [])

end Config

/-- The first error of a list, or all its values. -/
def collect {ε α : Type} : List (Except ε α) → Except ε (List α)
  | [] => .ok []
  | .error e :: _ => .error e
  | .ok a :: rest => (collect rest).map (a :: ·)

/-- The instructions of a fragment, with its first node that does not compile as error. A
walk stops at each node at most once, and once more at the end of each element. -/
def sketch (config : Config) (t : Fragment) : Except CompileError (List Sketch) :=
  collect (walk (config.visit t) (2 * t.size) ((t.children Fragment.root).map Stop.node))

/-- The values of the id attribute in a fragment, in document order. -/
def reservedKeys (config : Config) (t : Fragment) : List String :=
  t.preorder.filterMap fun id => (t.kind? id).bind config.explicitKey?

/-- The candidates for chosen keys. A fragment of `size` nodes never asks for more: each of
its nodes takes at most one candidate away. -/
def KeyScheme.candidates (size : Nat) : KeyScheme → List String
  | .numbered stem => (List.range size).map fun i => stem ++ toString (i + 1)
  | .drawn draws => draws.map fun n => String.ofList (Text.lowerHex n.toNat)

/-- Chooses the open keys of a program: each is the first candidate that is not taken. -/
def chooseKeys : (taken candidates : List String) → List Sketch →
    Except CompileError (List (Instruction Key))
  | _, _, [] => .ok []
  | taken, candidates, .openTag name (some key) attributes :: rest =>
    (chooseKeys taken candidates rest).map (.openTag name (.explicit key) attributes :: ·)
  | taken, candidates, .openTag name none attributes :: rest =>
    match candidates.dropWhile taken.contains with
    | [] => .error .outOfDraws
    | key :: candidates =>
      (chooseKeys (key :: taken) candidates rest).map
        (.openTag name (.generated key) attributes :: ·)
  | taken, candidates, .closeTag name :: rest =>
    (chooseKeys taken candidates rest).map (.closeTag name :: ·)
  | taken, candidates, .text content :: rest =>
    (chooseKeys taken candidates rest).map (.text content :: ·)
  | taken, candidates, .skip :: rest =>
    (chooseKeys taken candidates rest).map (.skip :: ·)

/-- The patch of a fragment. -/
def ofFragment (config : Config) (t : Fragment) : Except CompileError Patch :=
  match sketch config t with
  | .error e => .error e
  | .ok program =>
    (chooseKeys (reservedKeys config t) (config.keys.candidates t.size) program).map Patch.mk

/-- The patch of a source of markup. -/
def compile (config : Config) (source : Source) : Except CompileError Patch :=
  ofFragment config (Fragment.ofMarkup source.toMarkup)

/-- The keys of a program, in order. -/
def keys (p : Patch) : List Key :=
  p.instructions.filterMap fun
    | .openTag _ key _ => some key
    | _ => none

/-- The chosen keys of a program, in order. -/
def generatedKeys (p : Patch) : List String :=
  (p.keys.filter (·.origin = .generated)).map Key.value

/-- The keys of a program that its markup gives, in order. -/
def explicitKeys (p : Patch) : List String :=
  (p.keys.filter (·.origin = .explicit)).map Key.value

/-- Whether a key is a number below 2 to the 64 in lower-case hexadecimal without leading
zeros. -/
def isDrawnKey (key : String) : Bool :=
  let cs := key.toList
  let n := Text.numeralValue 16 cs
  n < UInt64.size && cs == Text.lowerHex n

/-- Whether all chosen keys are drawn numbers, differ from each other and from the keys that
the markup gives. -/
def hasFreshDrawnKeys (p : Patch) : Bool :=
  p.generatedKeys.all isDrawnKey && decide p.generatedKeys.Nodup &&
    p.generatedKeys.all fun key => !p.explicitKeys.contains key

end LiveMarkup.Patch
