import LiveMarkup.Patch.Replay

/-!
# Transcripts

A transcript is the host that only writes down what it is asked to do, one line for each
instruction and one at either end of a transaction. It can be set to fail at a given
instruction, counted over all its transactions.
-/

namespace LiveMarkup.Patch

/-- What has been asked of a transcript. -/
structure Transcript where
  lines : Array String := #[]
  /-- The target of the running transaction. -/
  target : Option String := none
  /-- The number of instructions so far, the failing one included. -/
  calls : Nat := 0
  /-- The instruction that fails, counted from one. -/
  failAt : Option Nat := none
deriving DecidableEq, Repr

namespace Transcript

/-- Why a transcript refuses. -/
inductive Error where
  | noTransaction
  | nestedTransaction
  | injected (call : Nat)
deriving DecidableEq, Repr

/-- The message of a refusal. -/
def Error.message : Error → String
  | .noTransaction => "primitive called outside a transaction"
  | .nestedTransaction => "transaction already running"
  | .injected call => "injected failure at primitive " ++ toString call

/-- A transcript without lines that fails at the given instruction, if any. -/
def new (failAt : Option Nat) : Transcript := { failAt := failAt }

/-- Adds a line. -/
def write (t : Transcript) (line : String) : Transcript := { t with lines := t.lines.push line }

/-- Begins a transaction on a target. -/
def begin (target : String) (t : Transcript) : Outcome Error Transcript :=
  if t.target.isSome then ⟨some .nestedTransaction, t⟩
  else ⟨none, { t.write ("begin " ++ target) with target := some target }⟩

/-- The line of an open: what is asked for, and then one attribute after the other. -/
def openLine (name : String) (key : Key) (attributes : List (String × String)) : String :=
  attributes.foldl (fun line (field, value) => line ++ " " ++ field ++ "=" ++ Text.quoted value)
    ("open " ++ name ++ " key=" ++ Text.quoted key.value)

/-- The line that is written down for an instruction. -/
def callLine : Instruction Key → String
  | .openTag name key attributes => openLine name key attributes
  | .closeTag name => "close " ++ name
  | .text content => "text " ++ Text.quoted content
  | .skip => "skip"

/-- Writes down an instruction. -/
def perform (i : Instruction Key) (t : Transcript) : Outcome Error Transcript :=
  if t.target.isNone then ⟨some .noTransaction, t⟩
  else
    let counted := { t with calls := t.calls + 1 }
    if t.failAt = some counted.calls then ⟨some (.injected counted.calls), counted⟩
    else ⟨none, counted.write (callLine i)⟩

/-- Ends the transaction. -/
def finish (raised : Option Error) (t : Transcript) : Outcome Error Transcript :=
  let word := if raised.isNone then "end " else "abort "
  ⟨raised, { t.write (word ++ t.target.getD "") with target := none }⟩

instance : Host Transcript String Error where
  begin := begin
  perform := perform
  finish := finish

/-- Hands out the lines written so far and starts with none. -/
def takeLines (t : Transcript) : Array String × Transcript := (t.lines, { t with lines := #[] })

end Transcript

end LiveMarkup.Patch
