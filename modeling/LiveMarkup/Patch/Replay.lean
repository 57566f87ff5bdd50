import LiveMarkup.Patch.Instruction

/-!
# Replaying a patch

A patch is replayed inside a transaction of a host: something that begins transactions,
performs instructions and ends transactions. The first instruction that fails ends the
replay; the host is told how the replay went and ends the transaction either way. Nothing
is undone, so an operation that fails still has a state to go on from.
-/

namespace LiveMarkup.Patch

/-- What an operation that can fail halfway leaves behind. -/
structure Outcome (ε σ : Type) where
  failure : Option ε
  state : σ
deriving DecidableEq, Repr

namespace Outcome

variable {ε σ : Type}

/-- Whether nothing failed. -/
def isOk (o : Outcome ε σ) : Bool := o.failure.isNone

end Outcome

/-- States that patches can be replayed into. `finish` is told what the transaction failed of,
if it failed, and always ends it. -/
class Host (σ : Type) (τ ε : outParam Type) where
  /-- Begins a transaction on a target. -/
  begin : τ → σ → Outcome ε σ
  /-- Performs one instruction. -/
  perform : Instruction Key → σ → Outcome ε σ
  /-- Ends the transaction. -/
  finish : Option ε → σ → Outcome ε σ

variable {σ τ ε ω : Type} [Host σ τ ε]

/-- Performs instructions up to the first that fails. -/
def replay : List (Instruction Key) → σ → Outcome ε σ
  | [], s => ⟨none, s⟩
  | i :: rest, s =>
    match Host.perform i s with
    | ⟨none, s⟩ => replay rest s
    | failed => failed

/-- Replays a patch in a transaction on `target`. Once all instructions are performed, and
before the transaction ends, the callback acts on the world around the host. -/
def applyWith (p : Patch) (target : τ) (onDone : ω → ω) (s : σ) (world : ω) :
    Outcome ε σ × ω :=
  match Host.begin target s with
  | ⟨some e, s⟩ => (⟨some e, s⟩, world)
  | ⟨none, s⟩ =>
    let replayed := replay p.instructions s
    (Host.finish replayed.failure replayed.state,
      if replayed.isOk then onDone world else world)

/-- Replays a patch in a transaction on `target`. -/
def apply (p : Patch) (target : τ) (s : σ) : Outcome ε σ :=
  (applyWith p target id s ()).1

@[simp] theorem replay_nil (s : σ) : replay [] s = (⟨none, s⟩ : Outcome ε σ) := rfl

/-- Programs are replayed one after the other as long as nothing fails. -/
theorem replay_append (p q : List (Instruction Key)) (s : σ) :
    (replay (p ++ q) s : Outcome ε σ) =
      match (replay p s : Outcome ε σ) with
      | ⟨none, s⟩ => replay q s
      | failed => failed := by
  induction p generalizing s with
  | nil => rfl
  | cons i p ih =>
    simp only [List.cons_append, replay]
    split
    · exact ih _
    · next failed h =>
      split
      · next s' heq => exact absurd heq (h s')
      · rfl

end LiveMarkup.Patch
