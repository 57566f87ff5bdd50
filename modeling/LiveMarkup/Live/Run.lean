import LiveMarkup.Live.Building
import LiveMarkup.Live.Transaction
import LiveMarkup.Rose

/-!
# Runs of a live tree

All that can happen to a live tree is a sequence of calls: building calls, the beginning of
a transaction, its instructions and its end. The body of a transaction may mix
instructions and building calls in any order and may go on after a refusal, so nothing is
said about which call follows which. `Reachable` collects the trees that such sequences
lead to; replays lead to no others (`Reachable.applyWith`).

A reachable tree describes a forest below each of its nodes.
-/

namespace LiveMarkup.Live

open Patch (Outcome)

/-- A call that can change a live tree. -/
inductive Call where
  | createElement (name : String)
  | createText (content : String)
  | appendChild (parent child : Handle)
  | setAttribute (node : Handle) (name value : String)
  | setKey (node : Handle) (key : String)
  | begin (target : Handle)
  | perform (instruction : Patch.Instruction Patch.Key)
  | finish (raised : Option Error)
deriving DecidableEq, Repr

namespace Tree

/-- The outcome of a call. -/
def call (t : Tree) : Call → Outcome Error Tree
  | .createElement name =>
    match t.createElement name with
    | (.ok _, t) => ⟨none, t⟩
    | (.error e, t) => ⟨some e, t⟩
  | .createText content => ⟨none, (t.createText content).2⟩
  | .appendChild parent child => t.appendChild parent child
  | .setAttribute node name value => t.setAttribute node name value
  | .setKey node key => t.setKey node key
  | .begin target => t.begin target
  | .perform instruction => t.perform instruction
  | .finish raised => t.finish raised

/-- The tree after some calls, whatever becomes of each of them. -/
def run (t : Tree) (calls : List Call) : Tree := calls.foldl (fun t c => (t.call c).state) t

theorem run_append (t : Tree) (before after : List Call) :
    t.run (before ++ after) = (t.run before).run after := List.foldl_append

/-- A transaction with the calls of its body, and with the error that the body raises in the
end, if it does. The body does not run when the transaction is refused. -/
def transact (target : Handle) (body : List Call) (raised : Option Error) (t : Tree) :
    Outcome Error Tree :=
  match t.begin target with
  | ⟨some e, t⟩ => ⟨some e, t⟩
  | ⟨none, t⟩ => (t.run body).finish raised

/-- The trees that calls lead to from a lone root. -/
inductive Reachable : Tree → Prop where
  | new : Reachable .new
  | call {t : Tree} (c : Call) : Reachable t → Reachable (t.call c).state

theorem Reachable.run {t : Tree} (h : Reachable t) (calls : List Call) :
    Reachable (t.run calls) := by
  induction calls generalizing t with
  | nil => exact h
  | cons c rest ih => exact ih (h.call c)

theorem reachable_iff {t : Tree} : Reachable t ↔ ∃ calls, t = Tree.new.run calls := by
  constructor
  · intro h
    induction h with
    | new => exact ⟨[], rfl⟩
    | call c _ ih =>
      obtain ⟨calls, rfl⟩ := ih
      exact ⟨calls ++ [c], by simp [Tree.run]⟩
  · rintro ⟨calls, rfl⟩
    exact Reachable.new.run calls

theorem Reachable.begin {t u : Tree} {target : Handle} {failure : Option Error}
    (h : Reachable t) (hbegin : t.begin target = ⟨failure, u⟩) : Reachable u := by
  have hcall := h.call (.begin target)
  rwa [Tree.call, hbegin] at hcall

theorem Reachable.replay {t : Tree} (h : Reachable t)
    (program : List (Patch.Instruction Patch.Key)) :
    Reachable (Patch.replay program t : Outcome Error Tree).state := by
  induction program generalizing t with
  | nil => exact h
  | cons i rest ih =>
    have hcall := h.call (.perform i)
    simp only [Patch.replay]
    split
    · next u hu =>
      have hstate : (t.call (.perform i)).state = u := congrArg Outcome.state hu
      exact ih (hstate ▸ hcall)
    · exact hcall

/-- Replaying a patch leads to a reachable tree, whether or not it succeeds. -/
theorem Reachable.applyWith {ω : Type} {t : Tree} (h : Reachable t) (p : Patch)
    (target : Handle) (onDone : ω → ω) (world : ω) :
    Reachable (p.applyWith target onDone t world).1.state := by
  unfold Patch.applyWith
  split
  · next hrefused => exact h.begin hrefused
  · next u hu => exact ((h.begin hu).replay p.instructions).call (.finish _)

theorem Reachable.apply {t : Tree} (h : Reachable t) (p : Patch) (target : Handle) :
    Reachable (p.apply target t).state := h.applyWith p target id ()

/-- The trees below a node, given by the handles of their nodes. -/
def forest (t : Tree) (h : Handle) : List (Rose Handle) :=
  (t.children h).map (Rose.unfold t.children t.capacity)

/-- What a handle names, taken for a root where it names nothing. -/
def kindOf (t : Tree) (h : Handle) : Kind := ((t.node? h).map Node.kind).getD .root

/-- The trees below a node, given by what their nodes are. -/
def content (t : Tree) (h : Handle) : List (Rose Kind) := Rose.mapAll t.kindOf (t.forest h)

end Tree

end LiveMarkup.Live
