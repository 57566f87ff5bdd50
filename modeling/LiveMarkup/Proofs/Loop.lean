import LiveMarkup.Proofs.Leveled
import LiveMarkup.Proofs.Walk

/-!
# Loops over a work list

A walk may take a given number of steps. The loop that it stands for counts no steps: it goes on
until its list is empty, which on links with a cycle it never is. `Exhausts` is that loop. It
relates a list to the places that are visited before the list is empty, and to what they yield.

Where the links below some places are those of trees, the loop ends, and it visits the nodes of the
trees in preorder (`Exhausts.of_follows`). A walk that may take as many steps yields the same
(`Exhausts.emits`).
-/

namespace LiveMarkup

variable {α β : Type}

namespace Rose

/-- Each node of the tree has a branch for each place below its own, in order. -/
inductive Follows (below : α → List α) : Rose α → Prop
  | node {a : α} {branches : List (Rose α)} : branches.map label = below a →
      (∀ r ∈ branches, Follows below r) → Follows below (.node a branches)

variable {below : α → List α}

theorem follows_unfold {steps : Nat} {a : α} (h : Settled below steps a) :
    Follows below (unfold below steps a) := by
  induction steps generalizing a with
  | zero =>
    rw [unfold]
    exact .node h.symm (by simp)
  | succ steps ih =>
    rw [unfold]
    refine .node ?_ fun r hr => ?_
    · simp [Function.comp_def]
    · obtain ⟨b, hb, rfl⟩ := List.mem_map.mp hr
      exact ih (h b hb)

/-- There is one tree at a place. -/
theorem Follows.eq_of_label_eq {r s : Rose α} (hr : Follows below r) (hs : Follows below s)
    (hlabel : r.label = s.label) : r = s := by
  induction hr generalizing s with
  | @node a branches hbranches _ ih =>
    obtain @⟨b, branches', hbranches', hfollows'⟩ := hs
    obtain rfl : a = b := hlabel
    have hsame : branches.map label = branches'.map label := hbranches.trans hbranches'.symm
    rw [map_eq_map_congr (g := id), List.map_id, List.map_id] at hsame
    · rw [hsame]
    · exact fun r hr s hs => ⟨ih r hr (hfollows' s hs), congrArg label⟩

end Rose

/-- Taking the places of a list from its front, and putting those below each of them in its stead,
comes to an end: these places are visited, in this order, and this is what they yield. -/
inductive Exhausts (visit : α → List β × List α) : List α → List α → List β → Prop
  | done : Exhausts visit [] [] []
  | next {a : α} {later visited : List α} {out : List β} :
      Exhausts visit ((visit a).2 ++ later) visited out →
      Exhausts visit (a :: later) (a :: visited) ((visit a).1 ++ out)

namespace Exhausts

variable {visit : α → List β × List α} {places more visited visited' : List α} {out out' : List β}

/-- What comes later is visited as it would be alone. -/
theorem append (h : Exhausts visit places visited out) (h' : Exhausts visit more visited' out') :
    Exhausts visit (places ++ more) (visited ++ visited') (out ++ out') := by
  induction h with
  | done => exact h'
  | next _ ih =>
    rw [List.append_assoc] at ih ⊢
    exact .next ih

/-- A place is visited first, and then what is below it. -/
theorem single {a : α} (h : Exhausts visit (visit a).2 visited out) :
    Exhausts visit [a] (a :: visited) ((visit a).1 ++ out) :=
  .next (by rwa [List.append_nil])

/-- The loop does what a walk does that may take a step for each visit. -/
theorem emits (h : Exhausts visit places visited out) :
    Emits visit places visited.length out := by
  induction h with
  | done => exact .nil
  | next _ ih =>
    intro steps later
    rw [List.length_cons, Nat.add_right_comm, List.cons_append, walk_succ_cons, ← List.append_assoc,
      ih steps later, List.append_assoc]

/-- Trees next to each other are visited one after the other. -/
theorem flatMap {γ : Type} {place : γ → α} {visits : γ → List α} {yields : γ → List β} {l : List γ}
    (h : ∀ r ∈ l, Exhausts visit [place r] (visits r) (yields r)) :
    Exhausts visit (l.map place) (l.flatMap visits) (l.flatMap yields) := by
  induction l with
  | nil => exact .done
  | cons r rest ih =>
    obtain ⟨hfirst, hrest⟩ := List.forall_mem_cons.mp h
    exact hfirst.append (ih hrest)

theorem of_follows {r : Rose α} (h : Rose.Follows (fun a => (visit a).2) r) :
    Exhausts visit [r.label] (Rose.preorder r)
      ((Rose.preorder r).flatMap fun a => (visit a).1) := by
  induction h with
  | @node a branches hbranches _ ih =>
    have hbelow := flatMap ih
    rw [hbranches, ← List.flatMap_assoc, ← Rose.preorderAll_eq_flatMap] at hbelow
    exact single hbelow

/-- Where the links below some places do not go on for ever, the loop ends. It visits what the
places unfold to. -/
theorem of_settled {steps : Nat} (h : ∀ a ∈ places, Rose.Settled (fun a => (visit a).2) steps a) :
    let visited := Rose.preorderAll (places.map (Rose.unfold (fun a => (visit a).2) steps))
    Exhausts visit places visited (visited.flatMap fun a => (visit a).1) := by
  have hplace : ∀ a ∈ places, Exhausts visit [id a]
      (Rose.preorder (Rose.unfold (fun a => (visit a).2) steps a))
      ((Rose.preorder (Rose.unfold (fun a => (visit a).2) steps a)).flatMap
        fun a => (visit a).1) := by
    intro a ha
    have hrose := of_follows (Rose.follows_unfold (h a ha))
    rwa [Rose.label_unfold] at hrose
  have hplaces := flatMap hplace
  rw [List.map_id, ← List.flatMap_assoc, ← List.flatMap_map, ← Rose.preorderAll_eq_flatMap]
    at hplaces
  exact hplaces

end Exhausts

end LiveMarkup
