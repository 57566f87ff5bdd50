/-!
# Walks over a work list

Trees are stored as arenas: nodes in an array, linked by number. A walk over such a tree
keeps a list of places that are still to be visited, the next one in front. Visiting a
place yields results and puts the places below it in front of the list, so the results
come in document order whatever the depth of the tree.

Nothing in the shape of an arena says that its links form a tree, so a walk is given the
number of places it may visit. The number of slots of the arena is enough when each is
visited at most once.
-/

namespace LiveMarkup

/-- Visits the places of the list and those that visiting puts in front of it, at most
`steps` of them, and answers what the visits yield, in order. -/
def walk {α β : Type} (visit : α → List β × List α) : (steps : Nat) → List α → List β
  | 0, _ => []
  | _ + 1, [] => []
  | steps + 1, place :: later =>
    (visit place).1 ++ walk visit steps ((visit place).2 ++ later)

@[simp] theorem walk_nil {α β : Type} (visit : α → List β × List α) (steps : Nat) :
    walk visit steps [] = [] := by
  cases steps <;> rfl

@[simp] theorem walk_succ_cons {α β : Type} (visit : α → List β × List α) (steps : Nat)
    (place : α) (later : List α) :
    walk visit (steps + 1) (place :: later) =
      (visit place).1 ++ walk visit steps ((visit place).2 ++ later) := rfl

end LiveMarkup
