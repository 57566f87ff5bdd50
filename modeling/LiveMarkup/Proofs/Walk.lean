import LiveMarkup.Walk

/-!
# Walks as recursions

A walk with a work list does what a recursion does, as long as it may take enough steps.
`Emits` states this for some places in front of the list, whatever comes after them, so the
recursion can be followed branch by branch.
-/

namespace LiveMarkup

variable {α β : Type} {visit : α → List β × List α} {places more : List α} {n m : Nat}
  {out out' : List β}

/-- Visiting these places, and all that their visits put in front, takes `n` steps and
yields `out`. -/
def Emits (visit : α → List β × List α) (places : List α) (n : Nat) (out : List β) : Prop :=
  ∀ steps later, walk visit (n + steps) (places ++ later) = out ++ walk visit steps later

namespace Emits

theorem nil : Emits visit [] 0 [] := by
  intro steps later
  rw [Nat.zero_add, List.nil_append, List.nil_append]

theorem append (h : Emits visit places n out) (h' : Emits visit more m out') :
    Emits visit (places ++ more) (n + m) (out ++ out') := by
  intro steps later
  rw [Nat.add_assoc, List.append_assoc, h, h', List.append_assoc]

/-- A place yields what its own visit yields, and then what the places below it yield. -/
theorem single {a : α} {own : List β} {below : List α} (hvisit : visit a = (own, below))
    (h : Emits visit below n out) : Emits visit [a] (n + 1) (own ++ out) := by
  intro steps later
  rw [Nat.add_right_comm, List.singleton_append, walk_succ_cons, hvisit, h, List.append_assoc]

/-- A place with nothing below it yields what its own visit yields. -/
theorem leaf {a : α} {own : List β} (hvisit : visit a = (own, [])) :
    Emits visit [a] 1 own := by
  have h := single hvisit nil
  rwa [List.append_nil] at h

theorem walk_eq (h : Emits visit places n out) {steps : Nat} (hsteps : n ≤ steps) :
    walk visit steps places = out := by
  obtain ⟨extra, rfl⟩ := Nat.exists_eq_add_of_le hsteps
  have hall := h extra []
  rwa [List.append_nil, walk_nil, List.append_nil] at hall

end Emits

end LiveMarkup
