import LiveMarkup.Proofs.Patch.Accepted

/-!
# Skips that come last

What a program does in a container behind a skip stands behind all that the skip has passed,
so it would be done anew by every replay. A program whose skips come last in their
containers leaves nothing to be done again. Compiled programs are of this kind: the only
skip that they have in a container is all that they have in it.
-/

namespace LiveMarkup.Patch

variable {κ : Type}

/-- No element is opened and no text is put behind a skip in the same container. The flags
tell of each open container, the innermost first, whether it was skipped over. A close with
nothing open but the container around all ends the reading, since no replay gets beyond it. -/
def skipsLastFrom : (skipped : List Bool) → List (Instruction κ) → Bool
  | here :: outer, .openTag _ _ _ :: rest => !here && skipsLastFrom (false :: here :: outer) rest
  | _ :: outer, .closeTag _ :: rest => skipsLastFrom outer rest
  | here :: outer, .text _ :: rest => !here && skipsLastFrom (here :: outer) rest
  | _ :: outer, .skip :: rest => skipsLastFrom (true :: outer) rest
  | _, [] | [], _ => true

/-- Whether the skips of a patch come last in their containers. -/
def skipsLast (p : Patch) : Bool := skipsLastFrom [false] p.instructions

/-- An accepted program leaves the flags of its container as they were. -/
theorem Accepted.skipsLastFrom_append {p : List (Instruction κ)} (h : Accepted p)
    (outer : List Bool) (q : List (Instruction κ)) :
    skipsLastFrom (false :: outer) (p ++ q) = skipsLastFrom (false :: outer) q := by
  induction h generalizing outer q with
  | nil => rfl
  | text content _ ih => exact ih outer q
  | element name key attributes _ _ _ _ _ _ ihb ih =>
    rw [List.cons_append, List.append_assoc, List.cons_append, skipsLastFrom, ihb, skipsLastFrom,
      ih, Bool.not_false, Bool.true_and]
  | hollow name key attributes _ _ hbody _ ih =>
    rw [List.cons_append, List.append_assoc, List.cons_append, skipsLastFrom]
    rcases hbody with rfl | rfl
    · exact ih outer q
    · exact ih outer q
  | rawText name key attributes content _ _ _ _ _ ih => exact ih outer q

theorem Accepted.skipsLast {p : Patch} (h : Accepted p.instructions) : p.skipsLast = true := by
  have happend := h.skipsLastFrom_append [] []
  rwa [List.append_nil] at happend

end LiveMarkup.Patch
