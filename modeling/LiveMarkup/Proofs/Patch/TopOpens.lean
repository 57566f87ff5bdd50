import LiveMarkup.Proofs.Patch.Denotation

/-!
# What a program opens in its container

The elements that a program opens right in its own container, not inside another element,
are the elements at the top of the forest that it denotes, in the same order.
-/

namespace LiveMarkup

/-- The name and the key by which a replay knows an element. -/
def Live.Kind.identity? : Live.Kind → Option (String × String)
  | .element name (some key) _ => some (name, key)
  | _ => none

namespace Patch

/-- The names and keys of the elements that a program opens while `depth` more opens than
closes have gone before, counted from the elements that it opens outside all others. -/
def topOpens : (depth : Nat) → List (Instruction Key) → List (String × String)
  | _, [] => []
  | 0, .openTag name key _ :: rest => (name, key.value) :: topOpens 1 rest
  | depth + 1, .openTag _ _ _ :: rest => topOpens (depth + 2) rest
  | depth, .closeTag _ :: rest => topOpens (depth - 1) rest
  | depth, _ :: rest => topOpens depth rest

private theorem Denotes.topOpens_append {p : List (Instruction Key)} {f : List (Rose Live.Kind)}
    (h : Denotes p f) (depth : Nat) (q : List (Instruction Key)) :
    topOpens depth (p ++ q) =
      (if depth = 0 then f.filterMap fun r => r.label.identity? else []) ++ topOpens depth q := by
  induction h generalizing depth q with
  | nil => cases depth <;> rfl
  | text content _ ih =>
    cases depth with
    | zero => exact ih 0 q
    | succ depth => exact ih (depth + 1) q
  | element name key attributes _ _ ihb ih =>
    rw [List.cons_append, List.append_assoc, List.cons_append]
    cases depth with
    | zero =>
      rw [topOpens, ihb, topOpens, ih]
      rfl
    | succ depth =>
      rw [topOpens, ihb, topOpens, ih]
      rfl

theorem Denotes.topOpens_eq {p : List (Instruction Key)} {f : List (Rose Live.Kind)}
    (h : Denotes p f) : topOpens 0 p = f.filterMap fun r => r.label.identity? := by
  have happend := h.topOpens_append 0 []
  rwa [List.append_nil, topOpens, List.append_nil, if_pos rfl] at happend

end Patch

end LiveMarkup
