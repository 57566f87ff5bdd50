import LiveMarkup.Markup.RawText
import LiveMarkup.Patch.Instruction

/-!
# Programs that are accepted

A program is accepted by every container that takes elements when its elements are closed
in order, its names are names, and nothing is put into an element that cannot hold it.
`Accepted` says so by the shape of the program. Keys play no part in it, so a program may
be judged before its keys are chosen.
-/

namespace LiveMarkup.Patch

open Markup

variable {κ ι : Type}

/-- The content of a container that takes elements. An element is one that takes elements
itself; one that is left empty or is skipped over; or a raw-text element with a text that
does not end it. -/
inductive Accepted : List (Instruction κ) → Prop
  | nil : Accepted []
  | text (content : String) {program : List (Instruction κ)} :
      Accepted program → Accepted (.text content :: program)
  | element (name : String) (key : κ) (attributes : List (String × String))
      {body program : List (Instruction κ)} : isTagName name = true →
      (∀ a ∈ attributes, isAttributeName a.1 = true) → isVoid name = false →
      isRawText name = false → Accepted body → Accepted program →
      Accepted (.openTag name key attributes :: (body ++ .closeTag name :: program))
  | hollow (name : String) (key : κ) (attributes : List (String × String))
      {body program : List (Instruction κ)} : isTagName name = true →
      (∀ a ∈ attributes, isAttributeName a.1 = true) → (body = [] ∨ body = [.skip]) →
      Accepted program →
      Accepted (.openTag name key attributes :: (body ++ .closeTag name :: program))
  | rawText (name : String) (key : κ) (attributes : List (String × String)) (content : String)
      {program : List (Instruction κ)} : isTagName name = true →
      (∀ a ∈ attributes, isAttributeName a.1 = true) → isRawText name = true →
      endsRawText name content = false → Accepted program →
      Accepted (.openTag name key attributes :: .text content :: .closeTag name :: program)

namespace Accepted

variable {p q : List (Instruction κ)}

theorem append (h : Accepted p) (hq : Accepted q) : Accepted (p ++ q) := by
  induction h with
  | nil => exact hq
  | text content _ ih => exact .text content ih
  | element name key attributes hname hattributes hvoid hraw hbody _ _ ih =>
    rw [List.cons_append, List.append_assoc, List.cons_append]
    exact .element name key attributes hname hattributes hvoid hraw hbody ih
  | hollow name key attributes hname hattributes hbody _ ih =>
    rw [List.cons_append, List.append_assoc, List.cons_append]
    exact .hollow name key attributes hname hattributes hbody ih
  | rawText name key attributes content hname hattributes hraw hends _ ih =>
    exact .rawText name key attributes content hname hattributes hraw hends ih

end Accepted

namespace Instruction

variable {f : κ → ι} {i : Instruction κ}

theorem mapKey_eq_openTag {name : String} {key : ι} {attributes : List (String × String)}
    (h : i.mapKey f = .openTag name key attributes) :
    ∃ k, i = .openTag name k attributes := by
  cases i with
  | openTag n k as =>
    cases h
    exact ⟨k, rfl⟩
  | closeTag n => cases h
  | text s => cases h
  | skip => cases h

theorem mapKey_eq_closeTag {name : String} (h : i.mapKey f = .closeTag name) :
    i = .closeTag name := by
  cases i <;> cases h
  rfl

theorem mapKey_eq_text {content : String} (h : i.mapKey f = .text content) :
    i = .text content := by
  cases i <;> cases h
  rfl

theorem mapKey_eq_skip (h : i.mapKey f = .skip) : i = .skip := by
  cases i <;> cases h
  rfl

end Instruction

theorem Accepted.map (f : κ → ι) {p : List (Instruction κ)} (h : Accepted p) :
    Accepted (p.map (·.mapKey f)) := by
  induction h with
  | nil => exact .nil
  | text content _ ih => exact .text content ih
  | element name key attributes hname hattributes hvoid hraw _ _ ihb ih =>
    rw [List.map_cons, List.map_append, List.map_cons]
    exact .element name (f key) attributes hname hattributes hvoid hraw ihb ih
  | hollow name key attributes hname hattributes hbody _ ih =>
    rw [List.map_cons, List.map_append, List.map_cons]
    refine .hollow name (f key) attributes hname hattributes ?_ ih
    rcases hbody with rfl | rfl
    · exact .inl rfl
    · exact .inr rfl
  | rawText name key attributes content hname hattributes hraw hends _ ih =>
    exact .rawText name (f key) attributes content hname hattributes hraw hends ih

/-- Programs that differ in their keys only are accepted alike. -/
theorem Accepted.of_map {f : κ → ι} {q : List (Instruction ι)} (h : Accepted q)
    {p : List (Instruction κ)} (hp : p.map (·.mapKey f) = q) : Accepted p := by
  induction h generalizing p with
  | nil =>
    rw [List.map_eq_nil_iff.mp hp]
    exact .nil
  | text content _ ih =>
    obtain ⟨i, rest, rfl, hi, hrest⟩ := List.map_eq_cons_iff.mp hp
    cases Instruction.mapKey_eq_text hi
    exact .text content (ih hrest)
  | element name key attributes hname hattributes hvoid hraw _ _ ihb ih =>
    obtain ⟨i, tail, rfl, hi, htail⟩ := List.map_eq_cons_iff.mp hp
    obtain ⟨k, rfl⟩ := Instruction.mapKey_eq_openTag hi
    obtain ⟨body, after, rfl, hbody, hafter⟩ := List.map_eq_append_iff.mp htail
    obtain ⟨j, rest, rfl, hj, hrest⟩ := List.map_eq_cons_iff.mp hafter
    cases Instruction.mapKey_eq_closeTag hj
    exact .element name k attributes hname hattributes hvoid hraw (ihb hbody) (ih hrest)
  | hollow name key attributes hname hattributes hb _ ih =>
    obtain ⟨i, tail, rfl, hi, htail⟩ := List.map_eq_cons_iff.mp hp
    obtain ⟨k, rfl⟩ := Instruction.mapKey_eq_openTag hi
    obtain ⟨body, after, rfl, hbody, hafter⟩ := List.map_eq_append_iff.mp htail
    obtain ⟨j, rest, rfl, hj, hrest⟩ := List.map_eq_cons_iff.mp hafter
    cases Instruction.mapKey_eq_closeTag hj
    refine .hollow name k attributes hname hattributes ?_ (ih hrest)
    rcases hb with rfl | rfl
    · exact .inl (List.map_eq_nil_iff.mp hbody)
    · obtain ⟨s, none, rfl, hs, hnone⟩ := List.map_eq_cons_iff.mp hbody
      rw [Instruction.mapKey_eq_skip hs, List.map_eq_nil_iff.mp hnone]
      exact .inr rfl
  | rawText name key attributes content hname hattributes hraw hends _ ih =>
    obtain ⟨i, tail, rfl, hi, htail⟩ := List.map_eq_cons_iff.mp hp
    obtain ⟨k, rfl⟩ := Instruction.mapKey_eq_openTag hi
    obtain ⟨s, after, rfl, hs, hafter⟩ := List.map_eq_cons_iff.mp htail
    obtain ⟨j, rest, rfl, hj, hrest⟩ := List.map_eq_cons_iff.mp hafter
    cases Instruction.mapKey_eq_text hs
    cases Instruction.mapKey_eq_closeTag hj
    exact .rawText name k attributes content hname hattributes hraw hends (ih hrest)

end LiveMarkup.Patch
