import LiveMarkup.Live.Tree
import LiveMarkup.Patch.Instruction
import LiveMarkup.Rose

/-!
# What a program denotes

A program without skips, read on its own, is a forest in document order. `Denotes` says so
without any cursor or tree to change: an open and its close are one element around what
stands between them, and a text is a text. A program denotes one forest at most, so a
replay that leaves what its program denotes leaves the same whatever it found.

A program of which a part is performed already denotes the rest of a forest whose open
elements are known: `Completes`.
-/

namespace LiveMarkup.Patch

open Live (Kind)

/-- The forest that a program spells out. -/
inductive Denotes : List (Instruction Key) → List (Rose Kind) → Prop
  | nil : Denotes [] []
  | text (content : String) {program : List (Instruction Key)} {forest : List (Rose Kind)} :
      Denotes program forest →
      Denotes (.text content :: program) (.node (.text content) [] :: forest)
  | element (name : String) (key : Key) (attributes : List (String × String))
      {body program : List (Instruction Key)} {below forest : List (Rose Kind)} :
      Denotes body below → Denotes program forest →
      Denotes (.openTag name key attributes :: (body ++ .closeTag name :: program))
        (.node (.element name (some key.value) attributes) below :: forest)

namespace Denotes

variable {p p' q q' : List (Instruction Key)} {f f' : List (Rose Kind)}

/-- What can follow a program inside a larger one: nothing, or a close. -/
private def Ends (q : List (Instruction Key)) : Prop :=
  ∀ i rest, q = i :: rest → i.isClose = true

private theorem ends_nil : Ends [] := nofun

private theorem ends_close (name : String) (q : List (Instruction Key)) :
    Ends (.closeTag name :: q) := by
  intro i rest hi
  cases hi
  rfl

/-- Where the program of a forest ends is decided by what is written. -/
private theorem eq_of_append_eq (h : Denotes p f) (h' : Denotes p' f') (hq : Ends q)
    (hq' : Ends q') (heq : p ++ q = p' ++ q') : p = p' ∧ f = f' := by
  induction h generalizing p' f' q q' with
  | nil =>
    cases h' with
    | nil => exact ⟨rfl, rfl⟩
    | text content _ => exact absurd (hq _ _ heq) Bool.false_ne_true
    | element name key attributes _ _ => exact absurd (hq _ _ heq) Bool.false_ne_true
  | text content _ ih =>
    cases h' with
    | nil => exact absurd (hq' _ _ heq.symm) Bool.false_ne_true
    | text content' h' =>
      simp only [List.cons_append, List.cons.injEq, Instruction.text.injEq] at heq
      obtain ⟨rfl, heq⟩ := heq
      obtain ⟨rfl, rfl⟩ := ih h' hq hq' heq
      exact ⟨rfl, rfl⟩
    | element name key attributes _ _ => cases heq
  | element name key attributes _ _ ihb ih =>
    cases h' with
    | nil => exact absurd (hq' _ _ heq.symm) Bool.false_ne_true
    | text content _ => cases heq
    | element name' key' attributes' hb' h' =>
      simp only [List.cons_append, List.append_assoc, List.cons.injEq,
        Instruction.openTag.injEq] at heq
      obtain ⟨⟨rfl, rfl, rfl⟩, heq⟩ := heq
      obtain ⟨rfl, rfl⟩ := ihb hb' (ends_close _ _) (ends_close _ _) heq
      rw [List.append_cancel_left_eq, List.cons.injEq] at heq
      obtain ⟨hname, heq⟩ := heq
      cases hname
      obtain ⟨rfl, rfl⟩ := ih h' hq hq' heq
      exact ⟨rfl, rfl⟩

theorem unique (h : Denotes p f) (h' : Denotes p f') : f = f' :=
  (eq_of_append_eq h h' ends_nil ends_nil rfl).2

end Denotes

/-- What is left of a program makes the open elements, with the forest that each of them has
so far, into the given forest. The last of them is the container around all. -/
inductive Completes :
    List (Rose Kind) → List (Kind × List (Rose Kind)) → List (Instruction Key) → Prop
  | last (kind : Kind) (done : List (Rose Kind)) {program : List (Instruction Key)}
      {rest : List (Rose Kind)} :
      Denotes program rest → Completes (done ++ rest) [(kind, done)] program
  | inside (name : String) {kind kind' : Kind} {done done' below forest : List (Rose Kind)}
      {outer : List (Kind × List (Rose Kind))} {body program : List (Instruction Key)} :
      (∀ expected, kind.name? = some expected → expected = name) → Denotes body below →
      Completes forest ((kind', done' ++ [.node kind (done ++ below)]) :: outer) program →
      Completes forest ((kind, done) :: (kind', done') :: outer) (body ++ .closeTag name :: program)

namespace Completes

variable {forest made done done' : List (Rose Kind)} {kind kind' : Kind}
  {outer : List (Kind × List (Rose Kind))} {p q : List (Instruction Key)}

/-- What the program in front makes can be done already. -/
private theorem prepend (h : Completes forest ((kind, done ++ made) :: outer) p)
    (hmade : ∀ body below, Denotes body below → Denotes (q ++ body) (made ++ below)) :
    Completes forest ((kind, done) :: outer) (q ++ p) := by
  cases h with
  | last _ _ hrest =>
    rw [List.append_assoc]
    exact .last kind done (hmade _ _ hrest)
  | inside name hname hbody hrest =>
    rw [List.append_assoc] at hrest
    rw [← List.append_assoc]
    exact .inside name hname (hmade _ _ hbody) hrest

theorem nil (kind : Kind) (forest : List (Rose Kind)) : Completes forest [(kind, forest)] [] := by
  have h := Completes.last kind forest .nil
  rwa [List.append_nil] at h

theorem text {content : String}
    (h : Completes forest ((kind, done ++ [.node (.text content) []]) :: outer) p) :
    Completes forest ((kind, done) :: outer) (.text content :: p) :=
  h.prepend (q := [.text content]) fun _ _ hbody => .text content hbody

theorem close {name : String}
    (hname : ∀ expected, kind.name? = some expected → expected = name)
    (h : Completes forest ((kind', done' ++ [.node kind done]) :: outer) p) :
    Completes forest ((kind, done) :: (kind', done') :: outer) (.closeTag name :: p) := by
  refine .inside name hname .nil ?_
  rwa [List.append_nil]

theorem element {name : String} {key : Key} {attributes : List (String × String)}
    (h : Completes forest
      ((.element name (some key.value) attributes, []) :: (kind, done) :: outer) p) :
    Completes forest ((kind, done) :: outer) (.openTag name key attributes :: p) := by
  cases h with
  | @inside name' _ _ _ _ below _ _ body rest hname hbody hrest =>
    cases hname name rfl
    have hmade := hrest.prepend (q := .openTag name key attributes :: (body ++ [.closeTag name]))
      fun program forest hprogram => by
        simpa using Denotes.element name key attributes hbody hprogram
    simpa using hmade

end Completes

end LiveMarkup.Patch
