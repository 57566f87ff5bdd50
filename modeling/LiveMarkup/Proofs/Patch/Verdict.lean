import LiveMarkup.Markup.RawText
import LiveMarkup.Patch.Replay

/-!
# What a program is refused for

A program can be judged without replaying it. All that a refusal depends on is the name of
the target and the program itself: `firstOffence` goes through it once and remembers of each
open container its name and whether something was put into it. That no offence is found has
a second description, by the shape of the program (`Nested`): its closes name the elements
that they close, its names are names, and each container is given what it can take.

The judgement is about programs whose skips come last in their containers. What a skip
passes depends on the tree, and so does what a raw-text element takes behind one.
-/

namespace LiveMarkup.Patch

open Markup

variable {κ : Type}

/-- Why a program is refused. The container in which it goes wrong is not told, since its
handle depends on the tree. -/
inductive Offence where
  | notContainer
  | rawTextContent
  | invalidName (name : String)
  | tagMismatch (expected found : String)
  | unbalancedClose (tag : String)
  | unclosedElement (tag : String)
deriving DecidableEq, Repr

/-- An open container as a program shows it: its name, which only a root lacks, and whether
the program has put something into it. -/
structure Opened where
  name? : Option String
  filled : Bool
deriving DecidableEq, Repr

namespace Opened

/-- A container that nothing was put into. -/
def empty (name? : Option String) : Opened := ⟨name?, false⟩

/-- The container with another child. -/
def fill (c : Opened) : Opened := { c with filled := true }

@[simp] theorem fill_name? (c : Opened) : c.fill.name? = c.name? := rfl

/-- What speaks against another child. The child is given by its text, or as `none` for an
element. -/
def offence? (c : Opened) (child : Option String) : Option Offence :=
  match c.name? with
  | none => none
  | some name =>
    if isVoid name then some .notContainer
    else if !isRawText name then none
    else if !c.filled && child.any fun text => !endsRawText name text then none
    else some .rawTextContent

/-- The container can take these further children: a void element none, and a raw-text
element one in all, which is a text that does not end it. -/
def Takes (c : Opened) (given : List (Option String)) : Prop :=
  ∀ name, c.name? = some name →
    (isVoid name = true → given = []) ∧
    (isRawText name = true → given = [] ∨
      c.filled = false ∧ ∃ text, given = [some text] ∧ endsRawText name text = false)

theorem takes_nil (c : Opened) : c.Takes [] := by
  intro name _
  exact ⟨fun _ => rfl, fun _ => .inl rfl⟩

/-- A raw-text element takes a text as its only child. -/
theorem offence?_rawText {name : String} {filled : Bool} {child : Option String}
    (hraw : isRawText name = true) :
    (Opened.mk (some name) filled).offence? child = none ↔
      filled = false ∧ ∃ text, child = some text ∧ endsRawText name text = false := by
  have hvoid := isVoid_eq_false_of_isRawText hraw
  cases filled with
  | true => simp [offence?, hvoid, hraw]
  | false =>
    cases child with
    | none => simp [offence?, hvoid, hraw]
    | some text =>
      cases hends : endsRawText name text with
      | true => simp [offence?, hvoid, hraw, hends]
      | false => simp [offence?, hvoid, hraw, hends]

theorem takes_rawText {name : String} {filled : Bool} {given : List (Option String)}
    (hraw : isRawText name = true) : (Opened.mk (some name) filled).Takes given ↔
      given = [] ∨
        filled = false ∧ ∃ text, given = [some text] ∧ endsRawText name text = false := by
  simp [Takes, isVoid_eq_false_of_isRawText hraw, hraw]

theorem takes_cons_iff {c : Opened} {child : Option String} {given : List (Option String)} :
    c.Takes (child :: given) ↔ c.offence? child = none ∧ c.fill.Takes given := by
  obtain ⟨name?, filled⟩ := c
  cases name? with
  | none => simp [Takes, offence?, fill]
  | some name =>
    cases hraw : isRawText name with
    | true =>
      rw [offence?_rawText hraw, fill, takes_rawText hraw, takes_rawText hraw]
      constructor
      · rintro (hnil | ⟨hfilled, text, hgiven, hends⟩)
        · cases hnil
        · cases hgiven
          exact ⟨⟨hfilled, text, rfl, hends⟩, .inl rfl⟩
      · rintro ⟨⟨hfilled, text, rfl, hends⟩, rfl | ⟨hfull, -⟩⟩
        · exact .inr ⟨hfilled, text, rfl, hends⟩
        · cases hfull
    | false =>
      cases hvoid : isVoid name with
      | true => simp [Takes, offence?, fill, hvoid]
      | false => simp [Takes, offence?, fill, hvoid, hraw]

end Opened

/-- Goes on behind one instruction, with the innermost container and those around it, or
finds an offence in it. Whether the container takes a child comes before its name, and its
name before those of the attributes. -/
def judge : Instruction κ → Opened → List Opened → Except Offence (Opened × List Opened)
  | .openTag name _ attributes, here, outer =>
    match here.offence? none with
    | some offence => .error offence
    | none =>
      if !isTagName name then .error (.invalidName name)
      else
        match attributes.find? fun (name, _) => !isAttributeName name with
        | some (name, _) => .error (.invalidName name)
        | none => .ok (.empty (some name), here.fill :: outer)
  | .closeTag name, _, [] => .error (.unbalancedClose name)
  | .closeTag name, here, next :: outer =>
    match here.name? with
    | some expected =>
      if expected = name then .ok (next, outer) else .error (.tagMismatch expected name)
    | none => .ok (next, outer)
  | .text content, here, outer =>
    match here.offence? (some content) with
    | some offence => .error offence
    | none => .ok (here.fill, outer)
  | .skip, here, outer => .ok (here, outer)

/-- The first offence in a program and the number of instructions before it. An element that
is left open is an offence at the end. -/
def firstOffence : List (Instruction κ) → Opened → List Opened → Option (Nat × Offence)
  | [], _, [] => none
  | [], here, _ :: _ => some (0, .unclosedElement (here.name?.getD "#root"))
  | i :: program, here, outer =>
    match judge i here outer with
    | .error offence => some (0, offence)
    | .ok (here, outer) =>
      (firstOffence program here outer).map fun (n, offence) => (n + 1, offence)

/-- The first offence of a patch in a container of that name. -/
def verdict (p : Patch) (name? : Option String) : Option (Nat × Offence) :=
  firstOffence p.instructions (.empty name?) []

/-- A program whose closes name the elements that they close, with the children that it gives
to its container. Each element has a name that is one, and is given what it takes. -/
inductive Nested : List (Instruction κ) → List (Option String) → Prop
  | nil : Nested [] []
  | text (content : String) {program : List (Instruction κ)} {given : List (Option String)} :
      Nested program given → Nested (.text content :: program) (some content :: given)
  | skip {program : List (Instruction κ)} {given : List (Option String)} :
      Nested program given → Nested (.skip :: program) given
  | element (name : String) (key : κ) (attributes : List (String × String))
      {body program : List (Instruction κ)} {inside given : List (Option String)} :
      isTagName name = true → (∀ a ∈ attributes, isAttributeName a.1 = true) →
      Nested body inside → (Opened.empty (some name)).Takes inside → Nested program given →
      Nested (.openTag name key attributes :: (body ++ .closeTag name :: program)) (none :: given)

variable {i : Instruction κ} {p q : List (Instruction κ)} {here next here' : Opened}
  {outer outer' : List Opened} {given : List (Option String)} {name content : String} {key : κ}
  {attributes : List (String × String)}

theorem judge_openTag_eq_ok_iff :
    judge (.openTag name key attributes) here outer = .ok (here', outer') ↔
      here.offence? none = none ∧ isTagName name = true ∧
        (∀ a ∈ attributes, isAttributeName a.1 = true) ∧
        here' = .empty (some name) ∧ outer' = here.fill :: outer := by
  rw [judge]
  cases here.offence? none with
  | some offence => simp
  | none =>
    cases hname : isTagName name with
    | false => simp
    | true =>
      cases hfind : attributes.find? fun (name, _) => !isAttributeName name with
      | some a =>
        have hbad : isAttributeName a.1 = false := by simpa using List.find?_some hfind
        have hmem := List.mem_of_find?_eq_some hfind
        simp only [Bool.not_true, Bool.false_eq_true, if_false, reduceCtorEq, false_iff]
        rintro ⟨-, -, hall, -⟩
        rw [hall a hmem] at hbad
        cases hbad
      | none =>
        have hall : ∀ a ∈ attributes, isAttributeName a.1 = true := by
          simpa [List.find?_eq_none] using hfind
        simp only [Bool.not_true, Bool.false_eq_true, if_false, Except.ok.injEq, Prod.mk.injEq,
          true_and]
        exact ⟨fun h => ⟨hall, h.1.symm, h.2.symm⟩, fun h => ⟨h.2.1.symm, h.2.2.symm⟩⟩

theorem judge_closeTag_eq_ok_iff :
    judge (.closeTag name : Instruction κ) here (next :: outer) = .ok (here', outer') ↔
      (∀ expected, here.name? = some expected → expected = name) ∧ here' = next ∧
        outer' = outer := by
  rw [judge]
  cases here.name? with
  | none => simp [eq_comm]
  | some expected =>
    by_cases hname : expected = name
    · simp [hname, eq_comm]
    · simp [hname]

theorem judge_text_eq_ok_iff :
    judge (.text content : Instruction κ) here outer = .ok (here', outer') ↔
      here.offence? (some content) = none ∧ here' = here.fill ∧ outer' = outer := by
  rw [judge]
  cases here.offence? (some content) with
  | none => simp [eq_comm]
  | some offence => simp

theorem firstOffence_cons (hjudge : judge i here outer = .ok (here', outer')) :
    firstOffence (i :: p) here outer = none ↔ firstOffence p here' outer' = none := by
  rw [firstOffence, hjudge, Option.map_eq_none_iff]

theorem firstOffence_cons_eq_none_iff :
    firstOffence (i :: p) here outer = none ↔
      ∃ here' outer', judge i here outer = .ok (here', outer') ∧
        firstOffence p here' outer' = none := by
  constructor
  · intro h
    cases hjudge : judge i here outer with
    | error offence =>
      rw [firstOffence, hjudge] at h
      cases h
    | ok next => exact ⟨next.1, next.2, rfl, (firstOffence_cons hjudge).mp h⟩
  · rintro ⟨here', outer', hjudge, h⟩
    exact (firstOffence_cons hjudge).mpr h

/-- What is left of a program closes all open containers and has no offence. -/
private inductive Closes : Opened → List Opened → List (Instruction κ) → Prop
  | last {here : Opened} {program : List (Instruction κ)} {given : List (Option String)} :
      Nested program given → here.Takes given → Closes here [] program
  | inside (name : String) {here next : Opened} {outer : List Opened}
      {body program : List (Instruction κ)} {given : List (Option String)} :
      (∀ expected, here.name? = some expected → expected = name) → Nested body given →
      here.Takes given → Closes next outer program →
      Closes here (next :: outer) (body ++ .closeTag name :: program)

/-- One child more may come in front. -/
private theorem Closes.prepend {child : Option String} (h : Closes here.fill outer p)
    (hchild : here.offence? child = none)
    (hnested : ∀ body given, Nested body given → Nested (q ++ body) (child :: given)) :
    Closes here outer (q ++ p) := by
  cases h with
  | last hp htakes =>
    exact .last (hnested _ _ hp) (Opened.takes_cons_iff.mpr ⟨hchild, htakes⟩)
  | inside name hname hbody htakes hrest =>
    rw [← List.append_assoc]
    exact .inside name hname (hnested _ _ hbody) (Opened.takes_cons_iff.mpr ⟨hchild, htakes⟩) hrest

private theorem Closes.skip (h : Closes here outer p) : Closes here outer (.skip :: p) := by
  cases h with
  | last hp htakes => exact .last hp.skip htakes
  | inside name hname hbody htakes hrest => exact .inside name hname hbody.skip htakes hrest

private theorem Closes.element (hchild : here.offence? none = none)
    (hname : isTagName name = true) (hattributes : ∀ a ∈ attributes, isAttributeName a.1 = true)
    (h : Closes (.empty (some name)) (here.fill :: outer) p) :
    Closes here outer (.openTag name key attributes :: p) := by
  cases h with
  | @inside name' _ _ _ body rest inside hsame hbody htakes hrest =>
    cases hsame name rfl
    have hmade := hrest.prepend (q := .openTag name key attributes :: (body ++ [.closeTag name]))
      hchild fun program given hprogram => by
        simpa using Nested.element name key attributes hname hattributes hbody htakes hprogram
    simpa using hmade

private theorem closes_of_firstOffence (h : firstOffence p here outer = none) :
    Closes here outer p := by
  induction p generalizing here outer with
  | nil =>
    cases outer with
    | nil => exact .last .nil here.takes_nil
    | cons next outer => cases h
  | cons i p ih =>
    obtain ⟨here', outer', hjudge, hrest⟩ := firstOffence_cons_eq_none_iff.mp h
    have hcloses := ih hrest
    cases i with
    | openTag name key attributes =>
      obtain ⟨hchild, hname, hattributes, rfl, rfl⟩ := judge_openTag_eq_ok_iff.mp hjudge
      exact hcloses.element hchild hname hattributes
    | closeTag name =>
      cases outer with
      | nil => cases hjudge
      | cons next outer =>
        obtain ⟨hname, rfl, rfl⟩ := judge_closeTag_eq_ok_iff.mp hjudge
        have hbody : Nested ([] : List (Instruction κ)) [] := .nil
        exact .inside name hname hbody here.takes_nil hcloses
    | text content =>
      obtain ⟨hchild, rfl, rfl⟩ := judge_text_eq_ok_iff.mp hjudge
      exact hcloses.prepend (q := [.text content]) hchild fun _ _ hbody => .text content hbody
    | skip =>
      cases hjudge
      exact hcloses.skip

/-- A nested program that its container takes is gone through without offence. -/
private theorem Nested.firstOffence_append (h : Nested p given) (htakes : here.Takes given) :
    ∃ here', here'.name? = here.name? ∧
      (firstOffence (p ++ q) here outer = none ↔ firstOffence q here' outer = none) := by
  induction h generalizing here outer q with
  | nil => exact ⟨here, rfl, Iff.rfl⟩
  | text content _ ih =>
    obtain ⟨hchild, htakes⟩ := Opened.takes_cons_iff.mp htakes
    obtain ⟨here', hname, hrest⟩ := ih htakes
    refine ⟨here', hname, (firstOffence_cons ?_).trans hrest⟩
    exact judge_text_eq_ok_iff.mpr ⟨hchild, rfl, rfl⟩
  | skip _ ih =>
    obtain ⟨here', hname, hrest⟩ := ih htakes
    exact ⟨here', hname, (firstOffence_cons rfl).trans hrest⟩
  | element name key attributes hname hattributes _ hinside _ ihb ih =>
    obtain ⟨hchild, htakes⟩ := Opened.takes_cons_iff.mp htakes
    obtain ⟨here', hname', hrest⟩ := ih htakes
    obtain ⟨inner, hinner, hbody⟩ := ihb hinside
    have hopen : judge (.openTag name key attributes) here outer =
        .ok (.empty (some name), here.fill :: outer) :=
      judge_openTag_eq_ok_iff.mpr ⟨hchild, hname, hattributes, rfl, rfl⟩
    have hclose : judge (.closeTag name : Instruction κ) inner (here.fill :: outer) =
        .ok (here.fill, outer) := by
      refine judge_closeTag_eq_ok_iff.mpr ⟨?_, rfl, rfl⟩
      intro expected hexpected
      rw [hinner] at hexpected
      exact (Option.some_inj.mp hexpected).symm
    refine ⟨here', hname', ?_⟩
    rw [List.cons_append, List.append_assoc, List.cons_append]
    exact (firstOffence_cons hopen).trans (hbody.trans ((firstOffence_cons hclose).trans hrest))

/-- A program is without offence exactly when its closes name what they close and each of its
containers is given what it takes, the target included. -/
theorem verdict_eq_none_iff {p : Patch} {name? : Option String} :
    p.verdict name? = none ↔
      ∃ given, Nested p.instructions given ∧ (Opened.empty name?).Takes given := by
  constructor
  · intro h
    cases closes_of_firstOffence h with
    | last hp htakes => exact ⟨_, hp, htakes⟩
  · rintro ⟨given, hp, htakes⟩
    obtain ⟨here', -, hrest⟩ := hp.firstOffence_append (q := []) htakes
    rw [List.append_nil] at hrest
    exact hrest.mpr rfl

section Refusal

variable {σ τ ε : Type} [Host σ τ ε]

/-- The number of instructions that are performed before one fails. -/
def performed : List (Instruction Key) → σ → Nat
  | [], _ => 0
  | i :: program, s =>
    match Host.perform i s with
    | ⟨none, s⟩ => performed program s + 1
    | _ => 0

/-- The error that a replay ends with and the number of instructions performed before. -/
def refusal (p : Patch) (target : τ) (s : σ) : Option (Nat × ε) :=
  (p.apply target s).failure.map fun e =>
    match Host.begin target s with
    | ⟨some _, _⟩ => (0, e)
    | ⟨none, s⟩ => (performed p.instructions s, e)

end Refusal

end LiveMarkup.Patch
