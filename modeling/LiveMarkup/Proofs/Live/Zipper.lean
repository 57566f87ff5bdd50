import LiveMarkup.Live.Transaction
import LiveMarkup.Proofs.Region

/-!
# Transactions on trees

A transaction seen without an arena. The open containers are a list of levels, the
innermost in front; each has the trees that its cursor has passed and those that are still
ahead of it. An instruction works at the cursor of the innermost level: an open takes its
element out of the trees ahead or makes a new one, and a close drops the trees ahead and
passes what was closed.

The operations refuse what those of an arena refuse, with the same errors. Handles are kept
at the nodes, since they are what an element that is kept is known by; the handle of a new
node is given from outside.
-/

namespace LiveMarkup.Live

open Patch (Outcome)

/-- Trees in an arena, each node with its handle and what it is. -/
abbrev Branches := List (Rose (Handle × Kind))

/-- An open container: the trees before its cursor and those behind it. -/
structure Level where
  node : Handle
  kind : Kind
  passed : Branches
  ahead : Branches

/-- Whether a tree is an element with this name and key. -/
def keyed (name key : String) (r : Rose (Handle × Kind)) : Bool :=
  match r.label.2 with
  | .element n k _ => n = name && k = some key
  | _ => false

theorem keyed_iff {name key : String} {h : Handle} {kind : Kind} {branches : Branches} :
    keyed name key (.node (h, kind) branches) = true ↔
      ∃ attributes, kind = .element name (some key) attributes := by
  cases kind <;> simp [keyed]

namespace Level

/-- Checks that the container takes a child at its cursor; see `Tree.check`. -/
def check (l : Level) (child : Option String) : Except Error Unit :=
  if !l.kind.isContainer then .error (.notContainer l.node)
  else if l.kind.takes l.passed.length child then .ok ()
  else .error (.rawTextContent l.node)

/-- The element that an open finds ahead or makes, and what is ahead then. -/
def claim (l : Level) (fresh : Handle) (name key : String) :
    Except Error (Rose (Handle × Kind) × Branches) :=
  match l.check none with
  | .error e => .error e
  | .ok () =>
    match l.ahead.find? (keyed name key) with
    | some found => .ok (found, l.ahead.eraseP (keyed name key))
    | none =>
      if !Markup.isTagName name then .error (.invalidName name)
      else .ok (.node (fresh, .element name (some key) []) [], l.ahead)

/-- The container with what its cursor has passed. -/
def closed (l : Level) : Rose (Handle × Kind) := .node (l.node, l.kind) l.passed

end Level

namespace Zipper

/-- Opens an element and goes inside it. -/
def openElement (fresh : Handle) (name key : String) (attributes : List (String × String)) :
    List Level → Outcome Error (List Level)
  | [] => ⟨some .noTransaction, []⟩
  | l :: outer =>
    match l.claim fresh name key with
    | .error e => ⟨some e, l :: outer⟩
    | .ok (.node (h, kind) branches, ahead) =>
      match attributes.find? fun (name, _) => !Markup.isAttributeName name with
      | some (name, _) =>
        ⟨some (.invalidName name),
          { l with ahead := .node (h, kind) branches :: ahead } :: outer⟩
      | none =>
        ⟨none, ⟨h, .element name (some key) attributes, [], branches⟩ ::
          { l with ahead := ahead } :: outer⟩

/-- Closes the innermost element. -/
def closeElement (name : String) : List Level → Outcome Error (List Level)
  | [] => ⟨some .noTransaction, []⟩
  | [l] => ⟨some (.unbalancedClose name), [l]⟩
  | l :: m :: outer =>
    let left := { m with passed := m.passed ++ [l.closed] } :: outer
    match l.kind.name? with
    | some expected =>
      if expected = name then ⟨none, left⟩
      else ⟨some (.tagMismatch expected name), l :: m :: outer⟩
    | none => ⟨none, left⟩

/-- Puts a text at the cursor and passes it. -/
def putText (fresh : Handle) (content : String) : List Level → Outcome Error (List Level)
  | [] => ⟨some .noTransaction, []⟩
  | l :: outer =>
    match l.check (some content) with
    | .error e => ⟨some e, l :: outer⟩
    | .ok () =>
      match l.ahead with
      | .node (h, .text _) _ :: ahead =>
        ⟨none, { l with
          passed := l.passed ++ [.node (h, .text content) []], ahead := ahead } :: outer⟩
      | ahead =>
        ⟨none, { l with
          passed := l.passed ++ [.node (fresh, .text content) []], ahead := ahead } :: outer⟩

/-- Passes all that is ahead in the innermost container. -/
def skip : List Level → Outcome Error (List Level)
  | [] => ⟨some .noTransaction, []⟩
  | l :: outer => ⟨none, { l with passed := l.passed ++ l.ahead, ahead := [] } :: outer⟩

/-- Performs one instruction of a patch. -/
def perform (fresh : Handle) :
    Patch.Instruction Patch.Key → List Level → Outcome Error (List Level)
  | .openTag name key attributes => openElement fresh name key.value attributes
  | .closeTag name => closeElement name
  | .text content => putText fresh content
  | .skip => skip

/-- Completes a transaction whose body went well. -/
def complete : List Level → Outcome Error (List Level)
  | [] => ⟨some .noTransaction, []⟩
  | [l] => ⟨none, [{ l with ahead := [] }]⟩
  | l :: m :: outer => ⟨some (.unclosedElement (l.kind.name?.getD "#root")), l :: m :: outer⟩

/-- Ends a transaction. -/
def finish (raised : Option Error) (z : List Level) : Outcome Error (List Level) :=
  match raised with
  | some e => ⟨some e, z⟩
  | none => complete z

/-- A program performed from some levels on, up to its end or its first failure. Each
instruction may be given another handle for a new node. -/
inductive Runs : List (Patch.Instruction Patch.Key) → List Level → Outcome Error (List Level) → Prop
  | nil {z : List Level} : Runs [] z ⟨none, z⟩
  | step {i : Patch.Instruction Patch.Key} {program : List (Patch.Instruction Patch.Key)}
      {z z' : List Level} {o : Outcome Error (List Level)} (fresh : Handle) :
      perform fresh i z = ⟨none, z'⟩ → Runs program z' o → Runs (i :: program) z o
  | fail {i : Patch.Instruction Patch.Key} {program : List (Patch.Instruction Patch.Key)}
      {z z' : List Level} {e : Error} (fresh : Handle) :
      perform fresh i z = ⟨some e, z'⟩ → Runs (i :: program) z ⟨some e, z'⟩

variable {fresh : Handle} {name key content : String} {attributes : List (String × String)}
  {z z' : List Level}

theorem find?_invalidName_eq_none_iff :
    (attributes.find? fun (name, _) => !Markup.isAttributeName name) = none ↔
      ∀ a ∈ attributes, Markup.isAttributeName a.1 = true := by
  simp [List.find?_eq_none]

theorem openElement_cases (h : openElement fresh name key attributes z = ⟨none, z'⟩) :
    ∃ l outer element old branches ahead, z = l :: outer ∧
      l.claim fresh name key = .ok (.node (element, old) branches, ahead) ∧
      (∀ a ∈ attributes, Markup.isAttributeName a.1 = true) ∧
      z' = ⟨element, .element name (some key) attributes, [], branches⟩ ::
        { l with ahead := ahead } :: outer := by
  cases z with
  | nil => cases h
  | cons l outer =>
    simp only [openElement] at h
    split at h
    · cases h
    · next element old branches ahead hclaim =>
      split at h
      · cases h
      · next hnames =>
        cases h
        exact ⟨l, outer, element, old, branches, ahead, rfl, hclaim,
          find?_invalidName_eq_none_iff.mp hnames, rfl⟩

theorem closeElement_cases (h : closeElement name z = ⟨none, z'⟩) :
    ∃ l m outer, z = l :: m :: outer ∧
      (∀ expected, l.kind.name? = some expected → expected = name) ∧
      z' = { m with passed := m.passed ++ [l.closed] } :: outer := by
  match z with
  | [] => cases h
  | [l] => cases h
  | l :: m :: outer =>
    simp only [closeElement] at h
    split at h
    · next expected hexpected =>
      split at h
      · next hname =>
        cases h
        refine ⟨l, m, outer, rfl, fun e he => ?_, rfl⟩
        rw [hexpected, Option.some_inj] at he
        exact he.symm.trans hname
      · cases h
    · next hnone =>
      cases h
      refine ⟨l, m, outer, rfl, fun e he => ?_, rfl⟩
      rw [hnone] at he
      cases he

theorem putText_cases (h : putText fresh content z = ⟨none, z'⟩) :
    ∃ l outer text ahead, z = l :: outer ∧ l.check (some content) = .ok () ∧
      z' = { l with
        passed := l.passed ++ [.node (text, .text content) []], ahead := ahead } :: outer := by
  cases z with
  | nil => cases h
  | cons l outer =>
    simp only [putText] at h
    split at h
    · cases h
    · next hcheck =>
      split at h
      · cases h
        exact ⟨l, outer, _, _, rfl, hcheck, rfl⟩
      · cases h
        exact ⟨l, outer, _, _, rfl, hcheck, rfl⟩

theorem skip_cases (h : skip z = ⟨none, z'⟩) :
    ∃ l outer, z = l :: outer ∧
      z' = { l with passed := l.passed ++ l.ahead, ahead := [] } :: outer := by
  cases z with
  | nil => cases h
  | cons l outer =>
    cases h
    exact ⟨l, outer, rfl, rfl⟩

/-- A transaction ends well when its body did and all elements are closed. -/
theorem finish_failure_eq_none_iff {raised : Option Error} :
    (finish raised z).failure = none ↔ raised = none ∧ ∃ l, z = [l] := by
  cases raised with
  | some e => simp [finish]
  | none =>
    match z with
    | [] => simp [finish, complete]
    | [l] => simp [finish, complete]
    | l :: m :: outer => simp [finish, complete]

end Zipper

end LiveMarkup.Live
