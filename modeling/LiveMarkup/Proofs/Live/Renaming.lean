import LiveMarkup.Proofs.Live.Zipper

/-!
# Renaming the handles of a transaction

A transaction on trees takes its handles for new nodes from outside and never looks at a handle:
it finds elements by their names and keys, and texts by their place. So it does the same under
any other handles, and refuses the same (`Zipper.replay_map_rename`).

A patch that takes the handles of its new nodes from a supply leaves some trees below its target
(`Site.replay`). What it leaves with one supply is what it leaves with any other one, up to the
handles of the supply.
-/

namespace LiveMarkup.Live

open Patch (Outcome)
open Rose (place places recordsAll)

variable {ρ ρ' : Handle → Handle}

namespace Error

/-- A refusal under other handles. -/
def rename (ρ : Handle → Handle) : Error → Error
  | .unknownNode node => .unknownNode (ρ node)
  | .notContainer node => .notContainer (ρ node)
  | .rawTextContent parent => .rawTextContent (ρ parent)
  | .invalidName name => .invalidName name
  | .notElement node => .notElement (ρ node)
  | .noTransaction => .noTransaction
  | .nestedTransaction => .nestedTransaction
  | .tagMismatch expected found => .tagMismatch expected found
  | .unbalancedClose tag => .unbalancedClose tag
  | .unclosedElement tag => .unclosedElement tag
  | .cycle parent child => .cycle (ρ parent) (ρ child)
  | .gap parent => .gap (ρ parent)

/-- The nodes that a refusal names. -/
def nodes : Error → List Handle
  | .unknownNode node | .notContainer node | .notElement node => [node]
  | .rawTextContent parent | .gap parent => [parent]
  | .cycle parent child => [parent, child]
  | .invalidName _ | .noTransaction | .nestedTransaction | .tagMismatch .. | .unbalancedClose _
  | .unclosedElement _ => []

@[simp] theorem rename_rename (e : Error) (ρ ρ' : Handle → Handle) :
    (e.rename ρ).rename ρ' = e.rename (ρ' ∘ ρ) := by
  cases e <;> rfl

theorem rename_congr {e : Error} (h : ∀ x ∈ e.nodes, ρ x = ρ' x) : e.rename ρ = e.rename ρ' := by
  cases e <;> simp_all [rename, nodes]

end Error

/-- An outcome under other handles. -/
def renameOutcome {σ : Type} (ρ : Handle → Handle) (f : σ → σ) (o : Outcome Error σ) :
    Outcome Error σ :=
  ⟨o.failure.map (Error.rename ρ), f o.state⟩

/-- A node under other handles. -/
def Node.rename (ρ : Handle → Handle) (n : Node) : Node :=
  ⟨n.kind, n.parent.map ρ, n.children.map ρ⟩

/-- A tree under other handles. -/
def renameTree (ρ : Handle → Handle) : Rose (Handle × Kind) → Rose (Handle × Kind) :=
  Rose.map (Prod.map ρ id)

@[simp] theorem renameTree_node (ρ : Handle → Handle) (h : Handle) (kind : Kind)
    (branches : Branches) : renameTree ρ (.node (h, kind) branches) =
      .node (ρ h, kind) (branches.map (renameTree ρ)) := by
  rw [renameTree, Rose.map, Rose.mapAll_eq_map]
  rfl

@[simp] theorem place_renameTree (ρ : Handle → Handle) (r : Rose (Handle × Kind)) :
    (renameTree ρ r).place = ρ r.place := by
  rw [place, renameTree, Rose.label_map]
  rfl

@[simp] theorem keyed_renameTree (ρ : Handle → Handle) (name key : String)
    (r : Rose (Handle × Kind)) : keyed name key (renameTree ρ r) = keyed name key r := by
  rw [keyed, keyed, renameTree, Rose.label_map]
  rfl

theorem places_map_renameTree (ρ : Handle → Handle) (l : Branches) :
    places (l.map (renameTree ρ)) = (places l).map ρ := by
  rw [places, renameTree, ← Rose.mapAll_eq_map, Rose.preorderAll_mapAll, places, List.map_map,
    List.map_map]
  rfl

mutual

theorem records_renameTree (ρ : Handle → Handle) (parent : Option Handle) :
    ∀ r : Rose (Handle × Kind), Rose.records Node.mk (parent.map ρ) (renameTree ρ r) =
      (Rose.records Node.mk parent r).map (Prod.map ρ (Node.rename ρ))
  | .node (h, kind) branches => by
    have hbelow := recordsAll_map_renameTree ρ (some h) branches
    rw [Option.map_some] at hbelow
    simp [Rose.records, hbelow, Node.rename, Function.comp_def]

/-- The records of renamed trees are those of the trees, renamed. -/
theorem recordsAll_map_renameTree (ρ : Handle → Handle) (parent : Option Handle) :
    ∀ l : Branches, recordsAll Node.mk (parent.map ρ) (l.map (renameTree ρ)) =
      (recordsAll Node.mk parent l).map (Prod.map ρ (Node.rename ρ))
  | [] => rfl
  | r :: rest => by
    rw [List.map_cons, recordsAll, recordsAll, records_renameTree, recordsAll_map_renameTree,
      List.map_append]

end

theorem map_renameTree_congr {l : Branches} (h : ∀ x ∈ places l, ρ x = ρ' x) :
    l.map (renameTree ρ) = l.map (renameTree ρ') := by
  rw [renameTree, renameTree, ← Rose.mapAll_eq_map, ← Rose.mapAll_eq_map]
  exact Rose.mapAll_congr l fun x hx => Prod.ext (h x.1 (List.mem_map_of_mem hx)) rfl

@[simp] theorem renameTree_renameTree (ρ ρ' : Handle → Handle) (r : Rose (Handle × Kind)) :
    renameTree ρ' (renameTree ρ r) = renameTree (ρ' ∘ ρ) r :=
  Rose.map_map _ _ r

/-- A renaming that changes no handle of some trees does nothing to them. -/
theorem map_renameTree_eq_self {l : Branches} (h : ∀ x ∈ places l, ρ x = x) :
    l.map (renameTree ρ) = l := by
  have hid : renameTree id = id := funext Rose.map_id
  have hsame : l.map (renameTree ρ) = l.map (renameTree id) := map_renameTree_congr h
  rw [hsame, hid, List.map_id]

namespace Level

/-- An open container under other handles. -/
def rename (ρ : Handle → Handle) (l : Level) : Level :=
  ⟨ρ l.node, l.kind, l.passed.map (renameTree ρ), l.ahead.map (renameTree ρ)⟩

variable {l : Level} {name key : String}

theorem check_rename (ρ : Handle → Handle) (l : Level) (child : Option String) :
    (l.rename ρ).check child = (l.check child).mapError (Error.rename ρ) := by
  simp only [check, rename, List.length_map]
  split
  · rfl
  · split <;> rfl

/-- What is claimed under other handles. -/
theorem claim_rename (ρ : Handle → Handle) (l : Level) (fresh : Handle) (name key : String) :
    (l.rename ρ).claim (ρ fresh) name key = ((l.claim fresh name key).mapError (Error.rename ρ)).map
      (Prod.map (renameTree ρ) (List.map (renameTree ρ))) := by
  simp only [claim, check_rename]
  cases l.check none with
  | error e => rfl
  | ok _ =>
    have hkeyed : keyed name key ∘ renameTree ρ = keyed name key := by
      funext r
      exact keyed_renameTree ρ name key r
    simp only [Except.mapError, rename, List.find?_map, List.eraseP_map, hkeyed]
    cases l.ahead.find? (keyed name key) with
    | some found => rfl
    | none =>
      simp only [Option.map_none]
      split
      · rfl
      · simp [Except.map]

theorem closed_rename (ρ : Handle → Handle) (l : Level) :
    (l.rename ρ).closed = renameTree ρ l.closed := by
  simp [closed, rename]

end Level

namespace Zipper

variable (ρ) (fresh : Handle)

theorem openElement_map_rename (name key : String) (attributes : List (String × String))
    (z : List Level) :
    openElement (ρ fresh) name key attributes (z.map (Level.rename ρ)) =
      renameOutcome ρ (List.map (Level.rename ρ)) (openElement fresh name key attributes z) := by
  cases z with
  | nil => rfl
  | cons l outer =>
    simp only [openElement, List.map_cons, Level.claim_rename]
    cases l.claim fresh name key with
    | error e => rfl
    | ok claimed =>
      obtain ⟨⟨⟨h, kind⟩, branches⟩, ahead⟩ := claimed
      simp only [Except.mapError, Except.map, Prod.map, renameTree_node]
      generalize attributes.find? _ = refused
      cases refused with
      | none => rfl
      | some refused =>
        obtain ⟨name, value⟩ := refused
        simp [renameOutcome, Level.rename, Error.rename]

theorem closeElement_map_rename (name : String) (z : List Level) :
    closeElement name (z.map (Level.rename ρ)) =
      renameOutcome ρ (List.map (Level.rename ρ)) (closeElement name z) := by
  cases z with
  | nil => rfl
  | cons l outer =>
    cases outer with
    | nil => rfl
    | cons m outer =>
      have hkind : (l.rename ρ).kind = l.kind := rfl
      simp only [closeElement, List.map_cons, Level.closed_rename, hkind]
      cases l.kind.name? with
      | none => simp [renameOutcome, Level.rename]
      | some expected =>
        simp only
        split <;> simp [renameOutcome, Level.rename, Error.rename]

theorem putText_map_rename (content : String) (z : List Level) :
    putText (ρ fresh) content (z.map (Level.rename ρ)) =
      renameOutcome ρ (List.map (Level.rename ρ)) (putText fresh content z) := by
  cases z with
  | nil => rfl
  | cons l outer =>
    obtain ⟨node, kind, passed, ahead⟩ := l
    simp only [putText, List.map_cons, Level.check_rename]
    cases Level.check ⟨node, kind, passed, ahead⟩ (some content) with
    | error e => rfl
    | ok _ =>
      cases ahead with
      | nil => simp [Except.mapError, renameOutcome, Level.rename]
      | cons r ahead =>
        obtain ⟨⟨h, kind⟩, branches⟩ := r
        cases kind <;> simp [Except.mapError, renameOutcome, Level.rename]

theorem skip_map_rename (z : List Level) :
    skip (z.map (Level.rename ρ)) = renameOutcome ρ (List.map (Level.rename ρ)) (skip z) := by
  cases z with
  | nil => rfl
  | cons l outer => simp [skip, renameOutcome, Level.rename]

/-- An instruction does the same under other handles. -/
theorem perform_map_rename (i : Patch.Instruction Patch.Key) (z : List Level) :
    perform (ρ fresh) i (z.map (Level.rename ρ)) =
      renameOutcome ρ (List.map (Level.rename ρ)) (perform fresh i z) := by
  cases i with
  | openTag name key attributes => exact openElement_map_rename ρ fresh name key.value attributes z
  | closeTag name => exact closeElement_map_rename ρ name z
  | text content => exact putText_map_rename ρ fresh content z
  | skip => exact skip_map_rename ρ z

theorem finish_map_rename (raised : Option Error) (z : List Level) :
    finish (raised.map (Error.rename ρ)) (z.map (Level.rename ρ)) =
      renameOutcome ρ (List.map (Level.rename ρ)) (finish raised z) := by
  cases raised with
  | some e => rfl
  | none =>
    cases z with
    | nil => rfl
    | cons l outer => cases outer <;> rfl

/-- Performs a program up to its first failure. New nodes get the handles of a supply, one for
each instruction. -/
def replay : (supply : Nat → Handle) → List (Patch.Instruction Patch.Key) → List Level →
    Outcome Error (List Level)
  | _, [], z => ⟨none, z⟩
  | supply, i :: program, z =>
    match perform (supply 0) i z with
    | ⟨none, z'⟩ => replay (fun k => supply (k + 1)) program z'
    | failed => failed

theorem replay_map_rename (supply : Nat → Handle) (program : List (Patch.Instruction Patch.Key))
    (z : List Level) : replay (fun k => ρ (supply k)) program (z.map (Level.rename ρ)) =
      renameOutcome ρ (List.map (Level.rename ρ)) (replay supply program z) := by
  induction program generalizing supply z with
  | nil => rfl
  | cons i program ih =>
    simp only [replay, perform_map_rename]
    generalize perform (supply 0) i z = o
    obtain ⟨failure, z'⟩ := o
    cases failure with
    | none => exact ih _ z'
    | some e => rfl

/-- The trees below the last container, given those at the cursor of the innermost one. -/
def below : (inner : Branches) → List Level → Branches
  | inner, [] => inner
  | inner, [l] => l.passed ++ (inner ++ l.ahead)
  | inner, l :: m :: outer =>
    below [.node (l.node, l.kind) (l.passed ++ (inner ++ l.ahead))] (m :: outer)

theorem below_map_rename (inner : Branches) (z : List Level) :
    below (inner.map (renameTree ρ)) (z.map (Level.rename ρ)) =
      (below inner z).map (renameTree ρ) := by
  induction z generalizing inner with
  | nil => rfl
  | cons l outer ih =>
    cases outer with
    | nil => simp [below, Level.rename]
    | cons m outer =>
      have hinner := ih [.node (l.node, l.kind) (l.passed ++ (inner ++ l.ahead))]
      simp only [List.map_cons, List.map_nil, renameTree_node, List.map_append] at hinner
      exact hinner

end Zipper

/-- A node of an arena with its parent and the trees below it. -/
structure Site where
  above : Option Handle
  node : Handle
  kind : Kind
  region : Branches

namespace Site

variable {s : Site}

/-- The node with what is below it. -/
def tree (s : Site) : Rose (Handle × Kind) := .node (s.node, s.kind) s.region

/-- The handles of the node and of all that is below it. -/
def places (s : Site) : List Handle := Rose.places [s.tree]

/-- What an arena holds there. -/
def records (s : Site) : List (Handle × Node) := recordsAll Node.mk s.above [s.tree]

/-- The site under other handles. -/
def rename (ρ : Handle → Handle) (s : Site) : Site :=
  ⟨s.above.map ρ, ρ s.node, s.kind, s.region.map (renameTree ρ)⟩

/-- What a replay into the node makes of it. -/
def replay (supply : Nat → Handle) (p : Patch) (s : Site) : Outcome Error Site :=
  if s.kind.isContainer then
    let replayed := Zipper.replay supply p.instructions [⟨s.node, s.kind, [], s.region⟩]
    let ended := Zipper.finish replayed.failure replayed.state
    ⟨ended.failure, { s with region := Zipper.below [] ended.state }⟩
  else ⟨some (.notContainer s.node), s⟩

theorem tree_rename (ρ : Handle → Handle) (s : Site) : (s.rename ρ).tree = renameTree ρ s.tree := by
  simp [tree, rename]

theorem node_mem_places (s : Site) : s.node ∈ s.places := Rose.place_mem_places List.mem_cons_self

theorem mem_places_of_mem_region {x : Handle} (hx : x ∈ Rose.places s.region) : x ∈ s.places := by
  rw [places, tree, Rose.places_node]
  exact List.mem_cons_of_mem _ (List.mem_append_left _ hx)

theorem map_fst_records (s : Site) : s.records.map Prod.fst = s.places :=
  Rose.map_fst_recordsAll s.above [s.tree]

theorem places_rename (ρ : Handle → Handle) (s : Site) : (s.rename ρ).places = s.places.map ρ := by
  rw [places, tree_rename, places, ← places_map_renameTree]
  rfl

theorem records_rename (ρ : Handle → Handle) (s : Site) :
    (s.rename ρ).records = s.records.map (Prod.map ρ (Node.rename ρ)) := by
  rw [records, tree_rename, records, ← recordsAll_map_renameTree]
  rfl

theorem rename_rename (ρ ρ' : Handle → Handle) (s : Site) :
    (s.rename ρ).rename ρ' = s.rename (ρ' ∘ ρ) := by
  simp [rename, Function.comp_def]

theorem rename_congr (habove : s.above.map ρ = s.above.map ρ')
    (hplaces : ∀ x ∈ s.places, ρ x = ρ' x) : s.rename ρ = s.rename ρ' := by
  rw [rename, rename, habove, hplaces s.node s.node_mem_places,
    map_renameTree_congr fun x hx => hplaces x (mem_places_of_mem_region hx)]

theorem rename_eq_self (habove : s.above.map ρ = s.above) (hplaces : ∀ x ∈ s.places, ρ x = x) :
    s.rename ρ = s := by
  rw [rename, habove, hplaces s.node s.node_mem_places,
    map_renameTree_eq_self fun x hx => hplaces x (mem_places_of_mem_region hx)]

@[simp] theorem above_replay (supply : Nat → Handle) (p : Patch) (s : Site) :
    (s.replay supply p).state.above = s.above := by
  rw [replay]
  split <;> rfl

@[simp] theorem node_replay (supply : Nat → Handle) (p : Patch) (s : Site) :
    (s.replay supply p).state.node = s.node := by
  rw [replay]
  split <;> rfl

/-- A replay makes the same of a site under other handles. -/
theorem replay_rename (ρ : Handle → Handle) (supply : Nat → Handle) (p : Patch) (s : Site) :
    (s.rename ρ).replay (fun k => ρ (supply k)) p =
      renameOutcome ρ (rename ρ) (s.replay supply p) := by
  have hreplay := Zipper.replay_map_rename ρ supply p.instructions [⟨s.node, s.kind, [], s.region⟩]
  have hbelow := Zipper.below_map_rename ρ []
  simp only [List.map_cons, List.map_nil, Level.rename] at hreplay hbelow
  simp only [replay, rename, hreplay, renameOutcome, Zipper.finish_map_rename]
  split
  · simp only [hbelow]
  · rfl

end Site

end LiveMarkup.Live
