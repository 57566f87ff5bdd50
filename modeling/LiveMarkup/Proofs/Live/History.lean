import LiveMarkup.Live.Markup
import LiveMarkup.Live.Snapshot
import LiveMarkup.Proofs.Live.Slots

/-!
# The handles of a run

A run gives out handles one by one, to the nodes that are created by hand and to those that
transactions make. They are all different, the one of the root included, although slots are
used again: a slot counts its occupants, and it is not used again once it cannot count
further. So a handle whose node is gone names nothing for the rest of the run, and the tree
treats it like a handle that was never there (`Unknown`).

A call makes one node at most, and that node gets the handle that is next (`Adds`). All that
is said of runs follows from this and from handles staying issued (`Outlasts`).
-/

namespace LiveMarkup.Live.Tree

variable {t u : Tree} {h : Handle}

/-- The handle that a call gives to a node that it makes. An instruction has made a node
where the one at the cursor was not a child before. An open that is refused for an attribute
has made its element already. -/
def newHandle? (t : Tree) : Call → Option Handle
  | .createElement name => (t.createElement name).1.toOption
  | .createText content => some (t.createText content).1
  | .perform (.openTag name key _) =>
    t.openFrames.head?.bind fun frame =>
      (t.claim frame name key.value).1.toOption.filter fun h => h ∉ t.children frame.node
  | .perform (.text content) =>
    t.openFrames.head?.bind fun frame =>
      ((t.putText content).state.children frame.node)[frame.cursor]?.filter
        fun h => h ∉ t.children frame.node
  | _ => none

/-- The calls that may make a node. -/
def mayMake : Call → Bool
  | .createElement _ | .createText _ => true
  | .perform i => i.isOpen || i.isText
  | _ => false

/-- The handles that calls give to new nodes, in order. -/
def assigned (t : Tree) : List Call → List Handle
  | [] => []
  | c :: rest => (t.newHandle? c).toList ++ (t.call c).state.assigned rest

/-- The tree knows nothing of a handle: look-ups find nothing, and building calls refuse it and
do nothing.
Where both nodes of a link are unknown, the parent is the one that is named. -/
structure Unknown (t : Tree) (h : Handle) : Prop where
  isLive : t.isLive h = false
  children : t.children h = []
  parent? : t.parent? h = none
  elementName? : t.elementName? h = none
  key? : t.key? h = none
  attributes : t.attributes h = []
  attribute? : ∀ name, t.attribute? h name = none
  text? : t.text? h = none
  source? : t.source? h = none
  outerMarkup : t.outerMarkup h = ""
  innerMarkup : t.innerMarkup h = ""
  snapshot : ∀ includeKeys, t.snapshot h includeKeys = []
  appendChild : ∀ child, t.appendChild h child = ⟨some (.unknownNode h), t⟩
  appendChild_child : ∀ parent, t.appendChild parent h =
    ⟨some (.unknownNode (if t.isLive parent then h else parent)), t⟩
  setAttribute : ∀ name value, t.setAttribute h name value = ⟨some (.unknownNode h), t⟩
  setKey : ∀ key, t.setKey h key = ⟨some (.unknownNode h), t⟩

/-- Every handle without a node is unknown. The root always has its node. -/
theorem unknown_of_node?_eq_none (hnone : t.node? h = none) (hroot : h ≠ .root) :
    Unknown t h where
  isLive := by simp [isLive, hnone]
  children := by simp [children, hnone]
  parent? := by simp [parent?, hnone]
  elementName? := by simp [elementName?, hnone]
  key? := by simp [key?, hnone]
  attributes := by simp [attributes, hnone]
  attribute? name := by simp [attribute?, attributes, hnone]
  text? := by simp [text?, hnone]
  source? := by simp [source?, elementName?, hnone]
  outerMarkup := by
    rw [outerMarkup, if_neg hroot, subtreeMarkup]
    cases 2 * t.capacity <;> simp [walk, visitMarkup, hnone]
  innerMarkup := by simp [innerMarkup, children, hnone]
  snapshot includeKeys := by
    rw [snapshot, if_neg hroot]
    cases t.capacity <;> simp [walk, visitSnapshot, hnone]
  appendChild child := by simp [appendChild, hnone]
  appendChild_child parent := by
    cases hparent : t.node? parent <;> simp [appendChild, isLive, hnone, hparent]
  setAttribute name value := by simp [setAttribute, hnone]
  setKey key := by simp [setKey, hnone]

/-- What a call adds to the nodes: nothing, or one node under the handle that is next. -/
inductive Adds (t u : Tree) : Option Handle → Prop
  | nothing : (∀ {h}, u.isLive h = true → t.isLive h = true) → Adds t u none
  | node : (∀ {h}, u.isLive h = true ↔ h = t.fresh ∨ t.isLive h = true) → Adds t u (some t.fresh)

namespace Adds

theorem of_occupancy (hsame : ∀ i, u.occupancy i = t.occupancy i) : Adds t u none :=
  .nothing fun {h} hlive => by rwa [isLive_iff, hsame, ← isLive_iff] at hlive

theorem allocate (ht : WellLinked t) (kind : Kind) :
    Adds t (t.allocate kind).2 (some t.fresh) := .node (isLive_allocate_iff ht)

/-- A new node is put where its parent has place for it. -/
theorem insert (ht : WellLinked t) (kind : Kind) (p : Handle) (index : Nat) :
    Adds t ((t.allocate kind).2.link p index t.fresh) (some t.fresh) := by
  refine .node fun {h} => ?_
  rw [link, isLive_modify, isLive_modify]
  exact isLive_allocate_iff ht

theorem fresh_not_mem_children (ht : WellLinked t) (p : Handle) : t.fresh ∉ t.children p := by
  intro hmem
  have hlive := isLive_of_parent? (ht.mem_children_iff.mp hmem)
  rw [isLive, ht.node?_fresh] at hlive
  cases hlive

theorem claim (ht : WellLinked t) {frame : Frame} {name key : String} {element : Handle}
    (hclaim : t.claim frame name key = (.ok element, u)) :
    Adds t u ((some element).filter fun h => h ∉ t.children frame.node) := by
  obtain ⟨_, ⟨hfound, rfl⟩ | ⟨_, _, _, rfl, rfl⟩⟩ := claim_cases hclaim
  · have hmem := List.mem_of_mem_drop (mem_of_findKeyed? hfound).1
    rw [Option.filter_some, if_neg (by simpa using hmem)]
    exact .of_occupancy fun i => occupancy_modify _ _ _ i
  · rw [Option.filter_some, if_pos (by simpa using fresh_not_mem_children ht frame.node)]
    exact insert ht _ _ _

/-- What is done to a tree without touching the slots comes after what a call adds. -/
theorem trans_occupancy {v : Tree} {made : Option Handle} (h : Adds t u made)
    (hsame : ∀ i, v.occupancy i = u.occupancy i) : Adds t v made := by
  have hlive : ∀ {h}, v.isLive h = true ↔ u.isLive h = true := by
    intro h
    rw [isLive_iff, hsame, ← isLive_iff]
  cases h with
  | nothing h => exact .nothing fun hv => h (hlive.mp hv)
  | node h => exact .node (hlive.trans h)

theorem openElement (ht : WellLinked t) (name : String) (key : Patch.Key)
    (attributes : List (String × String)) :
    Adds t (t.openElement name key.value attributes).state
      (t.newHandle? (.perform (.openTag name key attributes))) := by
  simp only [Tree.openElement, newHandle?]
  cases t.openFrames with
  | nil => exact .nothing id
  | cons frame outer =>
    simp only [List.head?_cons, Option.bind_some]
    rcases hclaim : t.claim frame name key.value with ⟨e | element, u⟩
    · obtain ⟨rfl, -⟩ := claim_error_cases hclaim
      exact .nothing id
    · have hadds := claim ht hclaim
      simp only [Except.toOption]
      split
      · exact hadds
      · exact hadds.trans_occupancy fun i => occupancy_modify u element _ i

/-- A text that is taken over is a child as before. -/
private theorem of_children {frame : Frame} {v : Tree}
    (hsame : v.children frame.node = t.children frame.node)
    (hocc : ∀ i, v.occupancy i = t.occupancy i) :
    Adds t v ((v.children frame.node)[frame.cursor]?.filter
      fun h => h ∉ t.children frame.node) := by
  rw [hsame, Option.filter_eq_none_iff.mpr fun h hh => by simpa using List.mem_of_getElem? hh]
  exact .of_occupancy hocc

/-- A text that is made is the child at the cursor. -/
private theorem of_insert (ht : WellLinked t) {frame : Frame} (kind : Kind)
    (hlive : t.isLive frame.node = true)
    (hcursor : frame.cursor ≤ (t.children frame.node).length) :
    Adds t ((t.allocate kind).2.link frame.node frame.cursor t.fresh)
      ((((t.allocate kind).2.link frame.node frame.cursor t.fresh).children
        frame.node)[frame.cursor]?.filter fun h => h ∉ t.children frame.node) := by
  have hne : frame.node ≠ t.fresh := by
    intro hfresh
    rw [hfresh, isLive, ht.node?_fresh] at hlive
    cases hlive
  have hfront : ((t.children frame.node).take frame.cursor).length = frame.cursor :=
    List.length_take_of_le hcursor
  rw [children_link hne ((isLive_allocate_iff ht).mpr (.inr hlive)), if_pos rfl,
    children_allocate ht, List.getElem?_append_right (by omega), hfront, Nat.sub_self,
    List.getElem?_cons_zero, Option.filter_some,
    if_pos (by simpa using fresh_not_mem_children ht frame.node)]
  exact insert ht kind frame.node frame.cursor

theorem putText (ht : WellLinked t) (content : String) :
    Adds t (t.putText content).state (t.newHandle? (.perform (.text content))) := by
  simp only [newHandle?, Tree.putText]
  cases t.openFrames with
  | nil => exact .nothing id
  | cons frame outer =>
    simp only [List.head?_cons, Option.bind_some]
    split
    · exact of_children rfl fun _ => rfl
    · next hcheck =>
      split
      · next found _ =>
        exact of_children (children_modify_kind t found frame.node
          (fun n => { n with kind := .text content }) fun _ => rfl)
          fun i => occupancy_modify _ _ _ i
      · split
        · exact of_children rfl fun _ => rfl
        · next hcursor =>
          rw [allocate_fst]
          exact (of_insert ht (.text content) (isLive_of_check hcheck)
            (Nat.le_of_not_lt hcursor)).trans_occupancy fun _ => rfl

/-- The other calls make no node. -/
theorem called (ht : WellLinked t) {c : Call} (hcall : Called t c u) (hc : mayMake c = false) :
    Adds t u none := by
  cases hcall with
  | refused => exact .nothing id
  | appendChild => exact .of_occupancy fun i => by simp [link]
  | setAttribute => exact .of_occupancy fun i => occupancy_modify _ _ _ i
  | setKey => exact .of_occupancy fun i => occupancy_modify _ _ _ i
  | begin => exact .nothing id
  | closeElement => exact .nothing fun hlive => isLive_of_truncate ht hlive
  | skip => exact .nothing id
  | abandon => exact .nothing id
  | complete => exact .nothing fun hlive => isLive_of_truncate ht hlive
  | _ => cases hc

theorem call (ht : WellLinked t) (c : Call) : Adds t (t.call c).state (t.newHandle? c) := by
  cases c with
  | createElement name =>
    simp only [Tree.call, newHandle?, Tree.createElement]
    by_cases hname : Markup.isTagName (Markup.lowerName name) = true
    · have hadds := allocate ht (.element (Markup.lowerName name) none [])
      simp only [if_pos hname]
      rwa [← allocate_fst t (.element (Markup.lowerName name) none [])] at hadds
    · simp only [if_neg hname]
      exact .nothing id
  | createText content =>
    have hadds := allocate ht (.text content)
    rwa [← allocate_fst t (.text content)] at hadds
  | perform instruction =>
    cases instruction with
    | openTag name key attributes => exact openElement ht name key attributes
    | closeTag name => exact called ht (Tree.called t _) rfl
    | text content => exact putText ht content
    | skip => exact called ht (Tree.called t _) rfl
  | appendChild parent child => exact called ht (Tree.called t _) rfl
  | setAttribute node name value => exact called ht (Tree.called t _) rfl
  | setKey node key => exact called ht (Tree.called t _) rfl
  | begin target => exact called ht (Tree.called t _) rfl
  | finish raised => exact called ht (Tree.called t _) rfl

end Adds

theorem WellLinked.run (ht : WellLinked t) (calls : List Call) : WellLinked (t.run calls) := by
  induction calls generalizing t with
  | nil => exact ht
  | cons c rest ih => exact ih (ht.call c)

theorem Outlasts.run (ht : WellLinked t) (calls : List Call) : Outlasts t (t.run calls) := by
  induction calls generalizing t with
  | nil => exact .refl t
  | cons c rest ih => exact (Outlasts.call ht c).trans (ih (ht.call c))

/-- A call gives its new node a handle that was never given out, and has it given out then. -/
theorem issued_newHandle? (ht : WellLinked t) {c : Call} (hnew : t.newHandle? c = some h) :
    ¬ t.Issued h ∧ (t.call c).state.Issued h := by
  have hadds := Adds.call ht c
  rw [hnew] at hadds
  cases hadds with
  | node hlive => exact ⟨not_issued_fresh, issued_of_isLive (hlive.mpr (.inl rfl))⟩

/-- The handles that are assigned from some tree on are new to it. -/
theorem not_issued_of_mem_assigned (ht : WellLinked t) {calls : List Call}
    (hmem : h ∈ t.assigned calls) : ¬ t.Issued h ∧ (t.run calls).Issued h := by
  induction calls generalizing t with
  | nil => cases hmem
  | cons c rest ih =>
    rw [assigned, List.mem_append, Option.mem_toList] at hmem
    rcases hmem with hnew | hrest
    · obtain ⟨hbefore, hafter⟩ := issued_newHandle? ht hnew
      exact ⟨hbefore, (Outlasts.run (ht.call c) rest).issued hafter⟩
    · obtain ⟨hbefore, hafter⟩ := ih (ht.call c) hrest
      exact ⟨fun hissued => hbefore ((Outlasts.call ht c).issued hissued), hafter⟩

theorem nodup_assigned (ht : WellLinked t) (calls : List Call) : (t.assigned calls).Nodup := by
  induction calls generalizing t with
  | nil => exact List.nodup_nil
  | cons c rest ih =>
    rw [assigned, List.nodup_append']
    refine ⟨?_, ih (ht.call c), fun h hnew hrest => ?_⟩
    · cases t.newHandle? c <;> simp
    · rw [Option.mem_toList] at hnew
      exact (not_issued_of_mem_assigned (ht.call c) hrest).1 (issued_newHandle? ht hnew).2

/-- A node that is there after some calls was there before or has got its handle from them. -/
theorem mem_assigned_of_isLive (ht : WellLinked t) {calls : List Call}
    (hlive : (t.run calls).isLive h = true) : t.isLive h = true ∨ h ∈ t.assigned calls := by
  induction calls generalizing t with
  | nil => exact .inl hlive
  | cons c rest ih =>
    rw [assigned, List.mem_append, Option.mem_toList]
    rcases ih (ht.call c) hlive with hafter | hrest
    · have hadds := Adds.call ht c
      generalize t.newHandle? c = made at hadds
      cases hadds with
      | nothing hbefore => exact .inl (hbefore hafter)
      | node hiff =>
        rcases hiff.mp hafter with rfl | hbefore
        · exact .inr (.inl rfl)
        · exact .inl hbefore
    · exact .inr (.inr hrest)

theorem isLive_root (ht : WellLinked t) : t.isLive .root = true := by
  obtain ⟨children, hroot⟩ := ht.root
  exact isLive_of_node? hroot

theorem isLive_new {h : Handle} : new.isLive h = true ↔ h = .root := by
  rw [isLive, node?_new]
  by_cases hroot : h = .root
  · simp [hroot]
  · simp [hroot]

/-- Whatever is called, and wherever it fails: the handles that a run assigns to its nodes,
from the root on, are all different, and they are the handles of all nodes that are there. A
handle whose node is gone at one time is unknown at all later ones. No slot is ever given
out again when its generation could not grow. -/
theorem assigned_run (before after : List Call) :
    (Handle.root :: Tree.new.assigned (before ++ after)).Nodup ∧
    (∀ h, (Tree.new.run before).isLive h = true → h ∈ Handle.root :: Tree.new.assigned before) ∧
    (∀ h ∈ Handle.root :: Tree.new.assigned before, (Tree.new.run before).isLive h = false →
      Unknown (Tree.new.run (before ++ after)) h) ∧
    ∀ i ∈ (Tree.new.run before).free,
      ((Tree.new.run before).resident i).generation + 1 < UInt32.size := by
  have ht := wellLinked_new.run before
  refine ⟨?_, fun h hlive => ?_, fun h hassigned hdead => ?_, fun i => generation_lt_of_mem_free ht⟩
  · refine List.nodup_cons.mpr ⟨fun hmem => ?_, nodup_assigned wellLinked_new _⟩
    exact (not_issued_of_mem_assigned wellLinked_new hmem).1
      (issued_of_isLive (isLive_root wellLinked_new))
  · rcases mem_assigned_of_isLive wellLinked_new hlive with hroot | hmem
    · rw [isLive_new.mp hroot]
      exact List.mem_cons_self
    · exact List.mem_cons_of_mem _ hmem
  · have hroot : h ≠ .root := by
      rintro rfl
      rw [isLive_root ht] at hdead
      cases hdead
    have hissued := (not_issued_of_mem_assigned wellLinked_new
      ((List.mem_cons.mp hassigned).resolve_left hroot)).2
    refine unknown_of_node?_eq_none ?_ hroot
    rw [run_append, ← Option.not_isSome_iff_eq_none]
    intro hlive
    rw [(Outlasts.run ht after).isLive hissued hlive] at hdead
    cases hdead

/-- An element and its text are removed, and a text made by hand gets the slot of the one and
an element that a transaction makes the slot of the other. The text is removed once more. -/
theorem assigned_run_reused_slots :
    let before : List Call :=
      [.begin .root, .perform (.openTag "p" (.explicit "k") []), .perform (.text "one"),
        .perform (.closeTag "p"), .finish none, .begin .root, .finish none]
    let after : List Call :=
      [.createText "two", .appendChild .root ⟨2, 1⟩, .begin .root,
        .perform (.openTag "b" (.explicit "k") [("B", "")]), .finish none]
    let t := Tree.new.run (before ++ after)
    Tree.new.assigned (before ++ after) = [⟨1, 0⟩, ⟨2, 0⟩, ⟨2, 1⟩, ⟨1, 1⟩] ∧
      Unknown t ⟨1, 0⟩ ∧ (Handle.root :: Tree.new.assigned (before ++ after)).Nodup := by
  refine ⟨by decide, (assigned_run _ _).2.2.1 ⟨1, 0⟩ (by decide) (by decide),
    (assigned_run _ _).1⟩

end LiveMarkup.Live.Tree
