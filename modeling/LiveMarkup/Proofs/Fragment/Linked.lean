import LiveMarkup.Proofs.Fragment.Content

/-!
# The links of a fragment

A fragment grows by two changes only: a node is added as the last child of a container, and
a text gets another content. What both keep is `Linked`: parents and children agree, every
child has a larger index than its parent, and all but the root have a parent. So the links of
a grown fragment form a forest, its document order meets every node, and the arena holds the
trees below the root with everything that they say about its nodes.
-/

namespace LiveMarkup.Fragment

open Rose (place places recordsAll)

variable {t u : Fragment} {id parent : Nat} {kind : Kind}

/-- Parents and children agree and form one tree below the root, and only containers have
children. -/
structure Linked (t : Fragment) : Prop where
  root : ∃ children, t.node? root = some ⟨.root, none, children⟩
  mem_children_iff : ∀ {p c}, c ∈ t.children p ↔ t.parent? c = some p
  nodup_children : ∀ p, (t.children p).Nodup
  lt_of_parent? : ∀ {p c}, t.parent? c = some p → p < c
  parent?_eq_none : ∀ {id}, id < t.size → t.parent? id = none → id = Fragment.root
  isContainerAt : ∀ {p c}, t.parent? c = some p → t.isContainerAt p = true
  eq_root : ∀ {id}, t.kind? id = some .root → id = Fragment.root

theorem lt_size_of_node? {n : Node} (hn : t.node? id = some n) : id < t.size :=
  (Array.getElem?_eq_some_iff.mp hn).1

theorem lt_size_of_parent? (h : t.parent? id = some parent) : id < t.size := by
  obtain ⟨n, hn, -⟩ := Option.bind_eq_some_iff.mp h
  exact lt_size_of_node? hn

theorem parent?_of_node? {n : Node} (hn : t.node? id = some n) : t.parent? id = n.parent := by
  rw [parent?, hn]
  rfl

theorem kind?_of_node? {n : Node} (hn : t.node? id = some n) : t.kind? id = some n.kind := by
  rw [kind?, hn]
  rfl

theorem node?_eq_of_lt (hid : id < t.size) :
    t.node? id = some ⟨t.kindOf id, t.parent? id, t.children id⟩ := by
  have hn : t.node? id = some t.nodes[id] := Array.getElem?_eq_getElem hid
  rw [kindOf, kind?_of_node? hn, parent?_of_node? hn, children_of_node? hn, hn]
  rfl

theorem parent?_attach (t : Fragment) (parent : Nat) (kind : Kind) (x : Nat) :
    (t.attach parent kind).parent? x = if x = t.size then some parent else t.parent? x := by
  rw [parent?, node?_attach]
  split
  · rfl
  · split
    · rw [parent?]
      cases t.node? x <;> rfl
    · rfl

theorem children_attach (hparent : parent < t.size) (kind : Kind) (x : Nat) :
    (t.attach parent kind).children x =
      if x = parent then t.children parent ++ [t.size] else t.children x := by
  rw [children, node?_attach]
  by_cases hsize : x = t.size
  · have hne : x ≠ parent := by omega
    rw [if_pos hsize, if_neg hne, hsize, children, node?_size]
    rfl
  · rw [if_neg hsize]
    by_cases hx : x = parent
    · subst hx
      rw [if_pos rfl, if_pos rfl, node?_eq_of_lt hparent]
      rfl
    · rw [if_neg hx, if_neg hx, children]

theorem kind?_attach_of_ne (parent : Nat) (kind : Kind) (hid : id ≠ t.size) :
    (t.attach parent kind).kind? id = t.kind? id := by
  by_cases hlt : id < t.size
  · exact kind?_attach hlt
  · have hnone : t.node? id = none := Array.getElem?_eq_none (Nat.le_of_not_lt hlt)
    rw [kind?, kind?, node?_attach, if_neg hid, hnone]
    split <;> rfl

/-- A node that is not the root is added to a container. -/
theorem Linked.attach (ht : Linked t) (hparent : t.isContainerAt parent = true)
    (hkind : kind ≠ .root) : Linked (t.attach parent kind) := by
  have hlt := lt_size_of_isContainerAt hparent
  obtain ⟨children, hroot⟩ := ht.root
  have hne : Fragment.root ≠ t.size := Nat.ne_of_lt (lt_size_of_node? hroot)
  -- The new node was no child of any node before.
  have hnew : ∀ p, t.size ∉ t.children p := by
    intro p hmem
    exact Nat.lt_irrefl _ (lt_size_of_parent? (ht.mem_children_iff.mp hmem))
  refine ⟨?_, ?_, ?_, ?_, ?_, ?_, ?_⟩
  · rw [node?_attach, if_neg hne, hroot]
    split
    · exact ⟨_, rfl⟩
    · exact ⟨_, rfl⟩
  · intro p c
    rw [children_attach hlt, parent?_attach]
    by_cases hc : c = t.size
    · subst hc
      rw [if_pos rfl, Option.some_inj]
      split
      · next hp => simp [hp]
      · next hp => simp [hnew p, Ne.symm hp]
    · rw [if_neg hc, ← ht.mem_children_iff]
      split
      · next hp => simp [hp, hc]
      · rfl
  · intro p
    rw [children_attach hlt]
    split
    · refine List.nodup_append.mpr ⟨ht.nodup_children parent, by simp, ?_⟩
      rintro a ha b hb rfl
      rw [List.mem_singleton.mp hb] at ha
      exact hnew parent ha
    · exact ht.nodup_children p
  · intro p c hp
    rw [parent?_attach] at hp
    split at hp
    · cases hp
      omega
    · exact ht.lt_of_parent? hp
  · intro id hid hnone
    rw [parent?_attach] at hnone
    rw [size_attach] at hid
    split at hnone
    · cases hnone
    · exact ht.parent?_eq_none (by omega) hnone
  · intro p c hp
    rw [parent?_attach] at hp
    split at hp
    · cases hp
      exact isContainerAt_attach hparent
    · exact isContainerAt_attach (ht.isContainerAt hp)
  · intro id hid
    by_cases hsize : id = t.size
    · rw [hsize, kind?_attach_size, Option.some_inj] at hid
      exact absurd hid hkind
    · rw [kind?_attach_of_ne parent kind hsize] at hid
      exact ht.eq_root hid

/-- A text gets another content. -/
theorem Linked.setText (ht : Linked t) {old : String} (hold : t.kind? id = some (.text old))
    (data : String) : Linked (t.setText id data) := by
  have hchildren : ∀ x, (t.setText id data).children x = t.children x := by
    intro x
    rw [children, node?_setText, children]
    split
    · cases t.node? x <;> rfl
    · rfl
  have hparent : ∀ x, (t.setText id data).parent? x = t.parent? x := by
    intro x
    rw [parent?, node?_setText, parent?]
    split
    · cases t.node? x <;> rfl
    · rfl
  refine ⟨?_, ?_, ?_, ?_, ?_, ?_, ?_⟩
  · obtain ⟨children, hroot⟩ := ht.root
    have hne : Fragment.root ≠ id := by
      rintro rfl
      rw [kind?_of_node? hroot] at hold
      cases hold
    rw [node?_setText, if_neg hne]
    exact ht.root
  · intro p c
    rw [hchildren, hparent]
    exact ht.mem_children_iff
  · intro p
    rw [hchildren]
    exact ht.nodup_children p
  · intro p c hp
    rw [hparent] at hp
    exact ht.lt_of_parent? hp
  · intro x hx hnone
    rw [hparent] at hnone
    rw [size_setText] at hx
    exact ht.parent?_eq_none hx hnone
  · intro p c hp
    rw [hparent] at hp
    exact isContainerAt_setText hold (ht.isContainerAt hp)
  · intro x hx
    rw [kind?, node?_setText] at hx
    split at hx
    · next heq =>
      cases hn : t.node? x with
      | none =>
        rw [hn] at hx
        cases hx
      | some n =>
        rw [hn] at hx
        cases hx
    · exact ht.eq_root hx

theorem linked_empty : Linked Fragment.empty where
  root := ⟨[], rfl⟩
  mem_children_iff := by
    intro p c
    match p, c with
    | 0, 0 => simp [children, parent?, node?, Fragment.empty]
    | 0, c + 1 => simp [children, parent?, node?, Fragment.empty]
    | p + 1, 0 => simp [children, parent?, node?, Fragment.empty]
    | p + 1, c + 1 => simp [children, parent?, node?, Fragment.empty]
  nodup_children p := by
    cases p <;> simp [children, node?, Fragment.empty]
  lt_of_parent? := by
    intro p c hp
    cases c <;> simp [parent?, node?, Fragment.empty] at hp
  parent?_eq_none := by
    intro id hid _
    rw [size_empty] at hid
    exact Nat.lt_one_iff.mp hid
  isContainerAt := by
    intro p c hp
    cases c <;> simp [parent?, node?, Fragment.empty] at hp
  eq_root := by
    intro id hid
    cases id with
    | zero => rfl
    | succ id => simp [kind?, node?, Fragment.empty] at hid

theorem Linked.append (ht : Linked t) (happend : t.append parent kind = .ok (id, u)) :
    Linked u := by
  rw [Fragment.append] at happend
  split at happend
  · cases happend
  · next hkind =>
    split at happend
    · cases happend
    · next parentKind hparent =>
      split at happend
      · next hcontainer =>
        cases happend
        exact ht.attach (by rw [Fragment.isContainerAt, hparent]; exact hcontainer) hkind
      · cases happend

/-- However a fragment is grown, its links are sound. -/
theorem Grown.linked (h : Grown t) : Linked t := by
  induction h with
  | empty => exact linked_empty
  | append _ happend ih => exact ih.append happend
  | @appendText t u parent id text _ happend ih =>
    rw [Fragment.appendText] at happend
    split at happend
    · cases happend
      exact ih
    · split at happend
      · cases happend
      · split at happend
        · next last data htrailing =>
          cases happend
          exact ih.setText (kind?_of_trailingText? htrailing) _
        · cases hmade : t.append parent (.text text) with
          | error e =>
            rw [hmade] at happend
            cases happend
          | ok made =>
            rw [hmade] at happend
            cases happend
            exact ih.append hmade

namespace Linked

theorem children_eq_nil (ht : Linked t) (hleaf : t.isContainerAt id = false) :
    t.children id = [] := by
  rw [List.eq_nil_iff_forall_not_mem]
  intro c hc
  rw [ht.isContainerAt (ht.mem_children_iff.mp hc)] at hleaf
  cases hleaf

/-- A child comes behind its parent, so it is not the root. -/
theorem of_mem_children (ht : Linked t) {p c : Nat} (hc : c ∈ t.children p) :
    p < c ∧ c < t.size ∧ c ≠ Fragment.root := by
  have hparent := ht.mem_children_iff.mp hc
  have hlt := ht.lt_of_parent? hparent
  exact ⟨hlt, lt_size_of_parent? hparent, Nat.ne_of_gt (Nat.zero_lt_of_lt hlt)⟩

theorem grounded (ht : Linked t) (id : Nat) : Grounded t.parent? id := by
  induction id using Nat.strongRecOn with
  | ind id ih =>
    cases hparent : t.parent? id with
    | none => exact .top hparent
    | some p => exact .step hparent (ih p (ht.lt_of_parent? hparent))

/-- The nodes of a fragment form a forest. -/
theorem hierarchy (ht : Linked t) :
    Hierarchy t.parent? t.children (fun id => id < t.size) t.size where
  mem_below_iff := ht.mem_children_iff
  nodup_below := ht.nodup_children
  grounded := ht.grounded
  present_of_parent hparent :=
    have hlt := lt_size_of_parent? hparent
    ⟨Nat.lt_trans (ht.lt_of_parent? hparent) hlt, hlt⟩
  length_le l hnodup hl := by
    have hsub : l ⊆ List.range t.size := fun id hid => List.mem_range.mpr (hl id hid)
    simpa using (hnodup.subperm hsub).length_le

end Linked

/-- The trees below the root, each of their nodes with its index. -/
def region (t : Fragment) : Branches := Rose.mapAll (fun id => (id, t.kindOf id)) t.forest

namespace Linked

theorem root_lt_size (ht : Linked t) : Fragment.root < t.size := by
  obtain ⟨children, hroot⟩ := ht.root
  exact lt_size_of_node? hroot

/-- The arena holds the root with the trees below it. -/
theorem stored_region (ht : Linked t) :
    Stored t.node? (Rose.records Node.mk none (.node (Fragment.root, .root) t.region)) := by
  obtain ⟨children, hroot⟩ := ht.root
  have hstored : Stored t.node? (Rose.records Node.mk (t.parent? Fragment.root)
      (.node (Fragment.root, t.kindOf Fragment.root) t.region)) :=
    ht.hierarchy.stored_unfold (fun hid => node?_eq_of_lt hid) ht.root_lt_size
  have hkind : t.kindOf Fragment.root = .root := by
    rw [kindOf, kind?_of_node? hroot]
    rfl
  rwa [parent?_of_node? hroot, hkind] at hstored

theorem root_not_mem_region (ht : Linked t) : Fragment.root ∉ places t.region := by
  have hnodup := ht.stored_region.nodup
  rw [Rose.records, List.map_cons, Rose.map_fst_recordsAll] at hnodup
  exact (List.nodup_cons.mp hnodup).1

theorem held_region (ht : Linked t) :
    Held t.node? (recordsAll Node.mk (some Fragment.root) t.region) :=
  ht.stored_region.held.tail

/-- The document order of the nodes is that of the trees. -/
theorem preorder_eq (ht : Linked t) : t.preorder = places t.region := by
  have hwalk := ht.hierarchy.walk_eq (ht.nodup_children Fragment.root)
    (fun _ hc => ht.mem_children_iff.mp hc)
    (fun _ hc => (ht.hierarchy.present_of_parent (ht.mem_children_iff.mp hc)).2)
  rw [preorder, hwalk, places, region, Rose.preorderAll_mapAll, List.map_map, forest]
  simp [Function.comp_def]

theorem lt_size_of_mem_region (ht : Linked t) (hid : id ∈ places t.region) : id < t.size := by
  have hrecords : (recordsAll Node.mk (some Fragment.root) t.region).map Prod.fst =
      places t.region := Rose.map_fst_recordsAll _ _
  rw [← hrecords] at hid
  obtain ⟨e, he, rfl⟩ := List.mem_map.mp hid
  exact lt_size_of_node? (ht.held_region e he)

/-- The trees show what the arena stores. -/
theorem kind?_of_mem_region (ht : Linked t) {kind : Kind}
    (hid : (id, kind) ∈ Rose.preorderAll t.region) : t.kind? id = some kind := by
  have hlt := ht.lt_size_of_mem_region (List.mem_map_of_mem hid)
  rw [region, Rose.preorderAll_mapAll] at hid
  obtain ⟨x, -, heq⟩ := List.mem_map.mp hid
  cases heq
  exact kind?_of_node? (node?_eq_of_lt hlt)

theorem length_places_region_lt (ht : Linked t) : (places t.region).length < t.size := by
  have hnodup := ht.stored_region.nodup
  rw [Rose.records, List.map_cons, Rose.map_fst_recordsAll] at hnodup
  refine ht.hierarchy.length_le _ hnodup fun id hid => ?_
  rcases List.mem_cons.mp hid with rfl | hid
  · exact ht.root_lt_size
  · exact ht.lt_size_of_mem_region hid

/-- The way up from a node other than the root ends right below the root. -/
theorem exists_within (ht : Linked t) (hid : id < t.size) (hne : id ≠ Fragment.root) :
    ∃ a ∈ t.children Fragment.root, Within t.parent? id a := by
  induction id using Nat.strongRecOn with
  | ind id ih =>
    cases hparent : t.parent? id with
    | none => exact absurd (ht.parent?_eq_none hid hparent) hne
    | some p =>
      by_cases hp : p = Fragment.root
      · subst hp
        exact ⟨id, ht.mem_children_iff.mpr hparent, .refl⟩
      · have hlt := ht.lt_of_parent? hparent
        obtain ⟨a, ha, hwithin⟩ := ih p hlt (Nat.lt_trans hlt hid) hp
        exact ⟨a, ha, .head hparent hwithin⟩

/-- The document order meets all nodes but the root. -/
theorem mem_preorder_iff (ht : Linked t) :
    id ∈ t.preorder ↔ id < t.size ∧ id ≠ Fragment.root := by
  constructor
  · intro hid
    rw [ht.preorder_eq] at hid
    refine ⟨ht.lt_size_of_mem_region hid, ?_⟩
    rintro rfl
    exact ht.root_not_mem_region hid
  · rintro ⟨hid, hne⟩
    have hsame : ∀ c ∈ t.children Fragment.root, t.parent? c = some Fragment.root :=
      fun _ hc => ht.mem_children_iff.mp hc
    refine (ht.hierarchy.mem_walk_iff (ht.nodup_children Fragment.root) hsame ?_).mpr
      (ht.exists_within hid hne)
    exact fun c hc => lt_size_of_parent? (hsame c hc)

end Linked

end LiveMarkup.Fragment
