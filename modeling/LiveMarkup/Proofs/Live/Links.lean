import LiveMarkup.Live.Run
import LiveMarkup.Proofs.Ancestry
import LiveMarkup.Proofs.Live.Lookup

/-!
# The links of a live tree

Six calls and four instructions change parents, children, generations and the list of
waiting slots, each on its own. `WellLinked` is what all of them keep: parents and children
agree, no node is listed twice, every way up ends, the waiting slots are the vacant ones,
and nothing is left of the links of a node that was removed. Each single change has one
lemma; a call is a chain of them.

The one change that touches many nodes is `truncate`. It is sound because what it walks
down to is exactly what lies within the children that it drops.
-/

namespace LiveMarkup.Live.Tree

open Patch (Outcome)

variable {t u : Tree}

/-- Parents and children agree and form a forest, the waiting slots are those that may be
given out again, and the records of the empty slots have no links. -/
structure WellLinked (t : Tree) : Prop where
  root : ∃ children, t.node? .root = some ⟨.root, none, children⟩
  mem_children_iff : ∀ {p c}, c ∈ t.children p ↔ t.parent? c = some p
  nodup_children : ∀ p, (t.children p).Nodup
  grounded : ∀ h, Grounded t.parent? h
  nodup_free : t.free.Nodup
  mem_free_iff : ∀ {i}, i ∈ t.free ↔ t.Vacant i
  cleared : t.Cleared

theorem isLive_of_parent? {p c : Handle} (h : t.parent? c = some p) : t.isLive c = true := by
  obtain ⟨n, hn, _⟩ := Option.bind_eq_some_iff.mp h
  exact isLive_of_node? hn

theorem isLive_of_mem_children {p c : Handle} (h : c ∈ t.children p) : t.isLive p = true := by
  rw [children] at h
  cases hp : t.node? p with
  | none => simp [hp] at h
  | some n => exact isLive_of_node? hp

theorem node?_of_isLive {h : Handle} (hlive : t.isLive h = true) : ∃ n, t.node? h = some n :=
  Option.isSome_iff_exists.mp hlive

namespace WellLinked

theorem vacant_of_mem_free (ht : WellLinked t) : ∀ i ∈ t.free, t.Vacant i :=
  fun _ hi => ht.mem_free_iff.mp hi

theorem parent?_root (ht : WellLinked t) : t.parent? .root = none := by
  obtain ⟨children, hroot⟩ := ht.root
  simp [parent?, hroot]

theorem node?_fresh (ht : WellLinked t) : t.node? t.fresh = none :=
  Tree.node?_fresh ht.vacant_of_mem_free

/-- A new node has no links, and no other node is changed. -/
theorem node?_allocate (ht : WellLinked t) {kind : Kind} (x : Handle) :
    (t.allocate kind).2.node? x = if x = t.fresh then some ⟨kind, none, []⟩ else t.node? x :=
  Tree.node?_allocate ht.vacant_of_mem_free ht.cleared x

/-- The live nodes form a forest. -/
theorem hierarchy (ht : WellLinked t) :
    Hierarchy t.parent? t.children (fun h => t.isLive h = true) t.capacity where
  mem_below_iff := ht.mem_children_iff
  nodup_below := ht.nodup_children
  grounded := ht.grounded
  present_of_parent hparent :=
    ⟨isLive_of_mem_children (ht.mem_children_iff.mpr hparent), isLive_of_parent? hparent⟩
  length_le _ := length_le_capacity

/-- The links and the slots alone decide whether a tree is well linked. -/
theorem congr (ht : WellLinked t) (hroot : u.node? .root = t.node? .root)
    (hchildren : ∀ h, u.children h = t.children h) (hparent : ∀ h, u.parent? h = t.parent? h)
    (hfree : u.free = t.free) (hocc : ∀ i, u.occupancy i = t.occupancy i)
    (hcleared : u.Cleared) : WellLinked u where
  root := hroot ▸ ht.root
  mem_children_iff := by
    intro p c
    rw [hchildren, hparent]
    exact ht.mem_children_iff
  nodup_children p := hchildren p ▸ ht.nodup_children p
  grounded h := (ht.grounded h).cut fun x => .inr (hparent x)
  nodup_free := hfree ▸ ht.nodup_free
  mem_free_iff := by
    intro i
    rw [hfree, ht.mem_free_iff, Vacant, Vacant, hocc]
  cleared := hcleared

theorem setFrames (ht : WellLinked t) (frames : List Frame) (running : Bool) :
    WellLinked { t with frames := frames, running := running } :=
  ht.congr rfl (fun _ => rfl) (fun _ => rfl) rfl (fun _ => rfl) ht.cleared

/-- A node other than the root may become another kind of node. -/
theorem relabel (ht : WellLinked t) {h : Handle} (hroot : h ≠ .root) {f : Node → Node}
    (hchildren : ∀ n, (f n).children = n.children) (hparent : ∀ n, (f n).parent = n.parent) :
    WellLinked (t.modify h f) :=
  ht.congr (node?_modify_of_ne t f (Ne.symm hroot))
    (fun x => children_modify_kind t h x f hchildren) (fun x => parent?_modify t h x f hparent)
    rfl (occupancy_modify t h f) (ht.cleared.modify h f)

/-- The children of a node may be put in another order. -/
theorem reorder (ht : WellLinked t) {h : Handle} {f : List Handle → List Handle}
    (hperm : (f (t.children h)).Perm (t.children h)) :
    WellLinked (t.modify h fun n => { n with children := f n.children }) := by
  have hparent : ∀ x, (t.modify h fun n => { n with children := f n.children }).parent? x =
      t.parent? x := fun x => parent?_modify t h x _ fun _ => rfl
  have hchildren : ∀ x, ((t.modify h fun n => { n with children := f n.children }).children
      x).Perm (t.children x) := by
    intro x
    by_cases hx : x = h
    · subst hx
      rw [children, node?_modify_self]
      rw [children] at hperm ⊢
      cases hn : t.node? x with
      | none => simp
      | some n => simpa [hn] using hperm
    · rw [children, node?_modify_of_ne _ _ hx, ← children]
  refine ⟨?_, ?_, ?_, ?_, ht.nodup_free, ?_, ht.cleared.modify h _⟩
  · obtain ⟨children, hroot⟩ := ht.root
    rw [node?_modify, hroot]
    split
    · exact ⟨_, rfl⟩
    · exact ⟨_, rfl⟩
  · intro p c
    rw [(hchildren p).mem_iff, hparent]
    exact ht.mem_children_iff
  · intro p
    exact (hchildren p).nodup_iff.mpr (ht.nodup_children p)
  · exact fun x => (ht.grounded x).cut fun y => .inr (hparent y)
  · intro i
    rw [vacant_modify]
    exact ht.mem_free_iff

end WellLinked

theorem children_allocate (ht : WellLinked t) (kind : Kind) (x : Handle) :
    (t.allocate kind).2.children x = t.children x := by
  rw [children, ht.node?_allocate]
  by_cases hx : x = t.fresh
  · rw [if_pos hx, hx, children, ht.node?_fresh]
    rfl
  · rw [if_neg hx, children]

theorem parent?_allocate (ht : WellLinked t) (kind : Kind) (x : Handle) :
    (t.allocate kind).2.parent? x = t.parent? x := by
  rw [parent?, ht.node?_allocate]
  by_cases hx : x = t.fresh
  · rw [if_pos hx, hx, parent?, ht.node?_fresh]
    rfl
  · rw [if_neg hx, parent?]

theorem isLive_allocate_iff (ht : WellLinked t) {kind : Kind} {x : Handle} :
    (t.allocate kind).2.isLive x = true ↔ x = t.fresh ∨ t.isLive x = true := by
  rw [isLive, ht.node?_allocate]
  by_cases hx : x = t.fresh
  · simp [hx]
  · simp [hx, isLive]

theorem WellLinked.root_ne_fresh (ht : WellLinked t) : Handle.root ≠ t.fresh := by
  intro hroot
  obtain ⟨children, hn⟩ := ht.root
  rw [hroot, ht.node?_fresh] at hn
  cases hn

/-- Taking a waiting slot leaves the others waiting. -/
private theorem mem_free_allocate_iff (ht : WellLinked t) (kind : Kind) (i : Nat) :
    i ∈ (t.allocate kind).2.free ↔ i ∈ t.free ∧ i ≠ t.fresh.slot := by
  have hnodup := ht.nodup_free
  simp only [fresh, allocate]
  cases hf : t.free with
  | nil => simp
  | cons j free =>
    rw [hf, List.nodup_cons] at hnodup
    simp only [List.mem_cons]
    constructor
    · intro hi
      exact ⟨.inr hi, fun e => hnodup.1 (e ▸ hi)⟩
    · rintro ⟨rfl | hi, hne⟩
      · exact absurd rfl hne
      · exact hi

theorem WellLinked.allocate (ht : WellLinked t) (kind : Kind) :
    WellLinked (t.allocate kind).2 where
  root := by
    rw [ht.node?_allocate, if_neg ht.root_ne_fresh]
    exact ht.root
  mem_children_iff := by
    intro p c
    rw [children_allocate ht, parent?_allocate ht]
    exact ht.mem_children_iff
  nodup_children p := by
    rw [children_allocate ht]
    exact ht.nodup_children p
  grounded h := (ht.grounded h).cut fun x => .inr (parent?_allocate ht kind x)
  nodup_free := by
    have hnodup := ht.nodup_free
    simp only [Tree.allocate]
    cases hf : t.free with
    | nil => simp
    | cons j free =>
      rw [hf] at hnodup
      exact hnodup.of_cons
  mem_free_iff := by
    intro i
    rw [mem_free_allocate_iff ht, ht.mem_free_iff, Vacant, Vacant,
      occupancy_allocate ht.vacant_of_mem_free]
    by_cases hi : i = t.fresh.slot
    · simp [hi]
    · simp [hi]
  cleared := ht.cleared.allocate kind

theorem children_link {p c : Handle} (hpc : p ≠ c) (hp : t.isLive p = true) (index : Nat)
    (x : Handle) :
    (t.link p index c).children x =
      if x = p then (t.children p).take index ++ c :: (t.children p).drop index
      else t.children x := by
  obtain ⟨n, hn⟩ := node?_of_isLive hp
  rw [link, children_modify_kind]
  · by_cases hx : x = p
    · subst hx
      simp [children, node?_modify_self, hn]
    · rw [if_neg hx, children, node?_modify_of_ne _ _ hx, ← children]
  · intro m
    rfl

theorem parent?_link {p c : Handle} (hc : t.isLive c = true) (index : Nat) (x : Handle) :
    (t.link p index c).parent? x = if x = c then some p else t.parent? x := by
  obtain ⟨n, hn⟩ := node?_of_isLive hc
  rw [link, parent?, node?_modify]
  by_cases hx : x = c
  · subst hx
    rw [if_pos rfl, if_pos rfl, node?_modify]
    split
    · simp [hn]
    · simp [hn]
  · rw [if_neg hx, if_neg hx, ← parent?]
    exact parent?_modify t p x _ fun _ => rfl

theorem perm_take_cons_drop {α : Type} (l : List α) (index : Nat) (a : α) :
    (l.take index ++ a :: l.drop index).Perm (a :: l) := by
  refine List.perm_middle.trans ?_
  rw [List.take_append_drop]

/-- After a node is put in, the two kinds of links still agree. -/
theorem mem_children_link_iff (ht : WellLinked t) {p c : Handle} (hne : p ≠ c)
    (hp : t.isLive p = true) (hc : t.isLive c = true) (hdetached : t.parent? c = none)
    (index : Nat) {q x : Handle} : x ∈ (t.link p index c).children q ↔
      (t.link p index c).parent? x = some q := by
  rw [children_link hne hp index, parent?_link hc index]
  by_cases hx : x = c
  · subst hx
    rw [if_pos rfl, Option.some_inj]
    by_cases hq : q = p
    · simp [hq]
    · rw [if_neg hq, ht.mem_children_iff, hdetached]
      simp [Ne.symm hq]
  · rw [if_neg hx, ← ht.mem_children_iff]
    by_cases hq : q = p
    · rw [if_pos hq, (perm_take_cons_drop _ _ _).mem_iff, hq]
      simp [hx]
    · rw [if_neg hq]

theorem Cleared.link (ht : t.Cleared) (p : Handle) (index : Nat) (c : Handle) :
    (t.link p index c).Cleared :=
  (ht.modify p _).modify c _

/-- A detached node may be put below any node that is not below it. -/
theorem WellLinked.link (ht : WellLinked t) {p c : Handle} (hp : t.isLive p = true)
    (hc : t.isLive c = true) (hroot : c ≠ .root) (hdetached : t.parent? c = none)
    (hpc : ¬ Within t.parent? p c) (index : Nat) : WellLinked (t.link p index c) := by
  have hne : p ≠ c := fun e => hpc (e ▸ .refl)
  have hchildren := children_link hne hp index
  have hparent := parent?_link (p := p) hc index
  have hnew : c ∉ t.children p := by
    rw [ht.mem_children_iff, hdetached]
    simp
  refine ⟨?_, ?_, ?_, ?_, ht.nodup_free, ?_, ht.cleared.link p index c⟩
  · obtain ⟨children, hn⟩ := ht.root
    rw [Tree.link, node?_modify_of_ne _ _ (Ne.symm hroot), node?_modify, hn]
    split
    · exact ⟨_, rfl⟩
    · exact ⟨_, rfl⟩
  · exact mem_children_link_iff ht hne hp hc hdetached index
  · intro q
    rw [hchildren]
    split
    · refine (perm_take_cons_drop _ _ _).nodup_iff.mpr ?_
      exact List.nodup_cons.mpr ⟨hnew, ht.nodup_children p⟩
    · exact ht.nodup_children q
  · intro x
    refine Grounded.move ht.grounded ?_ ?_ hpc
    · rw [hparent, if_pos rfl]
    · intro y hy
      rw [hparent, if_neg hy]
  · intro i
    rw [Tree.link, vacant_modify, vacant_modify]
    exact ht.mem_free_iff

theorem children_detach (ht : WellLinked t) (c x : Handle) :
    (t.detach c).children x = (t.children x).filter (· ≠ c) := by
  have hother : t.parent? c ≠ some x → (t.children x).filter (· ≠ c) = t.children x := by
    intro hx
    refine List.filter_eq_self.mpr fun y hy => ?_
    have hyc : y ≠ c := by
      rintro rfl
      exact hx (ht.mem_children_iff.mp hy)
    simpa using hyc
  rw [detach]
  cases hc : t.parent? c with
  | none =>
    rw [hother]
    rw [hc]
    simp
  | some p =>
    simp only
    rw [children_modify_kind]
    · by_cases hx : x = p
      · subst hx
        rw [children, node?_modify_self, children]
        cases t.node? x <;> simp
      · rw [hother, children, node?_modify_of_ne _ _ hx, ← children]
        rw [hc]
        simpa using Ne.symm hx
    · intro n
      rfl

theorem parent?_detach (t : Tree) (c x : Handle) :
    (t.detach c).parent? x = if x = c then none else t.parent? x := by
  rw [detach]
  cases hc : t.parent? c with
  | none =>
    by_cases hx : x = c
    · simp [hx, hc]
    · simp [hx]
  | some p =>
    simp only
    rw [parent?, node?_modify]
    by_cases hx : x = c
    · rw [if_pos hx, if_pos hx]
      cases (t.modify p _).node? x <;> simp
    · rw [if_neg hx, if_neg hx, ← parent?]
      exact parent?_modify t p x _ fun _ => rfl

@[simp] theorem occupancy_detach (t : Tree) (c : Handle) (i : Nat) :
    (t.detach c).occupancy i = t.occupancy i := by
  rw [detach]
  cases t.parent? c <;> simp

@[simp] theorem isLive_detach (t : Tree) (c x : Handle) :
    (t.detach c).isLive x = t.isLive x := by
  rw [Bool.eq_iff_iff, isLive_iff, isLive_iff, occupancy_detach]

@[simp] theorem detach_free (t : Tree) (c : Handle) : (t.detach c).free = t.free := by
  rw [detach]
  cases t.parent? c <;> simp

@[simp] theorem detach_frames (t : Tree) (c : Handle) : (t.detach c).frames = t.frames := by
  rw [detach]
  cases t.parent? c <;> simp

@[simp] theorem detach_running (t : Tree) (c : Handle) : (t.detach c).running = t.running := by
  rw [detach]
  cases t.parent? c <;> simp

theorem Cleared.detach (ht : t.Cleared) (c : Handle) : (t.detach c).Cleared := by
  rw [Tree.detach]
  split
  · exact ht
  · exact (ht.modify _ _).modify c _

theorem WellLinked.detach (ht : WellLinked t) (c : Handle) : WellLinked (t.detach c) where
  root := by
    obtain ⟨children, hn⟩ := ht.root
    rw [Tree.detach]
    cases hc : t.parent? c with
    | none => exact ht.root
    | some p =>
      have hroot : Handle.root ≠ c := by
        rintro rfl
        rw [ht.parent?_root] at hc
        cases hc
      simp only
      rw [node?_modify_of_ne _ _ hroot, node?_modify, hn]
      split
      · exact ⟨_, rfl⟩
      · exact ⟨_, rfl⟩
  mem_children_iff := by
    intro p x
    rw [children_detach ht, parent?_detach, List.mem_filter, ht.mem_children_iff]
    by_cases hx : x = c
    · simp [hx]
    · simp [hx]
  nodup_children p := by
    rw [children_detach ht]
    exact (ht.nodup_children p).filter _
  grounded h := by
    refine (ht.grounded h).cut fun x => ?_
    rw [parent?_detach]
    by_cases hx : x = c
    · exact .inl (if_pos hx)
    · exact .inr (if_neg hx)
  nodup_free := by
    rw [detach_free]
    exact ht.nodup_free
  mem_free_iff := by
    intro i
    rw [detach_free, Vacant, occupancy_detach]
    exact ht.mem_free_iff
  cleared := ht.cleared.detach c

/-- `x` lies within one of the children of a node from the index on. -/
def Dropped (t : Tree) (h : Handle) (start : Nat) (x : Handle) : Prop :=
  ∃ b ∈ (t.children h).drop start, Within t.parent? x b

section Truncate

variable {h x : Handle} {start : Nat}

private theorem parent?_of_mem_drop (ht : WellLinked t) {b : Handle}
    (hb : b ∈ (t.children h).drop start) : t.parent? b = some h :=
  ht.mem_children_iff.mp (List.mem_of_mem_drop hb)

theorem not_dropped_self (ht : WellLinked t) : ¬ t.Dropped h start h := by
  rintro ⟨b, hb, hwithin⟩
  exact (ht.grounded h).not_under_self (.tail' hwithin (parent?_of_mem_drop ht hb))

theorem not_dropped_root (ht : WellLinked t) : ¬ t.Dropped h start .root := by
  rintro ⟨b, hb, hwithin⟩
  have hroot := hwithin.eq_of_top ht.parent?_root
  have hparent := parent?_of_mem_drop ht hb
  rw [← hroot, ht.parent?_root] at hparent
  cases hparent

/-- What lies below a dropped node is dropped. -/
theorem Dropped.of_parent? {p : Handle} (hp : t.Dropped h start p)
    (hparent : t.parent? x = some p) : t.Dropped h start x := by
  obtain ⟨b, hb, hwithin⟩ := hp
  exact ⟨b, hb, .head hparent hwithin⟩

/-- A dropped node is one of the children that go, or its parent is dropped. -/
theorem Dropped.mem_or_parent? (hx : t.Dropped h start x) :
    x ∈ (t.children h).drop start ∨ ∃ p, t.parent? x = some p ∧ t.Dropped h start p := by
  obtain ⟨b, hb, hwithin⟩ := hx
  rcases Relation.ReflTransGen.cases_head hwithin with rfl | ⟨p, hp, hpb⟩
  · exact .inl hb
  · exact .inr ⟨p, hp, b, hb, hpb⟩

/-- The children before the index stay. -/
theorem not_dropped_of_mem_take (ht : WellLinked t) (hx : x ∈ (t.children h).take start) :
    ¬ t.Dropped h start x := by
  have hparent := ht.mem_children_iff.mp (List.mem_of_mem_take hx)
  intro hdrop
  rcases hdrop.mem_or_parent? with hmem | ⟨p, hp, hpd⟩
  · have hnodup := ht.nodup_children h
    rw [← List.take_append_drop start (t.children h)] at hnodup
    exact List.disjoint_of_nodup_append hnodup hx hmem
  · rw [hparent, Option.some_inj] at hp
    exact not_dropped_self ht (hp ▸ hpd)

theorem node?_truncate (ht : WellLinked t) (h : Handle) (start : Nat) (x : Handle)
    [Decidable (t.Dropped h start x)] :
    (t.truncate h start).node? x =
      if t.Dropped h start x then none
      else if x = h then (t.node? h).map fun n => { n with children := n.children.take start }
      else t.node? x := by
  have hremoved : x ∈ walk (fun h => ([h], (t.children h).reverse)) t.capacity
      ((t.children h).drop start).reverse ↔ t.Dropped h start x := by
    rw [ht.hierarchy.reverse.mem_walk_iff (o := some h)]
    · simp [Dropped]
    · exact List.nodup_reverse.mpr ((List.drop_sublist _ _).nodup (ht.nodup_children h))
    · intro b hb
      exact parent?_of_mem_drop ht (List.mem_reverse.mp hb)
    · intro b hb
      exact isLive_of_parent? (parent?_of_mem_drop ht (List.mem_reverse.mp hb))
  rw [truncate, node?_foldl_release, node?_modify]
  simp only [hremoved]
  by_cases hx : x = h
  · simp [hx]
  · simp [hx]

theorem children_truncate (ht : WellLinked t) [Decidable (t.Dropped h start x)] :
    (t.truncate h start).children x =
      if t.Dropped h start x then []
      else if x = h then (t.children h).take start else t.children x := by
  rw [children, node?_truncate ht]
  split
  · rfl
  · split
    · rw [children]
      cases t.node? h <;> simp
    · rfl

theorem parent?_truncate (ht : WellLinked t) [Decidable (t.Dropped h start x)] :
    (t.truncate h start).parent? x =
      if t.Dropped h start x then none else t.parent? x := by
  rw [parent?, node?_truncate ht]
  split
  · rfl
  · split
    · next hx =>
      rw [parent?, hx]
      cases t.node? h <;> rfl
    · rfl

/-- What is still there was not dropped. -/
theorem not_dropped_of_isLive_truncate (ht : WellLinked t)
    (hlive : (t.truncate h start).isLive x = true) : ¬ t.Dropped h start x := by
  classical
  intro hdropped
  rw [isLive, node?_truncate ht, if_pos hdropped] at hlive
  cases hlive

theorem isLive_of_truncate (ht : WellLinked t) (hlive : (t.truncate h start).isLive x = true) :
    t.isLive x = true := by
  classical
  have hnode := node?_truncate ht h start x
  rw [if_neg (not_dropped_of_isLive_truncate ht hlive)] at hnode
  rw [isLive, hnode] at hlive
  split at hlive
  · next hx => simpa [isLive, hx] using hlive
  · exact hlive

@[simp] theorem truncate_frames (t : Tree) (h : Handle) (start : Nat) :
    (t.truncate h start).frames = t.frames := by
  simp [truncate]

@[simp] theorem truncate_running (t : Tree) (h : Handle) (start : Nat) :
    (t.truncate h start).running = t.running := by
  simp [truncate]

end Truncate

/-- Freeing a slot lists it exactly if it may be given out again. -/
private theorem free_release (hnodup : t.free.Nodup) (hfree : ∀ i, i ∈ t.free ↔ t.Vacant i)
    (h : Handle) :
    (t.release h).free.Nodup ∧ ∀ i, i ∈ (t.release h).free ↔ (t.release h).Vacant i := by
  by_cases hlive : t.isLive h = true
  · have hslot : h.slot ∉ t.free := by
      rw [hfree]
      rintro ⟨generation, hocc, _⟩
      rw [isLive_iff.mp hlive] at hocc
      simp at hocc
    have hlist : (t.release h).free =
        if h.generation < lastGeneration then h.slot :: t.free else t.free := by
      simp [release, hlive]
    refine ⟨?_, ?_⟩
    · rw [hlist]
      split
      · exact List.nodup_cons.mpr ⟨hslot, hnodup⟩
      · exact hnodup
    · intro i
      rw [hlist, Vacant, occupancy_release]
      by_cases hi : i = h.slot
      · subst hi
        by_cases hg : h.generation < lastGeneration
        · simp [hlive, hg]
        · simp [hlive, hg, hslot]
      · have hne : ¬ (t.isLive h = true ∧ i = h.slot) := fun hc => hi hc.2
        rw [if_neg hne]
        change _ ↔ t.Vacant i
        rw [← hfree]
        split
        · simp [hi]
        · rfl
  · have hsame : t.release h = t := by simp [release, hlive]
    rw [hsame]
    exact ⟨hnodup, hfree⟩

private theorem free_foldl_release (l : List Handle) (t : Tree) (hnodup : t.free.Nodup)
    (hfree : ∀ i, i ∈ t.free ↔ t.Vacant i) :
    (l.foldl release t).free.Nodup ∧
      ∀ i, i ∈ (l.foldl release t).free ↔ (l.foldl release t).Vacant i := by
  induction l generalizing t with
  | nil => exact ⟨hnodup, hfree⟩
  | cons h l ih =>
    obtain ⟨hn, hf⟩ := free_release hnodup hfree h
    exact ih (t.release h) hn hf

open Classical in
/-- After children are dropped, the two kinds of links still agree. -/
theorem mem_children_truncate_iff (ht : WellLinked t) (h : Handle) (start : Nat)
    {p x : Handle} : x ∈ (t.truncate h start).children p ↔
      (t.truncate h start).parent? x = some p := by
  rw [children_truncate ht, parent?_truncate ht]
  by_cases hx : t.Dropped h start x
  · rw [if_pos hx]
    simp only [reduceCtorEq, iff_false]
    split
    · simp
    · next hp =>
      split
      · exact fun hmem => not_dropped_of_mem_take ht hmem hx
      · next hph =>
        intro hmem
        have hparent := ht.mem_children_iff.mp hmem
        rcases hx.mem_or_parent? with hmem' | ⟨q, hq, hqd⟩
        · rw [parent?_of_mem_drop ht hmem', Option.some_inj] at hparent
          exact hph hparent.symm
        · rw [hparent, Option.some_inj] at hq
          exact hp (hq ▸ hqd)
  · rw [if_neg hx]
    split
    · next hp =>
      simp only [List.not_mem_nil, false_iff]
      exact fun hparent => hx (hp.of_parent? hparent)
    · split
      · next hph =>
        subst hph
        rw [← ht.mem_children_iff]
        refine ⟨List.mem_of_mem_take, fun hmem => ?_⟩
        rw [← List.take_append_drop start (t.children p), List.mem_append] at hmem
        rcases hmem with hmem | hmem
        · exact hmem
        · exact absurd ⟨x, hmem, .refl⟩ hx
      · exact ht.mem_children_iff

theorem Cleared.truncate (ht : t.Cleared) (h : Handle) (start : Nat) :
    (t.truncate h start).Cleared :=
  (ht.modify h _).foldl_release _

open Classical in
theorem WellLinked.truncate (ht : WellLinked t) (h : Handle) (start : Nat) :
    WellLinked (t.truncate h start) := by
  have hslots := free_foldl_release
    (walk (fun h => ([h], (t.children h).reverse)) t.capacity
      ((t.children h).drop start).reverse)
    (t.modify h fun n => { n with children := n.children.take start })
    ht.nodup_free fun i => by simpa using ht.mem_free_iff
  refine ⟨?_, ?_, ?_, ?_, hslots.1, hslots.2 _, ht.cleared.truncate h start⟩
  · obtain ⟨children, hn⟩ := ht.root
    rw [node?_truncate ht, if_neg (not_dropped_root ht)]
    by_cases hh : Handle.root = h
    · rw [if_pos hh, ← hh, hn]
      exact ⟨_, rfl⟩
    · rw [if_neg hh]
      exact ht.root
  · exact mem_children_truncate_iff ht h start
  · intro p
    rw [children_truncate ht]
    split
    · exact List.nodup_nil
    · split
      · exact (List.take_sublist _ _).nodup (ht.nodup_children h)
      · exact ht.nodup_children p
  · intro x
    refine (ht.grounded x).cut fun y => ?_
    rw [parent?_truncate ht]
    split
    · exact .inl rfl
    · exact .inr rfl

end LiveMarkup.Live.Tree
