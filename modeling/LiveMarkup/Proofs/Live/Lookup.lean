import LiveMarkup.Live.Building
import LiveMarkup.Live.Transaction
import Mathlib.Data.List.Nodup
import Mathlib.Data.List.Perm.Subperm

/-!
# Looking up after a change

What a look-up finds after each single change of a live tree, and what becomes of the
slots. A change that keeps the nodes apart, such as `modify`, needs no assumption. Giving
a slot to a new node does: the slot must really be empty, which is what `Vacant` says of
the waiting slots, and nothing may be left of the links of the node before, which is what
`Cleared` says of all empty slots. Every change keeps the empty slots cleared.
-/

namespace LiveMarkup.Live.Tree

variable {t : Tree} {h x : Handle} {kind : Kind}

/-- The generation of a slot and whether it is occupied. -/
def occupancy (t : Tree) (i : Nat) : Option (Nat × Bool) :=
  t.slots[i]?.map fun slot => (slot.generation, slot.live)

/-- A slot that is empty and may be given to another node. -/
def Vacant (t : Tree) (i : Nat) : Prop :=
  ∃ generation, t.occupancy i = some (generation, false) ∧ generation < lastGeneration

/-- The records of the empty slots are empty texts without links. -/
def Cleared (t : Tree) : Prop :=
  ∀ (i : Nat) (slot : Slot), t.slots[i]? = some slot → slot.live = false →
    slot.record = ⟨.text "", none, []⟩

theorem isLive_iff {t : Tree} {h : Handle} :
    t.isLive h = true ↔ t.occupancy h.slot = some (h.generation, true) := by
  unfold isLive node? occupancy
  cases hs : t.slots[h.slot]? with
  | none => simp
  | some slot =>
    by_cases hg : slot.generation = h.generation
    · simp [hg]
    · simp [hg]

/-- Two live handles of one slot are the same. -/
theorem eq_of_isLive_of_slot_eq (hh : t.isLive h = true) (hx : t.isLive x = true)
    (hslot : h.slot = x.slot) : h = x := by
  rw [isLive_iff] at hh hx
  rw [hslot, hx] at hh
  cases h
  cases x
  simp_all

theorem isLive_of_node? {n : Node} (h : t.node? x = some n) : t.isLive x = true := by
  simp [isLive, h]

theorem slot_lt_of_isLive (hh : t.isLive h = true) : h.slot < t.capacity := by
  rw [isLive_iff, occupancy] at hh
  obtain ⟨slot, hslot, _⟩ := Option.map_eq_some_iff.mp hh
  exact (Array.getElem?_eq_some_iff.mp hslot).1

/-- What a slot holds is named by its live handle. -/
theorem resident_of_isLive {h : Handle} (hlive : t.isLive h = true) :
    t.resident h.slot = h := by
  obtain ⟨slot, hslot, hocc⟩ := Option.map_eq_some_iff.mp (isLive_iff.mp hlive)
  rw [Prod.mk.injEq] at hocc
  rw [resident, hslot, Option.map_some, Option.getD_some, hocc.1]

/-- Live handles sit in different slots, so there are no more of them than slots. -/
theorem length_le_capacity {l : List Handle} (hnodup : l.Nodup)
    (hlive : ∀ h ∈ l, t.isLive h = true) : l.length ≤ t.capacity := by
  have hslots : (l.map Handle.slot).Nodup := by
    refine List.Nodup.map_on ?_ hnodup
    intro a ha b hb hab
    exact eq_of_isLive_of_slot_eq (hlive a ha) (hlive b hb) hab
  have hsubset : l.map Handle.slot ⊆ List.range t.capacity := by
    intro i hi
    obtain ⟨h, hh, rfl⟩ := List.mem_map.mp hi
    exact List.mem_range.mpr (slot_lt_of_isLive (hlive h hh))
  simpa using (hslots.subperm hsubset).length_le

@[simp] theorem modify_free (t : Tree) (h : Handle) (f : Node → Node) :
    (t.modify h f).free = t.free := rfl

@[simp] theorem modify_frames (t : Tree) (h : Handle) (f : Node → Node) :
    (t.modify h f).frames = t.frames := rfl

@[simp] theorem modify_running (t : Tree) (h : Handle) (f : Node → Node) :
    (t.modify h f).running = t.running := rfl

@[simp] theorem capacity_modify (t : Tree) (h : Handle) (f : Node → Node) :
    (t.modify h f).capacity = t.capacity := by
  simp [capacity, modify]

@[simp] theorem occupancy_modify (t : Tree) (h : Handle) (f : Node → Node) (i : Nat) :
    (t.modify h f).occupancy i = t.occupancy i := by
  simp only [occupancy, modify, Array.getElem?_modify]
  split
  · rw [Option.map_map]
    congr 1
    funext slot
    simp
  · rfl

@[simp] theorem isLive_modify (t : Tree) (h x : Handle) (f : Node → Node) :
    (t.modify h f).isLive x = t.isLive x := by
  rw [Bool.eq_iff_iff, isLive_iff, isLive_iff, occupancy_modify]

@[simp] theorem vacant_modify (t : Tree) (h : Handle) (f : Node → Node) (i : Nat) :
    (t.modify h f).Vacant i ↔ t.Vacant i := by
  simp [Vacant]

/-- A change of a node leaves the empty slots as they are. -/
theorem Cleared.modify (ht : t.Cleared) (h : Handle) (f : Node → Node) :
    (t.modify h f).Cleared := by
  intro i slot hslot hdead
  simp only [Tree.modify, Array.getElem?_modify] at hslot
  split at hslot
  · obtain ⟨before, hbefore, rfl⟩ := Option.map_eq_some_iff.mp hslot
    rw [Slot.update_live] at hdead
    rw [Slot.update_of_dead hdead]
    exact ht i before hbefore hdead
  · exact ht i slot hslot hdead

theorem node?_modify (t : Tree) (h x : Handle) (f : Node → Node) :
    (t.modify h f).node? x = if x = h then (t.node? x).map f else t.node? x := by
  simp only [node?, modify, Array.getElem?_modify]
  by_cases hslot : h.slot = x.slot
  · rw [if_pos hslot]
    cases t.slots[x.slot]? with
    | none => simp
    | some slot =>
      simp only [Option.map_some, Slot.update_generation, Slot.occupant_update]
      by_cases hg : slot.generation = h.generation
      · by_cases hx : x = h
        · subst hx
          simp [hg]
        · have hne : slot.generation ≠ x.generation := by
            intro hgx
            apply hx
            cases x
            cases h
            simp_all
          rw [hg] at hne
          simp [hg, hx, hne]
      · by_cases hx : x = h
        · subst hx
          simp [hg]
        · simp [hg, hx]
  · have hx : x ≠ h := fun e => hslot (by rw [e])
    rw [if_neg hslot, if_neg hx]

theorem node?_modify_self (t : Tree) (h : Handle) (f : Node → Node) :
    (t.modify h f).node? h = (t.node? h).map f := by
  rw [node?_modify, if_pos rfl]

theorem node?_modify_of_ne (t : Tree) (f : Node → Node) (hx : x ≠ h) :
    (t.modify h f).node? x = t.node? x := by
  rw [node?_modify, if_neg hx]

/-- Of a change only what it does to the node that is there matters. -/
theorem modify_congr {f g : Node → Node} (hfg : ∀ n, t.node? h = some n → f n = g n) :
    t.modify h f = t.modify h g := by
  simp only [modify, mk.injEq, and_true]
  refine Array.ext_getElem? fun i => ?_
  simp only [Array.getElem?_modify]
  split
  · next hi =>
    subst hi
    refine Option.map_congr fun slot hslot => ?_
    rw [Slot.update, Slot.update]
    split
    · next hpresent =>
      congr 1
      refine hfg slot.record ?_
      simp [node?, hslot, hpresent.2, Slot.occupant, hpresent.1]
    · rfl
  · rfl

theorem modify_id (t : Tree) (h : Handle) : t.modify h (fun n => n) = t := by
  have hslot : Slot.update h.generation (fun n => n) = id := by
    funext slot
    simp [Slot.update]
  simp only [modify, hslot]
  congr 1
  refine Array.ext_getElem? fun i => ?_
  simp [Array.getElem?_modify]

/-- A change of what a node is leaves all links. -/
theorem children_modify_kind (t : Tree) (h x : Handle) (f : Node → Node)
    (hf : ∀ n, (f n).children = n.children) :
    (t.modify h f).children x = t.children x := by
  rw [children, children, node?_modify]
  split
  · rw [Option.map_map]
    congr 2
    funext n
    exact hf n
  · rfl

theorem parent?_modify (t : Tree) (h x : Handle) (f : Node → Node)
    (hf : ∀ n, (f n).parent = n.parent) :
    (t.modify h f).parent? x = t.parent? x := by
  rw [parent?, parent?, node?_modify]
  split
  · cases t.node? x with
    | none => rfl
    | some n => simp [hf]
  · rfl

@[simp] theorem allocate_frames (t : Tree) (kind : Kind) :
    (t.allocate kind).2.frames = t.frames := by
  unfold allocate
  cases t.free <;> rfl

@[simp] theorem allocate_running (t : Tree) (kind : Kind) :
    (t.allocate kind).2.running = t.running := by
  unfold allocate
  cases t.free <;> rfl

/-- The handle that the next new node gets. -/
def fresh (t : Tree) : Handle := (t.allocate .root).1

theorem allocate_fst (t : Tree) (kind : Kind) : (t.allocate kind).1 = t.fresh := by
  unfold fresh allocate
  cases t.free <;> rfl

private theorem resident_generation {i generation : Nat} {occupied : Bool}
    (hi : t.occupancy i = some (generation, occupied)) :
    (t.resident i).generation = generation := by
  obtain ⟨slot, hslot, heq⟩ := Option.map_eq_some_iff.mp hi
  cases heq
  simp [resident, hslot]

/-- A new node takes the waiting slot in front, in its next generation, or a new slot. -/
theorem occupancy_allocate (hfree : ∀ i ∈ t.free, t.Vacant i) (i : Nat) :
    (t.allocate kind).2.occupancy i =
      if i = t.fresh.slot then some (t.fresh.generation, true) else t.occupancy i := by
  unfold fresh allocate
  cases hf : t.free with
  | nil =>
    by_cases hi : i = t.slots.size
    · simp [occupancy, hi]
    · simp [occupancy, Array.getElem?_push, hi]
  | cons j free =>
    obtain ⟨generation, hj, _⟩ := hfree j (by simp [hf])
    obtain ⟨slot, hslot, _⟩ := Option.map_eq_some_iff.mp hj
    have hlt : j < t.slots.size := (Array.getElem?_eq_some_iff.mp hslot).1
    by_cases hi : i = j
    · subst hi
      simp [occupancy, resident, Array.getElem?_modify, hslot, Slot.reuse]
    · simp [occupancy, Array.getElem?_modify, hi, Ne.symm hi]

/-- A new node takes its slot over from a node that has left no links behind. -/
theorem Cleared.allocate (ht : t.Cleared) (kind : Kind) : (t.allocate kind).2.Cleared := by
  intro i slot hslot hdead
  simp only [Tree.allocate] at hslot
  split at hslot
  · simp only [Array.getElem?_modify] at hslot
    split at hslot
    · obtain ⟨before, -, rfl⟩ := Option.map_eq_some_iff.mp hslot
      cases hdead
    · exact ht i slot hslot hdead
  · rw [Array.getElem?_push] at hslot
    split at hslot
    · cases hslot
      cases hdead
    · exact ht i slot hslot hdead

/-- No node has the handle of the next new node yet. -/
theorem node?_fresh (hfree : ∀ i ∈ t.free, t.Vacant i) : t.node? t.fresh = none := by
  rw [← Option.not_isSome_iff_eq_none]
  intro hlive
  have hocc := isLive_iff.mp (show t.isLive t.fresh = true from hlive)
  unfold fresh allocate at hocc
  cases hf : t.free with
  | nil => simp [hf, occupancy] at hocc
  | cons j free =>
    obtain ⟨generation, hj, _⟩ := hfree j (by simp [hf])
    simp [hf, hj] at hocc

theorem node?_allocate (hfree : ∀ i ∈ t.free, t.Vacant i) (hcleared : t.Cleared) (x : Handle) :
    (t.allocate kind).2.node? x =
      if x = t.fresh then some ⟨kind, none, []⟩ else t.node? x := by
  unfold fresh allocate
  cases hf : t.free with
  | nil =>
    by_cases hx : x.slot = t.slots.size
    · by_cases hg : x.generation = 0
      · have hxe : x = ⟨t.slots.size, 0⟩ := by cases x; simp_all
        simp [node?, hxe, Slot.occupant]
      · have hxe : x ≠ ⟨t.slots.size, 0⟩ := by rintro rfl; exact hg rfl
        simp [node?, hx, hxe, Ne.symm hg]
    · have hxe : x ≠ ⟨t.slots.size, 0⟩ := by rintro rfl; exact hx rfl
      simp [node?, Array.getElem?_push, hx, hxe]
  | cons j free =>
    obtain ⟨generation, hj, _⟩ := hfree j (by simp [hf])
    have hgen := resident_generation hj
    obtain ⟨slot, hslot, hocc⟩ := Option.map_eq_some_iff.mp hj
    obtain ⟨hgeneration, hdead⟩ := Prod.mk.inj hocc
    have hrecord := hcleared j slot hslot hdead
    simp only [hgen]
    by_cases hx : x.slot = j
    · by_cases hg : x.generation = generation + 1
      · have hxe : x = ⟨j, generation + 1⟩ := by cases x; simp_all
        simp [node?, hxe, Array.getElem?_modify, hslot, Slot.reuse, Slot.occupant, hgeneration,
          hrecord]
      · have hxe : x ≠ ⟨j, generation + 1⟩ := by rintro rfl; exact hg rfl
        simp [node?, hx, hxe, Array.getElem?_modify, hslot, Slot.reuse, Slot.occupant,
          hgeneration, hdead, Ne.symm hg]
    · have hxe : x ≠ ⟨j, generation + 1⟩ := by rintro rfl; exact hx rfl
      simp [node?, Array.getElem?_modify, Ne.symm hx, hxe]

@[simp] theorem release_frames (t : Tree) (h : Handle) : (t.release h).frames = t.frames := by
  unfold release
  split <;> rfl

@[simp] theorem release_running (t : Tree) (h : Handle) :
    (t.release h).running = t.running := by
  unfold release
  split <;> rfl

@[simp] theorem capacity_release (t : Tree) (h : Handle) :
    (t.release h).capacity = t.capacity := by
  unfold release
  split <;> simp [capacity]

theorem Cleared.release (ht : t.Cleared) (h : Handle) : (t.release h).Cleared := by
  rw [Tree.release]
  split
  · intro i slot hslot hdead
    simp only [Array.getElem?_modify] at hslot
    split at hslot
    · obtain ⟨before, -, rfl⟩ := Option.map_eq_some_iff.mp hslot
      rfl
    · exact ht i slot hslot hdead
  · exact ht

theorem Cleared.foldl_release (ht : t.Cleared) (l : List Handle) :
    (l.foldl Tree.release t).Cleared := by
  induction l generalizing t with
  | nil => exact ht
  | cons h l ih => exact ih (ht.release h)

theorem occupancy_release (t : Tree) (h : Handle) (i : Nat) :
    (t.release h).occupancy i =
      if t.isLive h ∧ i = h.slot then some (h.generation, false) else t.occupancy i := by
  unfold release
  by_cases hlive : t.isLive h = true
  · rw [if_pos hlive]
    have hocc := isLive_iff.mp hlive
    by_cases hi : i = h.slot
    · subst hi
      obtain ⟨slot, hslot, heq⟩ := Option.map_eq_some_iff.mp hocc
      simp only [Prod.mk.injEq] at heq
      simp [occupancy, Array.getElem?_modify, hslot, Slot.clear, heq.1, hlive]
    · simp [occupancy, Array.getElem?_modify, hi, Ne.symm hi]
  · rw [if_neg hlive, if_neg (fun hc => hlive hc.1)]

theorem node?_release (t : Tree) (h x : Handle) :
    (t.release h).node? x = if x = h then none else t.node? x := by
  unfold release
  by_cases hlive : t.isLive h = true
  · rw [if_pos hlive]
    obtain ⟨slot, hslot, heq⟩ := Option.map_eq_some_iff.mp (isLive_iff.mp hlive)
    simp only [Prod.mk.injEq] at heq
    by_cases hs : h.slot = x.slot
    · rw [hs] at hslot
      by_cases hx : x = h
      · simp [node?, Array.getElem?_modify, hs, hslot, hx]
      · have hne : slot.generation ≠ x.generation := by
          intro hg
          apply hx
          cases x
          cases h
          simp_all
        simp [node?, Array.getElem?_modify, hs, hslot, hne, hx]
    · have hx : x ≠ h := fun e => hs (by rw [e])
      simp [node?, Array.getElem?_modify, hs, hx]
  · rw [if_neg hlive]
    by_cases hx : x = h
    · subst hx
      rw [if_pos rfl]
      simpa [isLive] using hlive
    · rw [if_neg hx]

theorem node?_foldl_release (l : List Handle) (t : Tree) (x : Handle) :
    (l.foldl release t).node? x = if x ∈ l then none else t.node? x := by
  induction l generalizing t with
  | nil => simp
  | cons h l ih =>
    rw [List.foldl_cons, ih, node?_release]
    by_cases hx : x = h
    · simp [hx]
    · simp [hx]

@[simp] theorem foldl_release_frames (l : List Handle) (t : Tree) :
    (l.foldl release t).frames = t.frames := by
  induction l generalizing t with
  | nil => rfl
  | cons h l ih => rw [List.foldl_cons, ih, release_frames]

@[simp] theorem foldl_release_running (l : List Handle) (t : Tree) :
    (l.foldl release t).running = t.running := by
  induction l generalizing t with
  | nil => rfl
  | cons h l ih => rw [List.foldl_cons, ih, release_running]

end LiveMarkup.Live.Tree
