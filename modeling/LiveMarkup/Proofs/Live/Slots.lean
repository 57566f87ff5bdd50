import LiveMarkup.Proofs.Live.Issued

/-!
# What a call does to the slots

Calls do many things to the links of a live tree and three things to its slots: nothing at all,
one node more, or some children with what is below them less (`Reslots`). Whatever is to be said
of the slots over all calls is said of these three.

So handles that were given out stay so over any call. Generations never get beyond the last one.
A slot that is empty in its last generation is retired, and stays so.
-/

namespace LiveMarkup.Live.Tree

variable {t u : Tree} {i : Nat}

/-- Both trees have the same slots with the same occupants, and the same slots wait. What the
occupants are may differ. -/
structure SameSlots (t u : Tree) : Prop where
  free : u.free = t.free
  occupancy : ∀ i, u.occupancy i = t.occupancy i

/-- The three ways from the slots of one tree to those of another. -/
inductive Reslots (t u : Tree) : Prop
  | keep : SameSlots t u → Reslots t u
  | make (kind : Kind) : SameSlots (t.allocate kind).2 u → Reslots t u
  | drop (h : Handle) (start : Nat) : SameSlots (t.truncate h start) u → Reslots t u

namespace SameSlots

theorem refl (t : Tree) : SameSlots t t := ⟨rfl, fun _ => rfl⟩

theorem modify (h : SameSlots t u) (x : Handle) (f : Node → Node) : SameSlots t (u.modify x f) :=
  ⟨h.free, fun i => (occupancy_modify u x f i).trans (h.occupancy i)⟩

theorem setFrames (h : SameSlots t u) (frames : List Frame) (running : Bool) :
    SameSlots t { u with frames := frames, running := running } :=
  ⟨h.free, h.occupancy⟩

theorem link (h : SameSlots t u) (p : Handle) (index : Nat) (c : Handle) :
    SameSlots t (u.link p index c) :=
  (h.modify p _).modify c _

theorem detach (t : Tree) (c : Handle) : SameSlots t (t.detach c) :=
  ⟨detach_free t c, occupancy_detach t c⟩

end SameSlots

namespace Reslots

theorem refl (t : Tree) : Reslots t t := .keep (.refl t)

theorem modify (h : Reslots t u) (x : Handle) (f : Node → Node) : Reslots t (u.modify x f) := by
  cases h with
  | keep h => exact .keep (h.modify x f)
  | make kind h => exact .make kind (h.modify x f)
  | drop a start h => exact .drop a start (h.modify x f)

theorem setFrames (h : Reslots t u) (frames : List Frame) (running : Bool) :
    Reslots t { u with frames := frames, running := running } := by
  cases h with
  | keep h => exact .keep (h.setFrames frames running)
  | make kind h => exact .make kind (h.setFrames frames running)
  | drop a start h => exact .drop a start (h.setFrames frames running)

theorem allocate (t : Tree) (kind : Kind) : Reslots t (t.allocate kind).2 := .make kind (.refl _)

theorem truncate (t : Tree) (h : Handle) (start : Nat) : Reslots t (t.truncate h start) :=
  .drop h start (.refl _)

theorem insert (t : Tree) (kind : Kind) (p : Handle) (index : Nat) :
    Reslots t ((t.allocate kind).2.link p index t.fresh) :=
  .make kind ((SameSlots.refl _).link p index t.fresh)

theorem claim {frame : Frame} {name key : String} {h : Handle}
    (hclaim : t.claim frame name key = (.ok h, u)) : Reslots t u := by
  obtain ⟨_, ⟨_, rfl⟩ | ⟨_, _, _, _, rfl⟩⟩ := claim_cases hclaim
  · exact (refl t).modify _ _
  · exact insert t _ _ _

theorem called {c : Call} (h : Called t c u) : Reslots t u := by
  cases h with
  | refused => exact refl t
  | createElement => exact allocate t _
  | createText => exact allocate t _
  | @appendChild _ child => exact .keep ((SameSlots.detach t child).link _ _ _)
  | setAttribute => exact (refl t).modify _ _
  | setKey => exact (refl t).modify _ _
  | begin => exact (refl t).setFrames _ _
  | claim _ hclaim => exact claim hclaim
  | openElement _ hclaim => exact ((claim hclaim).modify _ _).setFrames _ _
  | closeElement => exact (truncate t _ _).setFrames _ _
  | rewrite => exact ((refl t).modify _ _).setFrames _ _
  | insertText => exact (insert t _ _ _).setFrames _ _
  | skip => exact (refl t).setFrames _ _
  | abandon => exact (refl t).setFrames _ _
  | complete => exact (truncate t _ _).setFrames _ _

theorem call (t : Tree) (c : Call) : Reslots t (t.call c).state := called (Tree.called t c)

end Reslots

/-- Whatever is done to the slots, handles stay given out, and no node comes back. -/
theorem Outlasts.reslots (ht : WellLinked t) (h : Reslots t u) : Outlasts t u := by
  cases h with
  | keep h => exact .of_occupancy h.occupancy
  | make kind h => exact (Outlasts.allocate ht kind).trans (.of_occupancy h.occupancy)
  | drop a start h =>
    exact (Stays.truncate ht a start).toOutlasts.trans (.of_occupancy h.occupancy)

theorem Outlasts.call (ht : WellLinked t) (c : Call) : Outlasts t (t.call c).state :=
  .reslots ht (.call t c)

/-- The slots that there are have an occupancy. -/
theorem lt_capacity_iff : i < t.capacity ↔ t.occupancy i ≠ none := by
  simp [occupancy, capacity]

theorem SameSlots.capacity (h : SameSlots t u) : u.capacity = t.capacity := by
  have hlt : ∀ i, i < u.capacity ↔ i < t.capacity := by
    intro i
    rw [lt_capacity_iff, lt_capacity_iff, h.occupancy]
  exact Nat.le_antisymm (Nat.le_of_not_lt fun hlt' => Nat.lt_irrefl _ ((hlt _).mp hlt'))
    (Nat.le_of_not_lt fun hlt' => Nat.lt_irrefl _ ((hlt _).mpr hlt'))

theorem capacity_truncate (t : Tree) (h : Handle) (start : Nat) :
    (t.truncate h start).capacity = t.capacity := by
  have hrelease : ∀ (l : List Handle) (t : Tree), (l.foldl release t).capacity = t.capacity := by
    intro l
    induction l with
    | nil => exact fun _ => rfl
    | cons x l ih => exact fun t => (ih _).trans (capacity_release t x)
  rw [Tree.truncate, hrelease, capacity_modify]

/-- A slot is added only when none waits, and then none waits afterwards. -/
theorem Reslots.capacity_cases (h : Reslots t u) : u.capacity = t.capacity ∨
    t.free = [] ∧ u.free = [] ∧ u.capacity = t.capacity + 1 := by
  cases h with
  | keep h => exact .inl h.capacity
  | make kind h =>
    rw [h.capacity, h.free, Tree.allocate]
    cases hfree : t.free with
    | nil => exact .inr ⟨rfl, rfl, by simp [capacity]⟩
    | cons j free => exact .inl (by simp [capacity])
  | drop a start h => exact .inl (h.capacity.trans (capacity_truncate t a start))

/-- A slot that waits for another node can count it. -/
theorem generation_lt_of_mem_free (ht : WellLinked t) (hi : i ∈ t.free) :
    (t.resident i).generation + 1 < UInt32.size := by
  obtain ⟨slot, hslot, _, hlt⟩ := vacant_iff.mp (ht.mem_free_iff.mp hi)
  rw [lastGeneration] at hlt
  simp only [resident, hslot, Option.map_some, Option.getD_some]
  omega

theorem generation_fresh_le (ht : WellLinked t) : t.fresh.generation ≤ lastGeneration := by
  unfold fresh allocate
  cases hfree : t.free with
  | nil => exact Nat.zero_le _
  | cons j free =>
    have hlt := generation_lt_of_mem_free ht (hfree ▸ List.mem_cons_self : j ∈ t.free)
    simp only [lastGeneration]
    omega

/-- No slot gets beyond the last generation. -/
def InRange (t : Tree) : Prop := ∀ i g, t.generation? i = some g → g ≤ lastGeneration

theorem SameSlots.generation? (h : SameSlots t u) (i : Nat) :
    u.generation? i = t.generation? i := by
  rw [generation?_eq, generation?_eq, h.occupancy]

theorem InRange.reslots (hrange : InRange t) (ht : WellLinked t) (h : Reslots t u) :
    InRange u := by
  intro i g hg
  cases h with
  | keep h => exact hrange i g (by rwa [← h.generation?])
  | make kind h =>
    rw [h.generation?, generation?_eq, occupancy_allocate ht.vacant_of_mem_free] at hg
    split at hg
    · cases hg
      exact generation_fresh_le ht
    · exact hrange i g (by rwa [generation?_eq])
  | drop a start h =>
    rw [h.generation?, Tree.truncate, Stays.generation?_foldl_release, generation?_eq,
      occupancy_modify, ← generation?_eq] at hg
    exact hrange i g hg

theorem Reachable.inRange (h : Reachable t) : InRange t := by
  induction h with
  | new =>
    intro i g hg
    cases i with
    | zero =>
      cases hg
      exact Nat.zero_le _
    | succ i => cases hg
  | call c h ih => exact ih.reslots h.wellLinked (.call _ c)

/-- The slot is empty and does not wait for another node, since its generation cannot grow. -/
def Retired (t : Tree) (i : Nat) : Prop := t.occupancy i = some (lastGeneration, false)

/-- A retired slot stays retired. -/
theorem Retired.call (hi : t.Retired i) (h : Reachable t) (c : Call) :
    (t.call c).state.Retired i := by
  have hout := Outlasts.call h.wellLinked c
  have hissued : t.Issued ⟨i, lastGeneration⟩ := by
    exact ⟨lastGeneration, by rw [generation?_eq, hi]; rfl, Nat.le_refl _⟩
  obtain ⟨g, hg, hle⟩ := hout.issued hissued
  have hlast : g = lastGeneration := Nat.le_antisymm ((h.call c).inRange i g hg) hle
  obtain ⟨⟨_, occupied⟩, hocc, rfl⟩ := Option.map_eq_some_iff.mp (generation?_eq _ i ▸ hg)
  subst hlast
  cases occupied with
  | false => exact hocc
  | true =>
    have hlive := hout.isLive hissued (isLive_iff.mpr hocc)
    rw [isLive_iff, hi] at hlive
    cases hlive

end LiveMarkup.Live.Tree
