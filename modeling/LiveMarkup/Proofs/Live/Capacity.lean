import LiveMarkup.Proofs.Live.Confined
import LiveMarkup.Proofs.Live.History
import LiveMarkup.Proofs.Live.Success

/-!
# The growth of an arena

Every slot has a node, waits for one or is retired, so the slots are counted by the nodes and by
what is waiting. An arena grows only when nothing is waiting. Right afterwards it has no more
slots than nodes and retired slots, so a bound of the nodes is a bound of the slots as well.

A replay makes no more nodes than it has opens and texts, and what was there before is gone when
it succeeds. So replays into the root keep the arena within the size of one content that is
replaced and of the one that replaces it.
-/

namespace LiveMarkup.Live

open Patch (Outcome Denotes)
open Rose (place places)

namespace Tree

variable {t u : Tree} {h : Handle} {i : Nat}

/-- The number of slots whose generation and occupancy have some property. -/
def countSlots (t : Tree) (p : Nat × Bool → Bool) : Nat :=
  (List.range t.capacity).countP fun i => (t.occupancy i).any p

/-- The number of slots that are retired. -/
def retired (t : Tree) : Nat := t.countSlots fun o => !o.2 && o.1 == lastGeneration

variable {p : Nat × Bool → Bool} {l : List Nat}

theorem countSlots_eq_countP (t : Tree) (p : Nat × Bool → Bool) :
    t.countSlots p = t.slots.toList.countP fun slot => p (slot.generation, slot.live) := by
  have hslots : (List.range t.capacity).map t.occupancy =
      t.slots.toList.map fun slot => some (slot.generation, slot.live) := by
    refine List.ext_getElem (by simp [capacity]) fun i hi _ => ?_
    have hlt : i < t.slots.size := by simpa [capacity] using hi
    simp [occupancy, hlt]
  calc t.countSlots p
    _ = ((List.range t.capacity).map t.occupancy).countP (Option.any p) := by
      rw [List.countP_map]
      rfl
    _ = t.slots.toList.countP fun slot => p (slot.generation, slot.live) := by
      rw [hslots, List.countP_map]
      rfl

theorem liveCount_eq_countSlots (t : Tree) : t.liveCount = t.countSlots Prod.snd :=
  (countSlots_eq_countP t Prod.snd).symm

private theorem lt_capacity_of_any (hi : (t.occupancy i).any p = true) : i < t.capacity := by
  rw [lt_capacity_iff]
  intro hnone
  rw [hnone] at hi
  cases hi

theorem countSlots_le_length (hmem : ∀ i, (t.occupancy i).any p = true → i ∈ l) :
    t.countSlots p ≤ l.length := by
  rw [countSlots, List.countP_eq_length_filter]
  refine (List.Nodup.subperm (List.nodup_range.filter _) fun i hi => ?_).length_le
  exact hmem i (List.mem_filter.mp hi).2

theorem countSlots_eq_length (hnodup : l.Nodup)
    (hmem : ∀ i, i ∈ l ↔ (t.occupancy i).any p = true) : t.countSlots p = l.length := by
  refine Nat.le_antisymm (countSlots_le_length fun i => (hmem i).mpr) ?_
  rw [countSlots, List.countP_eq_length_filter]
  refine (hnodup.subperm fun i hi => ?_).length_le
  have hp := (hmem i).mp hi
  exact List.mem_filter.mpr ⟨List.mem_range.mpr (lt_capacity_of_any hp), hp⟩

/-- The slots with some property, each of them once. -/
theorem exists_nodup_countSlots (t : Tree) (p : Nat × Bool → Bool) :
    ∃ l : List Nat, l.Nodup ∧ (∀ i, i ∈ l ↔ (t.occupancy i).any p = true) ∧
      l.length = t.countSlots p := by
  refine ⟨(List.range t.capacity).filter fun i => (t.occupancy i).any p,
    List.nodup_range.filter _, fun i => ?_, (List.countP_eq_length_filter).symm⟩
  rw [List.mem_filter, List.mem_range]
  exact ⟨fun hi => hi.2, fun hi => ⟨lt_capacity_of_any hi, hi⟩⟩

theorem any_snd_iff :
    (t.occupancy i).any Prod.snd = true ↔ ∃ h, t.isLive h = true ∧ h.slot = i := by
  constructor
  · intro hi
    cases hocc : t.occupancy i with
    | none => simp [hocc] at hi
    | some o =>
      obtain ⟨g, occupied⟩ := o
      rw [hocc] at hi
      cases hi
      exact ⟨⟨i, g⟩, isLive_iff.mpr hocc, rfl⟩
  · rintro ⟨h, hlive, rfl⟩
    rw [isLive_iff.mp hlive]
    rfl

theorem any_waiting_iff :
    (t.occupancy i).any (fun o => !o.2 && decide (o.1 < lastGeneration)) = true ↔
      t.Vacant i := by
  rw [Vacant]
  cases t.occupancy i with
  | none => simp
  | some o =>
    obtain ⟨g, occupied⟩ := o
    cases occupied <;> simp

theorem any_retired_iff :
    (t.occupancy i).any (fun o => !o.2 && o.1 == lastGeneration) = true ↔ t.Retired i := by
  rw [Retired]
  cases t.occupancy i with
  | none => simp
  | some o =>
    obtain ⟨g, occupied⟩ := o
    cases occupied <;> simp

/-- There are as many nodes as live handles. -/
theorem liveCount_eq_length {l : List Handle} (hnodup : l.Nodup)
    (hmem : ∀ h, h ∈ l ↔ t.isLive h = true) : t.liveCount = l.length := by
  rw [liveCount_eq_countSlots, ← List.length_map Handle.slot]
  refine countSlots_eq_length (List.Nodup.map_on ?_ hnodup) fun i => ?_
  · intro a ha b hb hab
    exact eq_of_isLive_of_slot_eq ((hmem a).mp ha) ((hmem b).mp hb) hab
  · simp only [any_snd_iff, List.mem_map, hmem]

/-- Each slot is counted once. -/
theorem countSlots_partition (hrange : InRange t) : t.capacity = t.countSlots Prod.snd +
    t.countSlots (fun o => !o.2 && decide (o.1 < lastGeneration)) + t.retired := by
  have hslots : ∀ slot ∈ t.slots.toList, slot.generation ≤ lastGeneration := by
    intro slot hslot
    obtain ⟨i, hi⟩ := List.getElem?_of_mem hslot
    exact hrange i _ (by rw [generation?, ← Array.getElem?_toList, hi]; rfl)
  have hcapacity : t.capacity = t.slots.toList.length := by simp [capacity]
  rw [retired, hcapacity, countSlots_eq_countP, countSlots_eq_countP, countSlots_eq_countP]
  generalize t.slots.toList = slots at hslots
  induction slots with
  | nil => rfl
  | cons slot slots ih =>
    have hrest := ih fun s hs => hslots s (List.mem_cons_of_mem _ hs)
    have hle := hslots slot List.mem_cons_self
    simp only [List.length_cons, List.countP_cons, hrest]
    cases hocc : slot.live with
    | true =>
      simp
      omega
    | false =>
      rcases Nat.lt_or_eq_of_le hle with hlt | heq
      · simp [hlt, Nat.ne_of_lt hlt]
        omega
      · simp [heq]
        omega

/-- The slots that wait are those that are empty and not retired. -/
theorem length_free (ht : WellLinked t) :
    t.free.length = t.countSlots fun o => !o.2 && decide (o.1 < lastGeneration) := by
  refine (countSlots_eq_length ht.nodup_free fun i => ?_).symm
  rw [ht.mem_free_iff, any_waiting_iff]

/-- Every slot has a node, waits for one or is retired. -/
theorem Reachable.capacity_eq (h : Reachable t) :
    t.capacity = t.liveCount + t.free.length + t.retired := by
  rw [liveCount_eq_countSlots, length_free h.wellLinked]
  exact countSlots_partition h.inRange

/-- There are no more nodes after a change than before, apart from those that it makes. -/
theorem Adds.liveCount_le {made : Option Handle} (h : Adds t u made) :
    u.liveCount ≤ t.liveCount + made.toList.length := by
  obtain ⟨l, -, hmem, hlength⟩ := exists_nodup_countSlots t Prod.snd
  rw [liveCount_eq_countSlots, liveCount_eq_countSlots, ← hlength]
  cases h with
  | nothing hlive =>
    refine countSlots_le_length fun i hi => ?_
    obtain ⟨h, hu, rfl⟩ := any_snd_iff.mp hi
    exact (hmem _).mpr (any_snd_iff.mpr ⟨h, hlive hu, rfl⟩)
  | node hlive =>
    have hle : u.countSlots Prod.snd ≤ (t.fresh.slot :: l).length := by
      refine countSlots_le_length fun i hi => ?_
      obtain ⟨h, hu, rfl⟩ := any_snd_iff.mp hi
      rcases hlive.mp hu with rfl | ht
      · exact List.mem_cons_self
      · exact List.mem_cons_of_mem _ ((hmem _).mpr (any_snd_iff.mpr ⟨h, ht, rfl⟩))
    exact hle

theorem length_newHandle? (t : Tree) (c : Call) :
    (t.newHandle? c).toList.length ≤ if mayMake c then 1 else 0 := by
  have hone : ∀ made : Option Handle, made.toList.length ≤ 1 := by
    intro made
    cases made <;> simp
  cases c with
  | perform i => cases i <;> first | exact hone _ | exact Nat.le_refl 0
  | createElement _ => exact hone _
  | createText _ => exact hone _
  | _ => exact Nat.le_refl 0

theorem liveCount_run_le (ht : WellLinked t) (calls : List Call) :
    (t.run calls).liveCount ≤ t.liveCount + calls.countP mayMake := by
  induction calls generalizing t with
  | nil => exact Nat.le_refl _
  | cons c calls ih =>
    have hcall := (Adds.call ht c).liveCount_le
    have hmade := length_newHandle? t c
    have hrest := ih (ht.call c)
    rw [List.countP_cons]
    change ((t.call c).state.run calls).liveCount ≤ _
    omega

theorem retired_call_le (h : Reachable t) (c : Call) : t.retired ≤ (t.call c).state.retired := by
  obtain ⟨l, -, hmem, hlength⟩ := exists_nodup_countSlots (t.call c).state
    fun o => !o.2 && o.1 == lastGeneration
  rw [retired, retired, ← hlength]
  refine countSlots_le_length fun i hi => ?_
  exact (hmem i).mpr (any_retired_iff.mpr ((any_retired_iff.mp hi).call h c))

/-- As long as a number bounds the nodes it bounds the slots that are not retired. -/
theorem capacity_run_le (h : Reachable t) {bound : Nat} (hstart : t.capacity ≤ bound + t.retired)
    (calls : List Call)
    (hbound : ∀ before, before <+: calls → (t.run before).liveCount ≤ bound) :
    (t.run calls).capacity ≤ bound + (t.run calls).retired := by
  induction calls generalizing t with
  | nil => exact hstart
  | cons c calls ih =>
    have hcall : (t.call c).state.capacity ≤ bound + (t.call c).state.retired := by
      rcases (Reslots.call t c).capacity_cases with hsame | ⟨_, hfree, _⟩
      · have hretired := retired_call_le h c
        omega
      · -- Nothing waits right after the arena has grown.
        have hcount := (h.call c).capacity_eq
        have hlive : (t.call c).state.liveCount ≤ bound := hbound [c] (by simp)
        rw [hfree, List.length_nil] at hcount
        omega
    exact ih (h.call c) hcall fun before hbefore =>
      hbound (c :: before) ((List.prefix_cons_inj c).mpr hbefore)

/-- A program without skips denotes a node for each of its opens and texts. -/
theorem length_of_denotes {program : List (Patch.Instruction Patch.Key)}
    {forest : List (Rose Kind)} (h : Denotes program forest) :
    (Rose.preorderAll forest).length =
      program.countP Patch.Instruction.isOpen + program.countP Patch.Instruction.isText := by
  induction h with
  | nil => rfl
  | text content _ ih =>
    simp [Rose.preorderAll, Rose.preorder, Patch.Instruction.isOpen, Patch.Instruction.isText,
      List.countP_cons, ih]
    omega
  | element name key attributes _ _ ihb ih =>
    simp [Rose.preorderAll, Rose.preorder, Patch.Instruction.isOpen, Patch.Instruction.isText,
      List.countP_cons, ihb, ih]
    omega

/-- Nothing hangs outside of the root. -/
def Whole (t : Tree) : Prop := ∀ h, t.isLive h = true → Within t.parent? h .root

theorem whole_new : Whole new := by
  intro h hlive
  exact isLive_new.mp hlive ▸ .refl

theorem Whole.apply (hwhole : Whole t) (h : Reachable t) (p : Patch) :
    Whole (p.apply .root t).state := by
  have hc := Confined.apply h p .root
  intro x hx
  cases hlive : t.isLive x with
  | true => exact hc.inside hlive (hwhole x hlive) hx
  | false => exact hc.created hlive hx

/-- The nodes that are there after a replay into the root are those of its program. -/
theorem liveCount_apply (h : Reachable t) (hwhole : Whole t) {p : Patch}
    (hskip : p.stats.skips = 0) (hok : (p.apply .root t).failure = none) :
    (p.apply .root t).state.liveCount = 1 + (p.stats.elements + p.stats.texts) := by
  have hskip' : ∀ i ∈ p.instructions, i.isSkip = false := by
    simpa [Patch.stats, List.countP_eq_zero] using hskip
  obtain ⟨_, passed, ahead, _, hmakes, hstored⟩ := apply_makes h hok
  have hdenotes := hmakes.runs.denotes rfl hskip'
  have hu := (h.apply p .root).wellLinked
  have hsize := length_of_denotes hdenotes
  rw [Rose.preorderAll_mapAll, List.length_map, ← List.length_map Prod.fst] at hsize
  have hnodup : (Handle.root :: places passed).Nodup := by
    simpa [Rose.records, Rose.map_fst_recordsAll] using hstored.nodup
  rw [liveCount_eq_length hnodup fun x => ?_, List.length_cons, Nat.add_comm]
  · exact congrArg _ hsize
  · constructor
    · intro hx
      obtain ⟨e, he, rfl⟩ := List.mem_map.mp (show x ∈ (Rose.records Node.mk (t.parent? .root)
        (.node (Handle.root, t.kindOf .root) passed)).map Prod.fst by
          simpa [Rose.records, Rose.map_fst_recordsAll] using hx)
      exact isLive_of_node? (hstored.held e he)
    · intro hx
      rcases Relation.ReflTransGen.cases_tail (hwhole.apply h p x hx) with rfl | ⟨b, hxb, hb⟩
      · exact List.mem_cons_self
      · refine List.mem_cons_of_mem _ (mem_places_of_within hu hstored.held.tail ?_ hxb)
        have hchildren : (p.apply .root t).state.children .root = passed.map place :=
          children_of_node? (hstored.held _ List.mem_cons_self)
        exact hchildren ▸ hu.mem_children_iff.mpr hb

/-- The calls of a replay into the root that succeeds. -/
def rootCalls (p : Patch) : List Call :=
  .begin .root :: (p.instructions.map .perform ++ [.finish none])

theorem countP_rootCalls (p : Patch) :
    (rootCalls p).countP mayMake = p.stats.elements + p.stats.texts := by
  have hbody : ∀ program : List (Patch.Instruction Patch.Key),
      (program.map Call.perform).countP mayMake =
        program.countP Patch.Instruction.isOpen + program.countP Patch.Instruction.isText := by
    intro program
    induction program with
    | nil => rfl
    | cons i program ih =>
      rw [List.map_cons, List.countP_cons, List.countP_cons, List.countP_cons, ih]
      cases i <;> simp [mayMake, Patch.Instruction.isOpen, Patch.Instruction.isText] <;> omega
  simp [rootCalls, mayMake, Patch.stats, hbody]

theorem run_rootCalls {p : Patch} (hok : (p.apply .root t).failure = none) :
    t.run (rootCalls p) = (p.apply .root t).state := by
  obtain ⟨u, hbegin, hreplay⟩ := exists_begin_of_apply hok
  obtain ⟨body, -, hrun, hall⟩ := exists_prefix_of_replay u p.instructions
  rw [hall hreplay] at hrun
  have hstart : (t.call (.begin .root)).state = u := by simp [Tree.call, hbegin]
  rw [apply_of_begin hbegin, hreplay, hrun, rootCalls, ← hstart]
  exact run_append _ _ _

/-- Replays some patches into the root, one after the other. -/
def applyAll (t : Tree) (ps : List Patch) : Tree := ps.foldl (fun t p => (p.apply .root t).state) t

/-- All of these replays succeed. -/
def AllSucceed (t : Tree) : List Patch → Prop
  | [] => True
  | p :: ps => (p.apply .root t).failure = none ∧ (p.apply .root t).state.AllSucceed ps

theorem AllSucceed.of_append {ps qs : List Patch} {p : Patch}
    (hok : t.AllSucceed (ps ++ p :: qs)) :
    t.AllSucceed ps ∧ (p.apply .root (t.applyAll ps)).failure = none := by
  induction ps generalizing t with
  | nil => exact ⟨trivial, hok.1⟩
  | cons q ps ih =>
    obtain ⟨hbefore, hlast⟩ := ih hok.2
    exact ⟨⟨hok.1, hbefore⟩, hlast⟩

theorem run_flatMap_rootCalls {ps : List Patch} (hok : t.AllSucceed ps) :
    t.run (ps.flatMap rootCalls) = t.applyAll ps := by
  induction ps generalizing t with
  | nil => rfl
  | cons p ps ih =>
    rw [List.flatMap_cons, run_append, run_rootCalls hok.1]
    exact ih hok.2

/-- Between two replays there is one content of at most `m` nodes, and the slots suffice for it
and for one that replaces it. -/
structure Bounded (m : Nat) (t : Tree) : Prop where
  reachable : Reachable t
  whole : Whole t
  liveCount_le : t.liveCount ≤ 1 + m
  capacity_le : t.capacity ≤ 1 + 2 * m + t.retired

theorem bounded_new (m : Nat) : Bounded m new := by
  refine ⟨.new, whole_new, ?_, ?_⟩
  · exact Nat.le_add_right 1 m
  · change 1 ≤ _
    omega

/-- Nodes and slots are bounded at each moment of a replay. -/
theorem Bounded.run {m : Nat} (h : Bounded m t) {p : Patch}
    (hsize : p.stats.elements + p.stats.texts ≤ m) {before : List Call}
    (hbefore : before <+: rootCalls p) :
    (t.run before).liveCount ≤ 1 + 2 * m ∧
      (t.run before).capacity ≤ 1 + 2 * m + (t.run before).retired := by
  have hbound : ∀ calls, calls <+: rootCalls p → (t.run calls).liveCount ≤ 1 + 2 * m := by
    intro calls hcalls
    have hrun := liveCount_run_le h.reachable.wellLinked calls
    have hmade := hcalls.sublist.countP_le (p := mayMake)
    rw [countP_rootCalls] at hmade
    have hlive := h.liveCount_le
    omega
  refine ⟨hbound before hbefore, capacity_run_le h.reachable h.capacity_le before ?_⟩
  exact fun calls hcalls => hbound calls (hcalls.trans hbefore)

theorem Bounded.apply {m : Nat} (h : Bounded m t) {p : Patch} (hskip : p.stats.skips = 0)
    (hsize : p.stats.elements + p.stats.texts ≤ m) (hok : (p.apply .root t).failure = none) :
    Bounded m (p.apply .root t).state := by
  refine ⟨h.reachable.apply p .root, h.whole.apply h.reachable p, ?_, ?_⟩
  · rw [liveCount_apply h.reachable h.whole hskip hok]
    omega
  · rw [← run_rootCalls hok]
    exact (h.run hsize (List.prefix_refl _)).2

section Growth

variable {m : Nat} {ps : List Patch}
  (hsmall : ∀ p ∈ ps, p.stats.skips = 0 ∧ p.stats.elements + p.stats.texts ≤ m)

include hsmall

theorem Bounded.applyAll (h : Bounded m t) (hok : t.AllSucceed ps) :
    Bounded m (t.applyAll ps) := by
  induction ps generalizing t with
  | nil => exact h
  | cons p ps ih =>
    obtain ⟨hskip, hsize⟩ := hsmall p List.mem_cons_self
    exact ih (fun q hq => hsmall q (List.mem_cons_of_mem _ hq)) (h.apply hskip hsize hok.1) hok.2

theorem Bounded.run_flatMap (h : Bounded m t) (hok : t.AllSucceed ps) {before : List Call}
    (hbefore : before <+: ps.flatMap rootCalls) :
    (t.run before).liveCount ≤ 1 + 2 * m ∧
      (t.run before).capacity ≤ 1 + 2 * m + (t.run before).retired := by
  induction ps generalizing t before with
  | nil =>
    rw [List.prefix_nil.mp hbefore]
    have hlive := h.liveCount_le
    exact ⟨show t.liveCount ≤ _ by omega, h.capacity_le⟩
  | cons p ps ih =>
    obtain ⟨hskip, hsize⟩ := hsmall p List.mem_cons_self
    rw [List.flatMap_cons] at hbefore
    rcases List.prefix_or_prefix_of_prefix hbefore (List.prefix_append _ _) with hwithin | hbeyond
    · exact h.run hsize hwithin
    · obtain ⟨rest, rfl⟩ := hbeyond
      rw [run_append, run_rootCalls hok.1]
      exact ih (fun q hq => hsmall q (List.mem_cons_of_mem _ hq)) (h.apply hskip hsize hok.1) hok.2
        ((List.prefix_append_right_inj _).mp hbefore)

end Growth

theorem retired_eq_zero (hyoung : ∀ i g, t.generation? i = some g → g < lastGeneration) :
    t.retired = 0 := by
  rw [retired, countSlots, List.countP_eq_zero]
  intro i _ hi
  have hgeneration : t.generation? i = some lastGeneration := by
    rw [generation?_eq, any_retired_iff.mp hi]
    rfl
  exact Nat.lt_irrefl _ (hyoung i _ hgeneration)

/-- Every slot has a node, waits for one or is retired, and none is added while one waits. -/
structure Accounted (t : Tree) : Prop where
  capacity_eq : t.capacity = t.liveCount + t.free.length + t.retired
  grows : ∀ c, (t.call c).state.capacity = t.capacity ∨
    t.free = [] ∧ (t.call c).state.capacity = t.capacity + 1

/-- The slots of a tree are accounted for whatever was called. And when patches without skips,
with at most `m` opens and texts each, are replayed into the root of a new tree and all replays
succeed, then there are never more than twice `m` nodes beside the root, nor slots while no
generation is the last one; and after each replay the nodes are those of its patch. -/
theorem Reachable.accounted (h : Reachable t) : Accounted t ∧ ∀ (m : Nat) (ps : List Patch),
    (∀ p ∈ ps, p.stats.skips = 0 ∧ p.stats.elements + p.stats.texts ≤ m) →
    Tree.new.AllSucceed ps →
    (∀ before, before <+: ps.flatMap rootCalls →
      (Tree.new.run before).liveCount ≤ 1 + 2 * m ∧
      ((∀ i g, (Tree.new.run before).generation? i = some g → g < lastGeneration) →
        (Tree.new.run before).capacity ≤ 1 + 2 * m)) ∧
    Tree.new.run (ps.flatMap rootCalls) = Tree.new.applyAll ps ∧
    ∀ before p after, ps = before ++ p :: after →
      (Tree.new.applyAll (before ++ [p])).liveCount = 1 + (p.stats.elements + p.stats.texts) := by
  refine ⟨⟨h.capacity_eq, fun c => ?_⟩, fun m ps hsmall hok =>
    ⟨fun before hbefore => ?_, run_flatMap_rootCalls hok, ?_⟩⟩
  · exact (Reslots.call t c).capacity_cases.imp_right fun hgrows => ⟨hgrows.1, hgrows.2.2⟩
  · obtain ⟨hlive, hcapacity⟩ := (bounded_new m).run_flatMap hsmall hok hbefore
    exact ⟨hlive, fun hyoung => by rwa [retired_eq_zero hyoung] at hcapacity⟩
  · rintro before p after rfl
    obtain ⟨hbefore, hlast⟩ := hok.of_append
    have hs := (bounded_new m).applyAll (fun q hq => hsmall q (List.mem_append_left _ hq)) hbefore
    have hskip := (hsmall p (by simp)).1
    rw [applyAll, List.foldl_append]
    exact liveCount_apply hs.reachable hs.whole hskip hlast

/-- An element with a text is replaced by another one, and that by a third. The arena grows to
the bound in the second replay, and the third finds its slots waiting. -/
theorem accounted_three_replays :
    let t := Tree.new.run [.createText "x", .begin .root]
    let ps : List Patch :=
      [⟨[.openTag "a" (.explicit "k") [], .text "x", .closeTag "a"]⟩,
        ⟨[.openTag "b" (.explicit "k") [], .text "y", .closeTag "b"]⟩,
        ⟨[.openTag "i" (.explicit "k") [], .text "z", .closeTag "i"]⟩]
    (Tree.new.run (ps.flatMap rootCalls)).capacity = 5 ∧ Accounted t ∧
      (∀ before, before <+: ps.flatMap rootCalls →
        (Tree.new.run before).liveCount ≤ 1 + 2 * 2) ∧
      (Tree.new.applyAll ps).liveCount = 3 := by
  intro t ps
  obtain ⟨haccounted, hgrowth⟩ := Reachable.accounted (show Reachable t from Reachable.new.run _)
  have hok : Tree.new.AllSucceed ps := ⟨by decide, by decide, by decide, trivial⟩
  obtain ⟨hbound, -, hlast⟩ := hgrowth 2 ps (by decide) hok
  refine ⟨by decide, haccounted, fun before hbefore => (hbound before hbefore).1, ?_⟩
  exact hlast [_, _] _ [] rfl

end Tree

end LiveMarkup.Live
