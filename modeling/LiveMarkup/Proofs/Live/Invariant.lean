import LiveMarkup.Proofs.Live.Calls
import LiveMarkup.Proofs.Live.Links

/-!
# What every call keeps

The links of a live tree are sound in every tree that calls lead to, whatever the calls are,
in whatever order they come and whether or not they are refused. The way up from a node is
then as short as there are slots, so that the check for cycles sees all of it. The flag of a
running transaction is set exactly while there are open containers.
-/

namespace LiveMarkup.Live.Tree

open Patch (Outcome)

variable {t u : Tree}

theorem within_of_mem_ancestorsFrom {steps : Nat} {p x : Handle}
    (h : x ∈ t.ancestorsFrom steps (some p)) : Within t.parent? p x := by
  induction steps generalizing p with
  | zero => cases h
  | succ steps ih =>
    rw [ancestorsFrom] at h
    rcases List.mem_cons.mp h with rfl | h
    · exact .refl
    · cases hp : t.parent? p with
      | none =>
        rw [hp] at h
        cases steps <;> cases h
      | some q =>
        rw [hp] at h
        exact .head hp (ih h)

/-- A list that is shorter than allowed has the whole way up. -/
theorem mem_ancestorsFrom_of_within {steps : Nat} {p x : Handle}
    (hlength : (t.ancestorsFrom steps (some p)).length < steps) (h : Within t.parent? p x) :
    x ∈ t.ancestorsFrom steps (some p) := by
  induction steps generalizing p with
  | zero => exact absurd hlength (Nat.not_lt_zero _)
  | succ steps ih =>
    rw [ancestorsFrom] at hlength ⊢
    rcases Relation.ReflTransGen.cases_head h with rfl | ⟨q, hq, hqx⟩
    · exact List.mem_cons_self
    · rw [hq] at hlength ⊢
      exact List.mem_cons_of_mem _ (ih (Nat.lt_of_succ_lt_succ hlength) hqx)

theorem nodup_ancestorsFrom (ht : WellLinked t) (steps : Nat) (p : Handle) :
    (t.ancestorsFrom steps (some p)).Nodup := by
  induction steps generalizing p with
  | zero => exact List.nodup_nil
  | succ steps ih =>
    rw [ancestorsFrom, List.nodup_cons]
    cases hp : t.parent? p with
    | none => cases steps <;> simp [ancestorsFrom]
    | some q =>
      refine ⟨fun hmem => ?_, ih q⟩
      exact (ht.grounded p).not_under_self (.head' hp (within_of_mem_ancestorsFrom hmem))

theorem WellLinked.isLive_of_within (ht : WellLinked t) {h x : Handle}
    (hwithin : Within t.parent? h x) (hlive : t.isLive h = true) : t.isLive x = true := by
  rcases Relation.ReflTransGen.cases_tail hwithin with rfl | ⟨b, _, hb⟩
  · exact hlive
  · exact (ht.hierarchy.present_of_parent hb).1

/-- The nodes above a node are those that following the parents leads to. -/
theorem mem_ancestors_iff (ht : WellLinked t) {h x : Handle} :
    x ∈ t.ancestors h ↔ Under t.parent? h x := by
  rw [ancestors]
  cases hp : t.parent? h with
  | none =>
    constructor
    · intro hx
      cases hcap : t.capacity <;> rw [hcap] at hx <;> cases hx
    · intro hx
      obtain ⟨q, hq, _⟩ := Relation.TransGen.head'_iff.mp hx
      rw [hp] at hq
      cases hq
  | some p =>
    constructor
    · exact fun hx => .head' hp (within_of_mem_ancestorsFrom hx)
    · intro hx
      obtain ⟨q, hq, hqx⟩ := Relation.TransGen.head'_iff.mp hx
      rw [hp, Option.some_inj] at hq
      subst hq
      have hlive := isLive_of_parent? hp
      have hway : (h :: t.ancestorsFrom t.capacity (some p)).length ≤ t.capacity := by
        refine length_le_capacity (List.nodup_cons.mpr ⟨fun hmem => ?_, ?_⟩) ?_
        · exact (ht.grounded h).not_under_self (.head' hp (within_of_mem_ancestorsFrom hmem))
        · exact nodup_ancestorsFrom ht _ p
        · intro y hy
          rcases List.mem_cons.mp hy with rfl | hy
          · exact hlive
          · exact ht.isLive_of_within (.head hp (within_of_mem_ancestorsFrom hy)) hlive
      exact mem_ancestorsFrom_of_within (Nat.lt_of_succ_le hway) hqx

/-- A new node may be put below any node. -/
theorem WellLinked.insert (ht : WellLinked t) (kind : Kind) {p : Handle}
    (hp : t.isLive p = true) (index : Nat) :
    WellLinked ((t.allocate kind).2.link p index t.fresh) := by
  refine (ht.allocate kind).link ((isLive_allocate_iff ht).mpr (.inr hp))
    ((isLive_allocate_iff ht).mpr (.inl rfl))
    ht.root_ne_fresh.symm ?_ ?_ index
  · rw [parent?_allocate ht, parent?, ht.node?_fresh]
    rfl
  · intro hwithin
    -- The new node has nothing below it yet.
    have hnew : t.isLive t.fresh = true := by
      rcases Relation.ReflTransGen.cases_tail hwithin with he | ⟨b, _, hb⟩
      · exact he ▸ hp
      · rw [parent?_allocate ht] at hb
        exact (ht.hierarchy.present_of_parent hb).1
    rw [isLive, ht.node?_fresh] at hnew
    cases hnew

/-- A node may be put below any other one that is not below it. -/
theorem WellLinked.appendChild (ht : WellLinked t) {p c : Handle} (hp : t.isLive p = true)
    (hc : t.isLive c = true) (hroot : c ≠ .root) (hne : c ≠ p) (habove : c ∉ t.ancestors p)
    (index : Nat) : WellLinked ((t.detach c).link p index c) := by
  refine (ht.detach c).link (by simpa using hp) (by simpa using hc) hroot ?_ ?_ index
  · rw [parent?_detach, if_pos rfl]
  · intro hwithin
    have hsame : Within t.parent? p c := by
      refine Within.mono (fun x q hq => ?_) hwithin
      rw [parent?_detach] at hq
      split at hq
      · cases hq
      · exact hq
    rcases Relation.reflTransGen_iff_eq_or_transGen.mp hsame with he | hunder
    · exact hne he
    · exact habove ((mem_ancestors_iff ht).mpr hunder)

theorem WellLinked.ne_root_of_kind (ht : WellLinked t) {h : Handle} {n : Node}
    (hn : t.node? h = some n) (hkind : n.kind ≠ .root) : h ≠ .root := by
  rintro rfl
  obtain ⟨children, hroot⟩ := ht.root
  rw [hroot, Option.some_inj] at hn
  exact hkind (hn ▸ rfl)

theorem WellLinked.ne_root_of_elementName? (ht : WellLinked t) {h : Handle} {name : String}
    (hname : t.elementName? h = some name) : h ≠ .root := by
  obtain ⟨n, hn, hkind⟩ := Option.bind_eq_some_iff.mp hname
  refine ht.ne_root_of_kind hn fun hroot => ?_
  rw [hroot] at hkind
  cases hkind

theorem WellLinked.ne_root_of_text? (ht : WellLinked t) {h : Handle}
    (htext : (t.text? h).isSome = true) : h ≠ .root := by
  obtain ⟨text, htext⟩ := Option.isSome_iff_exists.mp htext
  obtain ⟨n, hn, hkind⟩ := Option.bind_eq_some_iff.mp htext
  refine ht.ne_root_of_kind hn fun hroot => ?_
  rw [hroot] at hkind
  cases hkind

theorem bringForward_perm {h : Handle} {cursor : Nat} {children : List Handle}
    (hmem : h ∈ children.drop cursor) : (bringForward h cursor children).Perm children := by
  have herase := (List.perm_cons_erase hmem).symm.append_left (children.take cursor)
  rwa [List.take_append_drop] at herase

theorem WellLinked.claim (ht : WellLinked t) {frame : Frame} {name key : String} {h : Handle}
    (hcall : t.claim frame name key = (.ok h, u)) : WellLinked u ∧ h ≠ .root := by
  obtain ⟨hcheck, ⟨hfound, rfl⟩ | ⟨_, _, _, rfl, rfl⟩⟩ := claim_cases hcall
  · obtain ⟨hmem, hname, _⟩ := mem_of_findKeyed? hfound
    refine ⟨?_, ht.ne_root_of_elementName? hname⟩
    exact ht.reorder (f := bringForward h frame.cursor) (bringForward_perm hmem)
  · exact ⟨ht.insert _ (isLive_of_check hcheck) _, ht.root_ne_fresh.symm⟩

theorem WellLinked.replaceAttributes (ht : WellLinked t) {h : Handle} (hroot : h ≠ .root)
    (attributes : List (String × String)) : WellLinked (t.replaceAttributes h attributes) := by
  refine ht.relabel hroot (fun n => ?_) fun n => ?_
  · cases n.kind <;> rfl
  · cases n.kind <;> rfl

theorem node?_new (x : Handle) :
    new.node? x = if x = .root then some ⟨.root, none, []⟩ else none := by
  obtain ⟨slot, generation⟩ := x
  cases slot with
  | zero =>
    by_cases hg : generation = 0
    · subst hg
      rfl
    · have hroot : (⟨0, generation⟩ : Handle) ≠ .root := by
        intro h
        exact hg (congrArg Handle.generation h)
      rw [if_neg hroot]
      simp [node?, new, Ne.symm hg]
  | succ slot =>
    have hroot : (⟨slot + 1, generation⟩ : Handle) ≠ .root := by
      intro h
      cases h
    rw [if_neg hroot]
    simp [node?, new]

/-- There is no empty slot beside a lone root. -/
theorem cleared_new : Cleared new := by
  intro i slot hslot hdead
  obtain ⟨hlt, rfl⟩ := Array.getElem?_eq_some_iff.mp hslot
  obtain rfl : i = 0 := Nat.lt_one_iff.mp hlt
  cases hdead

/-- A lone root is well linked. -/
theorem wellLinked_new : WellLinked new := by
  have hparent : ∀ x, new.parent? x = none := by
    intro x
    rw [parent?, node?_new]
    split <;> rfl
  have hchildren : ∀ x, new.children x = [] := by
    intro x
    rw [children, node?_new]
    split <;> rfl
  refine ⟨⟨[], rfl⟩, ?_, ?_, fun x => .top (hparent x), List.nodup_nil, ?_,
    cleared_new⟩
  · intro p c
    rw [hparent, hchildren]
    simp
  · intro p
    rw [hchildren]
    exact List.nodup_nil
  · intro i
    cases i <;> simp [Vacant, occupancy, new]

/-- Whatever a call leaves is well linked. -/
theorem WellLinked.called (ht : WellLinked t) {c : Call} (h : Called t c u) : WellLinked u := by
  cases h with
  | refused => exact ht
  | createElement => exact ht.allocate _
  | createText => exact ht.allocate _
  | appendChild hp hc _ hroot hne habove =>
    exact ht.appendChild (isLive_of_node? hp) (isLive_of_node? hc) hroot hne habove _
  | setAttribute hn hkind =>
    exact ht.relabel (ht.ne_root_of_kind hn (by simp [hkind])) (fun _ => rfl) fun _ => rfl
  | setKey hn hkind =>
    exact ht.relabel (ht.ne_root_of_kind hn (by simp [hkind])) (fun _ => rfl) fun _ => rfl
  | begin => exact ht.setFrames _ _
  | claim _ hclaim => exact (ht.claim hclaim).1
  | openElement _ hclaim =>
    obtain ⟨hu, hroot⟩ := ht.claim hclaim
    exact (hu.replaceAttributes hroot _).setFrames _ _
  | closeElement => exact (ht.truncate _ _).setFrames _ _
  | @rewrite _ _ content _ _ _ hfound =>
    have hroot := ht.ne_root_of_text? (Option.filter_eq_some_iff.mp hfound).2
    have hu := ht.relabel (f := fun n => { n with kind := .text content }) hroot
      (fun _ => rfl) fun _ => rfl
    exact hu.setFrames _ _
  | insertText _ hcheck => exact (ht.insert _ (isLive_of_check hcheck) _).setFrames _ _
  | skip => exact ht.setFrames _ _
  | abandon => exact ht.setFrames _ _
  | complete => exact (ht.truncate _ _).setFrames _ _

theorem WellLinked.call (ht : WellLinked t) (c : Call) : WellLinked (t.call c).state :=
  ht.called (Tree.called t c)

theorem Reachable.wellLinked (h : Reachable t) : WellLinked t := by
  induction h with
  | new => exact wellLinked_new
  | call c _ ih => exact ih.call c

/-- The flag and the frames go together. -/
def FlagSound (t : Tree) : Prop := t.running = true ↔ t.frames ≠ []

theorem FlagSound.congr (ht : FlagSound t) (hrunning : u.running = t.running)
    (hframes : u.frames = t.frames) : FlagSound u := by
  rw [FlagSound, hrunning, hframes]
  exact ht

/-- Where there is a frame before and after a change that leaves the flag, the flag stays
sound. -/
theorem FlagSound.move (ht : FlagSound t) (hrunning : u.running = t.running)
    (hbefore : t.frames ≠ []) (hafter : u.frames ≠ []) : FlagSound u := by
  rw [FlagSound, hrunning]
  exact iff_of_true (ht.mpr hbefore) hafter

theorem FlagSound.claim (ht : FlagSound t) {frame : Frame} {name key : String} {h : Handle}
    (hclaim : t.claim frame name key = (.ok h, u)) :
    FlagSound u ∧ u.running = t.running := by
  obtain ⟨_, ⟨_, rfl⟩ | ⟨_, _, _, _, rfl⟩⟩ := claim_cases hclaim
  · exact ⟨ht.congr rfl rfl, rfl⟩
  · exact ⟨ht.congr (by simp [link]) (by simp [link]), by simp [link]⟩

/-- A transaction sets the flag when it begins and takes it away when it ends, and no call in
between takes the last frame away. -/
theorem FlagSound.called (ht : FlagSound t) {c : Call} (h : Called t c u) : FlagSound u := by
  cases h with
  | refused => exact ht
  | createElement => exact ht.congr (allocate_running t _) (allocate_frames t _)
  | createText => exact ht.congr (allocate_running t _) (allocate_frames t _)
  | appendChild => exact ht.congr (by simp [link]) (by simp [link])
  | setAttribute => exact ht.congr rfl rfl
  | setKey => exact ht.congr rfl rfl
  | begin => exact iff_of_true rfl (List.cons_ne_nil _ _)
  | claim _ hclaim => exact (ht.claim hclaim).1
  | openElement hframes hclaim =>
    refine ht.move ?_ (by simp [hframes]) (List.cons_ne_nil _ _)
    exact (ht.claim hclaim).2
  | closeElement hframes houter =>
    exact ht.move (truncate_running t _ _) (by simp [hframes]) houter
  | rewrite hframes => exact ht.move rfl (by simp [hframes]) (List.cons_ne_nil _ _)
  | insertText hframes =>
    exact ht.move (by simp [link]) (by simp [hframes]) (List.cons_ne_nil _ _)
  | skip _ hframes => exact ht.move rfl (by simp [hframes]) (List.cons_ne_nil _ _)
  | abandon => exact iff_of_false Bool.false_ne_true (fun hne => hne rfl)
  | complete => exact iff_of_false Bool.false_ne_true (fun hne => hne rfl)

/-- Whatever calls are made, a transaction is running exactly while there are frames. -/
theorem Reachable.running_iff (h : Reachable t) : t.running = true ↔ t.frames ≠ [] := by
  induction h with
  | new => exact iff_of_false Bool.false_ne_true (fun hne => hne rfl)
  | call c _ ih => exact FlagSound.called ih (Tree.called _ c)

theorem Reachable.frames_eq_nil_iff (h : Reachable t) : t.frames = [] ↔ t.running = false := by
  rw [← Bool.not_eq_true, h.running_iff, not_not]

/-- An instruction finds all frames that there are. -/
theorem Reachable.openFrames_eq (h : Reachable t) : t.openFrames = t.frames := by
  rw [openFrames]
  split
  · rfl
  · next hidle => exact (h.frames_eq_nil_iff.mpr (by simpa using hidle)).symm

/-- What holds of the slots of a live tree at any time: the root, the children and the
parent of each node, the records of the slots, what is left in those that are empty, and the
list of those that wait for a node. -/
structure ArenaSound (t : Tree) : Prop where
  root : ∃ children, t.slots[0]? = some ⟨0, true, ⟨.root, none, children⟩⟩
  children : ∀ {p c}, c ∈ t.children p →
    t.isLive p = true ∧ t.isLive c = true ∧ t.resident c.slot = c ∧ t.parent? c = some p
  nodup_children : ∀ p, (t.children p).Nodup
  listed : ∀ {p c}, t.parent? c = some p → c ∈ t.children p
  grounded : ∀ h, Grounded t.parent? h
  /-- The record of a slot, whether or not the slot is empty, tells what its resident has. -/
  resident : ∀ {i : Nat} {slot : Slot}, t.slots[i]? = some slot →
    t.elementName? (t.resident i) = slot.record.kind.name? ∧
      t.parent? (t.resident i) = slot.record.parent ∧
      t.children (t.resident i) = slot.record.children
  /-- The record of an empty slot has no links. -/
  cleared : ∀ {i : Nat} {slot : Slot}, t.slots[i]? = some slot → slot.live = false →
    slot.record.parent = none ∧ slot.record.children = []
  /-- No handle of an empty slot has links, or is linked. -/
  empty : ∀ {i : Nat} {slot : Slot}, t.slots[i]? = some slot → slot.live = false → ∀ generation,
    t.parent? ⟨i, generation⟩ = none ∧ t.children ⟨i, generation⟩ = [] ∧
      ∀ x, t.parent? x ≠ some ⟨i, generation⟩ ∧ ⟨i, generation⟩ ∉ t.children x
  nodup_free : t.free.Nodup
  mem_free_iff : ∀ {i}, i ∈ t.free ↔
    ∃ slot : Slot, t.slots[i]? = some slot ∧ slot.live = false ∧ slot.generation < lastGeneration

theorem vacant_iff {i : Nat} : t.Vacant i ↔
    ∃ slot : Slot, t.slots[i]? = some slot ∧ slot.live = false ∧
      slot.generation < lastGeneration := by
  rw [Vacant, occupancy]
  cases t.slots[i]? with
  | none => simp
  | some slot => cases slot.live <;> simp

/-- No handle of an empty slot names a node. -/
theorem node?_of_empty {i : Nat} {slot : Slot} (hslot : t.slots[i]? = some slot)
    (hempty : slot.live = false) (generation : Nat) : t.node? ⟨i, generation⟩ = none := by
  simp [node?, hslot, Slot.occupant, hempty]

/-- Looking at the record of a slot is looking at its resident, also while the slot is empty. -/
theorem WellLinked.look_resident (ht : WellLinked t) {i : Nat} {slot : Slot}
    (hslot : t.slots[i]? = some slot) :
    t.elementName? (t.resident i) = slot.record.kind.name? ∧
      t.parent? (t.resident i) = slot.record.parent ∧
      t.children (t.resident i) = slot.record.children := by
  have hresident : t.resident i = ⟨i, slot.generation⟩ := by simp [resident, hslot]
  rw [hresident]
  cases hlive : slot.live with
  | true =>
    have hnode : t.node? ⟨i, slot.generation⟩ = some slot.record := by
      simp [node?, hslot, Slot.occupant, hlive]
    simp [elementName?, parent?, children, hnode]
  | false =>
    have hnone := node?_of_empty hslot hlive slot.generation
    have hrecord := ht.cleared i slot hslot hlive
    simp [elementName?, parent?, children, hnone, hrecord, Kind.name?]

/-- Whatever calls are made, and wherever they fail, the arena is sound before and after
each of them. -/
theorem Reachable.arenaSound (h : Reachable t) : ArenaSound t := by
  have ht := h.wellLinked
  refine ⟨?_, ?_, ht.nodup_children, ht.mem_children_iff.mpr, ht.grounded, ht.look_resident, ?_,
    ?_, ht.nodup_free, ?_⟩
  · obtain ⟨children, hroot⟩ := ht.root
    rw [node?] at hroot
    split at hroot
    · next slot hslot =>
      split at hroot
      · next hgeneration =>
        obtain ⟨generation, live, record⟩ := slot
        cases hgeneration
        cases live with
        | true =>
          cases hroot
          exact ⟨children, hslot⟩
        | false => cases hroot
      · cases hroot
    · cases hroot
  · intro p c hc
    have hparent := ht.mem_children_iff.mp hc
    have hlive := isLive_of_parent? hparent
    exact ⟨isLive_of_mem_children hc, hlive, resident_of_isLive hlive, hparent⟩
  · intro i slot hslot hempty
    simp [ht.cleared i slot hslot hempty]
  · intro i slot hslot hempty generation
    have hnone := node?_of_empty hslot hempty generation
    have hdead : ¬ t.isLive ⟨i, generation⟩ = true := by simp [isLive, hnone]
    refine ⟨by simp [parent?, hnone], by simp [children, hnone], fun x => ⟨?_, ?_⟩⟩
    · exact fun hx => hdead (ht.hierarchy.present_of_parent hx).1
    · exact fun hx => hdead (isLive_of_parent? (ht.mem_children_iff.mp hx))
  · intro i
    rw [ht.mem_free_iff, vacant_iff]

/-- A transaction that makes an element with a text, goes on after a close that is refused, then
raises an error, and a second one that removes the element, leave a sound arena. Both slots wait
for another node, and nothing is left in them of the links. -/
theorem arenaSound_after_transactions :
    let calls : List Call :=
      [.begin .root, .perform (.openTag "p" (.explicit "k") []), .perform (.text "x"),
        .perform (.closeTag "q"), .createText "loose", .finish (some .noTransaction),
        .begin .root, .finish none]
    (Tree.new.run calls).free = [2, 1] ∧
      (Tree.new.run calls).slots[1]? = some ⟨0, false, ⟨.text "", none, []⟩⟩ ∧
      (Tree.new.run calls).slots[2]? = some ⟨0, false, ⟨.text "", none, []⟩⟩ ∧
      ArenaSound (Tree.new.run calls) := by
  refine ⟨by decide, by decide, by decide, ?_⟩
  exact Reachable.arenaSound (Reachable.new.run _)

end LiveMarkup.Live.Tree
