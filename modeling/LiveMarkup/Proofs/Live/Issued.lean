import LiveMarkup.Proofs.Live.Invariant

/-!
# Handles that are given out

A slot counts its occupants by its generation, so the handles that were given out so far can
be read off the slots (`Issued`). A new node gets a handle that was not given out before,
and giving out handles is never undone.

An instruction moves children only within their container, and what it takes away it
removes. So a node that was there before and is there afterwards still has its parent
(`Stays`).
-/

namespace LiveMarkup.Live.Tree

open Patch (Outcome)

variable {t u v : Tree} {h x : Handle} {kind : Kind}

/-- The generation of a slot. -/
def generation? (t : Tree) (i : Nat) : Option Nat := t.slots[i]?.map Slot.generation

/-- The handles that a tree has given out: those of all generations that a slot has had. -/
def Issued (t : Tree) (h : Handle) : Prop :=
  ∃ generation, t.generation? h.slot = some generation ∧ h.generation ≤ generation

theorem generation?_eq (t : Tree) (i : Nat) : t.generation? i = (t.occupancy i).map Prod.fst := by
  rw [generation?, occupancy, Option.map_map]
  rfl

theorem issued_of_isLive (hlive : t.isLive h = true) : t.Issued h := by
  refine ⟨h.generation, ?_, Nat.le_refl _⟩
  rw [generation?_eq, isLive_iff.mp hlive, Option.map_some]

/-- The slot of the next new node is at its end or has had only earlier generations. -/
theorem lt_of_generation?_fresh {generation : Nat}
    (hfresh : t.generation? t.fresh.slot = some generation) : generation < t.fresh.generation := by
  unfold fresh allocate at hfresh ⊢
  cases hfree : t.free with
  | nil => simp [hfree, generation?] at hfresh
  | cons i free =>
    simp only [hfree, generation?] at hfresh
    simp [resident, hfresh]

theorem not_issued_fresh : ¬ t.Issued t.fresh := by
  rintro ⟨generation, hgeneration, hle⟩
  have hlt := lt_of_generation?_fresh hgeneration
  omega

/-- Handles that are given out stay so, and no node of theirs comes back. -/
structure Outlasts (t u : Tree) : Prop where
  issued : ∀ {h}, t.Issued h → u.Issued h
  isLive : ∀ {h}, t.Issued h → u.isLive h = true → t.isLive h = true

/-- Besides, a node that is still there has its parent still. -/
structure Stays (t u : Tree) : Prop extends Outlasts t u where
  parent? : ∀ {h}, t.Issued h → u.isLive h = true → u.parent? h = t.parent? h

namespace Outlasts

theorem refl (t : Tree) : Outlasts t t := ⟨id, fun _ hlive => hlive⟩

theorem trans (htu : Outlasts t u) (huv : Outlasts u v) : Outlasts t v :=
  ⟨fun hh => huv.issued (htu.issued hh),
    fun hh hlive => htu.isLive hh (huv.isLive (htu.issued hh) hlive)⟩

/-- A change that leaves all slots to their occupants. -/
theorem of_occupancy (hsame : ∀ i, u.occupancy i = t.occupancy i) : Outlasts t u := by
  refine ⟨fun {x} hx => ?_, fun {x} _ hlive => ?_⟩
  · rwa [Issued, generation?_eq, hsame, ← generation?_eq]
  · rwa [isLive_iff, hsame, ← isLive_iff] at hlive

/-- A new node gets a handle that was not given out. -/
theorem allocate (ht : WellLinked t) (kind : Kind) : Outlasts t (t.allocate kind).2 := by
  refine ⟨fun {x} hx => ?_, fun {x} hx hlive => ?_⟩
  · rw [Issued, generation?_eq, occupancy_allocate ht.vacant_of_mem_free]
    obtain ⟨generation, hgeneration, hle⟩ := hx
    split
    · next hslot =>
      rw [hslot] at hgeneration
      have hlt := lt_of_generation?_fresh hgeneration
      exact ⟨t.fresh.generation, rfl, by omega⟩
    · exact ⟨generation, by rwa [← generation?_eq], hle⟩
  · rw [isLive_allocate_iff ht] at hlive
    exact hlive.resolve_left fun hfresh => not_issued_fresh (hfresh ▸ hx)

end Outlasts

namespace Stays

theorem refl (t : Tree) : Stays t t := ⟨.refl t, fun _ _ => rfl⟩

theorem trans (htu : Stays t u) (huv : Stays u v) : Stays t v := by
  refine ⟨htu.toOutlasts.trans huv.toOutlasts, fun hh hlive => ?_⟩
  have hmiddle := huv.isLive (htu.issued hh) hlive
  exact (huv.parent? (htu.issued hh) hlive).trans (htu.parent? hh hmiddle)

theorem setFrames (t : Tree) (frames : List Frame) (running : Bool) :
    Stays t { t with frames := frames, running := running } :=
  ⟨⟨id, fun _ hlive => hlive⟩, fun _ _ => rfl⟩

theorem modify (t : Tree) (h : Handle) {f : Node → Node} (hf : ∀ n, (f n).parent = n.parent) :
    Stays t (t.modify h f) :=
  ⟨.of_occupancy fun i => occupancy_modify t h f i, fun {x} _ _ => parent?_modify t h x f hf⟩

/-- A new node comes in without touching the others. -/
theorem insert (ht : WellLinked t) (kind : Kind) (p : Handle) (index : Nat) :
    Stays t ((t.allocate kind).2.link p index t.fresh) := by
  have hlink : Outlasts (t.allocate kind).2 ((t.allocate kind).2.link p index t.fresh) :=
    .of_occupancy fun i => by rw [link, occupancy_modify, occupancy_modify]
  refine ⟨(Outlasts.allocate ht kind).trans hlink, fun {x} hx _ => ?_⟩
  have hne : x ≠ t.fresh := fun hfresh => not_issued_fresh (hfresh ▸ hx)
  rw [parent?_link ((isLive_allocate_iff ht).mpr (.inl rfl)), if_neg hne, parent?_allocate ht]

theorem generation?_foldl_release (l : List Handle) (t : Tree) (i : Nat) :
    (l.foldl release t).generation? i = t.generation? i := by
  induction l generalizing t with
  | nil => rfl
  | cons h l ih =>
    rw [List.foldl_cons, ih, generation?_eq, occupancy_release, generation?_eq]
    split
    · next hh =>
      rw [hh.2, isLive_iff.mp hh.1]
      rfl
    · rfl

theorem truncate (ht : WellLinked t) (h : Handle) (start : Nat) : Stays t (t.truncate h start) := by
  classical
  refine ⟨⟨fun {x} hx => ?_, fun {x} _ hlive => isLive_of_truncate ht hlive⟩, fun {x} _ hlive => ?_⟩
  · rwa [Issued, Tree.truncate, generation?_foldl_release, generation?_eq, occupancy_modify,
      ← generation?_eq]
  · rw [parent?_truncate ht, if_neg (not_dropped_of_isLive_truncate ht hlive)]

theorem claim (ht : WellLinked t) {frame : Frame} {name key : String}
    (hcall : t.claim frame name key = (.ok h, u)) : Stays t u := by
  obtain ⟨_, ⟨_, rfl⟩ | ⟨_, _, _, rfl, rfl⟩⟩ := claim_cases hcall
  · exact modify t frame.node fun _ => rfl
  · exact insert ht _ _ _

theorem performed (ht : WellLinked t) {i : Patch.Instruction Patch.Key}
    (hcall : Called t (.perform i) u) : Stays t u := by
  cases hcall with
  | refused => exact refl t
  | claim _ hclaim => exact claim ht hclaim
  | @openElement _ _ _ _ _ element v _ hclaim =>
    refine ((claim ht hclaim).trans (modify v element fun n => ?_)).trans (setFrames _ _ _)
    cases n.kind <;> rfl
  | closeElement => exact (truncate ht _ _).trans (setFrames _ _ _)
  | @rewrite _ _ content found =>
    exact (modify t found (f := fun n => { n with kind := .text content }) fun _ => rfl).trans
      (setFrames _ _ _)
  | insertText => exact (insert ht _ _ _).trans (setFrames _ _ _)
  | skip => exact setFrames t _ _

theorem perform (ht : WellLinked t) (i : Patch.Instruction Patch.Key) :
    Stays t (t.perform i).state :=
  performed ht (called t (.perform i))

theorem finished (ht : WellLinked t) {raised : Option Error} (hcall : Called t (.finish raised) u) :
    Stays t u := by
  cases hcall with
  | refused => exact refl t
  | abandon => exact setFrames t _ _
  | complete => exact (truncate ht _ _).trans (setFrames _ _ _)

theorem finish (ht : WellLinked t) (raised : Option Error) : Stays t (t.finish raised).state :=
  finished ht (called t (.finish raised))

/-- So it is over a whole program, wherever it ends. -/
theorem replay (ht : Reachable t) (program : List (Patch.Instruction Patch.Key)) :
    Stays t (Patch.replay program t : Outcome Error Tree).state := by
  induction program generalizing t with
  | nil => exact refl t
  | cons i rest ih =>
    have hstep := perform ht.wellLinked i
    have hreach : Reachable (t.perform i).state := ht.call (.perform i)
    simp only [Patch.replay]
    split
    · next s hs =>
      have hstate : (t.perform i).state = s := congrArg Outcome.state hs
      rw [hstate] at hstep hreach
      exact hstep.trans (ih hreach)
    · exact hstep

end Stays

end LiveMarkup.Live.Tree
