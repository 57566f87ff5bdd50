import LiveMarkup.Proofs.Live.Confined

/-!
# What lies behind the cursors

A transaction never goes back. Trees that a cursor has passed stay as they are until the
transaction ends, whether their container is still open or has been closed; and a container
that was open at one time keeps what its cursor had passed in front of all its other
children (`Zipper.Advances`). Instructions that fail are no exception.

A skip passes all that its container holds. So everything that hangs below the container at
that moment lies behind its cursor, visited or not, and nothing that follows in the
transaction, nor its end, changes any of it (`Tree.Shelters`).
-/

namespace LiveMarkup.Live

open Patch (Outcome)
open Rose (place places recordsAll)

namespace Zipper

variable {z z' z'' : List Level} {l m : Level} {outer : List Level} {e : Handle × Node}

/-- The records of all trees that the cursors have passed. -/
def behind (z : List Level) : List (Handle × Node) :=
  z.flatMap fun l => recordsAll Node.mk (some l.node) l.passed

@[simp] theorem behind_nil : behind [] = [] := rfl

@[simp] theorem behind_cons (l : Level) (outer : List Level) :
    behind (l :: outer) = recordsAll Node.mk (some l.node) l.passed ++ behind outer := rfl

theorem mem_records_of_behind {above : Option Handle} {hole : List Handle}
    (he : e ∈ behind z) : e ∈ records above hole z := by
  induction z generalizing hole with
  | nil => cases he
  | cons l outer ih =>
    rw [behind_cons, List.mem_append] at he
    refine List.mem_cons_of_mem _ ?_
    rcases he with he | he
    · exact List.mem_append_left _ he
    · exact List.mem_append_right _ (List.mem_append_right _ (ih he))

/-- The children of a container begin with those that its cursor has passed. -/
theorem exists_record_of_mem (above : Option Handle) (hole : List Handle) (hl : l ∈ z) :
    ∃ parent more, (l.node, ⟨l.kind, parent, l.passed.map place ++ more⟩) ∈
      records above hole z := by
  induction z generalizing hole with
  | nil => cases hl
  | cons m outer ih =>
    rcases List.mem_cons.mp hl with rfl | hl
    · exact ⟨_, _, List.mem_cons_self⟩
    · obtain ⟨parent, more, hmem⟩ := ih [m.node] hl
      refine ⟨parent, more, List.mem_cons_of_mem _ ?_⟩
      exact List.mem_append_right _ (List.mem_append_right _ hmem)

/-- The later levels keep all that lies behind the cursors of the earlier ones. An earlier
container is still open, or it lies behind a cursor itself; either way it begins with what its
own cursor had passed. -/
structure Advances (z z' : List Level) : Prop where
  behind : ∀ e ∈ behind z, e ∈ behind z'
  opened : ∀ l ∈ z, (∃ m ∈ z', m.node = l.node ∧ l.passed <+: m.passed) ∨
    ∃ kind parent more,
      (l.node, ⟨kind, parent, l.passed.map place ++ more⟩) ∈ Zipper.behind z'

namespace Advances

theorem refl (z : List Level) : Advances z z :=
  ⟨fun _ he => he, fun l hl => .inl ⟨l, hl, rfl, List.prefix_refl _⟩⟩

theorem trans (h : Advances z z') (h' : Advances z' z'') : Advances z z'' := by
  refine ⟨fun e he => h'.behind e (h.behind e he), fun l hl => ?_⟩
  obtain ⟨m, hm, hnode, before, hpassed⟩ | ⟨kind, parent, more, hmem⟩ := h.opened l hl
  · obtain ⟨k, hk, hnode', hpassed'⟩ | ⟨kind, parent, more, hmem⟩ := h'.opened m hm
    · refine .inl ⟨k, hk, hnode'.trans hnode, List.IsPrefix.trans ?_ hpassed'⟩
      exact ⟨before, hpassed⟩
    · refine .inr ⟨kind, parent, before.map place ++ more, ?_⟩
      rwa [← hnode, ← List.append_assoc, ← List.map_append, hpassed]
  · exact .inr ⟨kind, parent, more, h'.behind _ hmem⟩

/-- The cursor of the innermost container goes on. What is ahead of it may be anything. -/
theorem pass (l : Level) (outer : List Level) (more ahead : Branches) :
    Advances (l :: outer) ({ l with passed := l.passed ++ more, ahead := ahead } :: outer) := by
  refine ⟨fun e he => ?_, fun k hk => ?_⟩
  · simp only [behind_cons, Rose.recordsAll_append, List.mem_append] at he ⊢
    exact he.imp_left .inl
  · rcases List.mem_cons.mp hk with rfl | hk
    · exact .inl ⟨_, List.mem_cons_self, rfl, List.prefix_append _ _⟩
    · exact .inl ⟨k, List.mem_cons_of_mem _ hk, rfl, List.prefix_refl _⟩

/-- What is ahead of the innermost cursor may be anything. -/
theorem refill (l : Level) (outer : List Level) (ahead : Branches) :
    Advances (l :: outer) ({ l with ahead := ahead } :: outer) := by
  simpa using pass l outer [] ahead

/-- One more container is open. -/
theorem enter (l : Level) (z : List Level) : Advances z (l :: z) :=
  ⟨fun _ he => List.mem_append_right _ he,
    fun m hm => .inl ⟨m, List.mem_cons_of_mem _ hm, rfl, List.prefix_refl _⟩⟩

/-- An element that is closed is passed by the container around it. -/
theorem leave (l m : Level) (outer : List Level) :
    Advances (l :: m :: outer) ({ m with passed := m.passed ++ [l.closed] } :: outer) := by
  refine ⟨fun e he => ?_, fun k hk => ?_⟩
  · simp only [behind_cons, Level.closed, Rose.recordsAll_append, Rose.recordsAll_node,
      Rose.recordsAll_nil, List.append_nil, List.mem_append, List.mem_cons] at he ⊢
    rcases he with he | he | he
    · exact .inl (.inr (.inr he))
    · exact .inl (.inl he)
    · exact .inr he
  · rcases List.mem_cons.mp hk with rfl | hk
    · refine .inr ⟨k.kind, some m.node, [], ?_⟩
      simp [Level.closed]
    · exact (pass m outer [l.closed] m.ahead).opened k hk

theorem openElement (fresh : Handle) (name key : String) (attributes : List (String × String))
    (z : List Level) : Advances z (Zipper.openElement fresh name key attributes z).state := by
  cases z with
  | nil => exact refl []
  | cons l outer =>
    simp only [Zipper.openElement]
    split
    · exact refl _
    · split
      · exact refill l outer _
      · exact (refill l outer _).trans (enter _ _)

theorem closeElement (name : String) (z : List Level) :
    Advances z (Zipper.closeElement name z).state := by
  match z with
  | [] => exact refl []
  | [l] => exact refl [l]
  | l :: m :: outer =>
    simp only [Zipper.closeElement]
    split
    · split
      · exact leave l m outer
      · exact refl _
    · exact leave l m outer

theorem putText (fresh : Handle) (content : String) (z : List Level) :
    Advances z (Zipper.putText fresh content z).state := by
  cases z with
  | nil => exact refl []
  | cons l outer =>
    simp only [Zipper.putText]
    split
    · exact refl _
    · split
      · exact pass l outer _ _
      · exact pass l outer _ _

theorem skip (z : List Level) : Advances z (Zipper.skip z).state := by
  cases z with
  | nil => exact refl []
  | cons l outer => exact pass l outer _ _

/-- No instruction changes what lies behind the cursors, whether or not it fails. -/
theorem perform (fresh : Handle) (i : Patch.Instruction Patch.Key) (z : List Level) :
    Advances z (Zipper.perform fresh i z).state := by
  cases i with
  | openTag name key attributes => exact openElement fresh name key.value attributes z
  | closeTag name => exact closeElement name z
  | text content => exact putText fresh content z
  | skip => exact skip z

/-- Nor does the end of the transaction. -/
theorem finish (raised : Option Error) (z : List Level) :
    Advances z (Zipper.finish raised z).state := by
  cases raised with
  | some e => exact refl z
  | none =>
    match z with
    | [] => exact refl []
    | [l] => exact refill l [] []
    | l :: m :: outer => exact refl _

end Advances

theorem Runs.advances {program : List (Patch.Instruction Patch.Key)}
    {o : Outcome Error (List Level)} (h : Runs program z o) : Advances z o.state := by
  induction h with
  | nil => exact .refl _
  | @step i _ z _ _ fresh hperform _ ih =>
    have hstep := Advances.perform fresh i z
    rw [hperform] at hstep
    exact hstep.trans ih
  | @fail i _ z _ _ fresh hperform =>
    have hstep := Advances.perform fresh i z
    rwa [hperform] at hstep

end Zipper

namespace Tree

variable {t u : Tree} {a h x : Handle} {above : Option Handle} {z z' : List Level}

/-- All that hangs below a node is as it was, and as it was linked. -/
def SameBelow (t u : Tree) (h : Handle) : Prop :=
  ∀ {x}, Under t.parent? x h → u.node? x = t.node? x

/-- Trees that both arenas hold below the same node. -/
theorem sameBelow_of_held (ht : WellLinked t) {branches : Branches}
    (hchildren : t.children h = branches.map place)
    (hheld : Held t.node? (recordsAll Node.mk (some h) branches))
    (hkept : Held u.node? (recordsAll Node.mk (some h) branches)) : SameBelow t u h := by
  intro x hx
  obtain ⟨b, hwithin, hparent⟩ := Relation.TransGen.tail'_iff.mp hx
  have hb : b ∈ branches.map place := hchildren ▸ ht.mem_children_iff.mpr hparent
  have hplace := mem_places_of_within ht hheld hb hwithin
  have hrecorded : (recordsAll Node.mk (some h) branches).map Prod.fst = places branches :=
    Rose.map_fst_recordsAll (some h) branches
  rw [← hrecorded] at hplace
  obtain ⟨e, he, rfl⟩ := List.mem_map.mp hplace
  exact (hkept e he).trans (hheld e he).symm

/-- The container keeps all its children in front, in their order, with all that is below. -/
structure Shelters (t u : Tree) (h : Handle) : Prop where
  isLive : u.isLive h = true
  children : t.children h <+: u.children h
  sameBelow : SameBelow t u h

/-- A container that has nothing ahead of its cursor keeps what it holds. -/
theorem Tracks.shelters {l : Level} {outer : List Level} (hz : Tracks t above (l :: outer))
    (ht : WellLinked t) (hahead : l.ahead = []) (hadvances : Zipper.Advances (l :: outer) z')
    (hstored : Stored u.node? (Zipper.records above [] z')) : Shelters t u l.node := by
  have hchildren : t.children l.node = l.passed.map place := by
    rw [hz.children, hahead, List.map_nil, List.append_nil]
  have hbehind : Held u.node? (Zipper.behind (l :: outer)) := fun e he =>
    hstored.held e (Zipper.mem_records_of_behind (hadvances.behind e he))
  have hbegins : ∃ kind parent more,
      u.node? l.node = some ⟨kind, parent, l.passed.map place ++ more⟩ := by
    obtain ⟨m, hm, hnode, before, hpassed⟩ | ⟨kind, parent, more, hmem⟩ :=
      hadvances.opened l List.mem_cons_self
    · obtain ⟨parent, more, hmem⟩ := Zipper.exists_record_of_mem above [] hm
      refine ⟨m.kind, parent, before.map place ++ more, ?_⟩
      rw [← hnode, ← List.append_assoc, ← List.map_append, hpassed]
      exact hstored.look_eq hmem
    · exact ⟨kind, parent, more, hstored.look_eq (Zipper.mem_records_of_behind hmem)⟩
  obtain ⟨kind, parent, more, hnode⟩ := hbegins
  refine ⟨isLive_of_node? hnode, ?_, ?_⟩
  · rw [children_of_node? hnode, hchildren]
    exact List.prefix_append _ _
  · exact sameBelow_of_held ht hchildren hz.held_passed hbehind.left

/-- Without a running transaction instructions do nothing. -/
theorem run_perform_of_idle (hidle : t.running = false)
    (program : List (Patch.Instruction Patch.Key)) : t.run (program.map .perform) = t := by
  have hopen : t.openFrames = [] := by simp [openFrames, hidle]
  induction program with
  | nil => rfl
  | cons i rest ih =>
    have hstep : (t.call (.perform i)).state = t := by
      cases i with
      | openTag => simp only [Tree.call, Tree.perform, Tree.openElement, hopen]
      | closeTag => simp only [Tree.call, Tree.perform, Tree.closeElement, hopen]
      | text => simp only [Tree.call, Tree.perform, Tree.putText, hopen]
      | skip => simp only [Tree.call, Tree.perform, Tree.skip, hopen]
    rw [List.map_cons, Tree.run, List.foldl_cons, hstep]
    exact ih

theorem run_begin {refusal : Option Error} (hbegin : t.begin a = ⟨refusal, u⟩)
    (calls : List Call) : t.run (.begin a :: calls) = u.run calls := by
  rw [Tree.run, List.foldl_cons, Tree.call, hbegin, Tree.run]

/-- While a container is open, the arena follows the trees. -/
theorem exists_tracks_of_frames (h : Reachable t) (hidle : t.running = false) (a : Handle)
    (program : List (Patch.Instruction Patch.Key))
    (hframes : (t.run (.begin a :: program.map .perform)).frames ≠ []) :
    ∃ above z, Tracks (t.run (.begin a :: program.map .perform)) above z := by
  obtain ⟨s, hbegin⟩ | ⟨e, hbegin⟩ := begin_cases t a
  · rw [run_begin hbegin]
    obtain ⟨z, hz, -⟩ := (tracks_begin h hbegin).run (h.begin hbegin) program
    exact ⟨_, z, hz⟩
  · rw [run_begin hbegin, run_perform_of_idle hidle, h.frames_eq_nil_iff.mpr hidle] at hframes
    exact absurd rfl hframes

/-- A skip goes through wherever a container is open, and from then on to the end of the
transaction the container keeps all that it holds. -/
theorem shelters_skip (h : Reachable t) (hidle : t.running = false) (a : Handle)
    (before after : List (Patch.Instruction Patch.Key)) {f : Frame} {outer : List Frame}
    (hframes : (t.run (.begin a :: before.map .perform)).frames = f :: outer) :
    let u := t.run (.begin a :: before.map .perform)
    let v := u.run (.perform .skip :: after.map .perform)
    (u.perform .skip).failure = none ∧ Shelters u v f.node ∧
      ∀ raised, Shelters u (v.finish raised).state f.node := by
  intro u v
  have hu : Reachable u := h.run _
  obtain ⟨above, z, hz⟩ := exists_tracks_of_frames h hidle a before (by simp [hframes])
  change Tracks u above z at hz
  cases z with
  | nil => cases hframes.symm.trans hz.frames
  | cons l outer =>
    obtain ⟨hf, -⟩ := List.cons.inj (hframes.symm.trans hz.frames)
    have hnode : f.node = l.node := congrArg Frame.node hf
    obtain ⟨hfailure, hs⟩ := hz.skip
    -- The skip leaves the nodes alone, so what the container holds now is what it held.
    have hkeep : ∀ {w}, Shelters u.skip.state w l.node → Shelters u w l.node := by
      intro w hw
      rw [Tree.skip, hu.openFrames_eq, hframes] at hw
      exact ⟨hw.isLive, hw.children, hw.sameBelow⟩
    have hreach : Reachable u.skip.state := hu.call (.perform .skip)
    obtain ⟨z', hz', hadvances⟩ :=
      hs.run_of_perform Zipper.Advances .refl .trans .perform hreach after
    change Tracks v above z' at hz'
    rw [hnode]
    refine ⟨hfailure, hkeep ?_, fun raised => hkeep ?_⟩
    · exact hs.shelters hreach.wellLinked rfl hadvances hz'.stored
    · refine hs.shelters hreach.wellLinked rfl (hadvances.trans (.finish raised z')) ?_
      exact (hz'.finish (hreach.run (after.map .perform)).wellLinked raised).2

end Tree

end LiveMarkup.Live
