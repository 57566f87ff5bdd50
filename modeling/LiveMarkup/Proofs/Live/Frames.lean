import LiveMarkup.Proofs.Live.Confined
import Mathlib.Data.List.Chain

/-!
# The frames of a transaction

A transaction keeps its open containers as a stack of frames. From the target inwards each of
them is the child that the cursor of the one around it has passed last, and no cursor stands
beyond the children of its container (`Framed`). This is what the levels of a transaction on
trees say about the stack, and all that they say (`framed_iff_tracks`), so every instruction
keeps it, also one that fails.

Building calls come in between as well. They keep the stack sound unless one of them takes a
child out of an open container.
-/

namespace LiveMarkup.Live.Tree

open Patch (Outcome)
open Rose (place recordsAll)

variable {t u : Tree} {a h : Handle} {f g : Frame} {fs : List Frame} {above : Option Handle}
  {z : List Level}

/-- A transaction on `a` is running, and the frames are its frames, the innermost in front. -/
structure Framed (t : Tree) (a : Handle) : Prop where
  running : t.running = true
  /-- The last frame is there, and it is that of `a`. -/
  bottom : t.frames.getLast?.map Frame.node = some a
  /-- Every open container is there. -/
  isLive : ∀ f ∈ t.frames, t.isLive f.node = true
  /-- No cursor stands beyond the children. -/
  cursor_le : ∀ f ∈ t.frames, f.cursor ≤ (t.children f.node).length
  /-- Each container is the child right before the cursor of the next one. -/
  nested : t.frames.IsChain fun inner outer =>
    0 < outer.cursor ∧ (t.children outer.node)[outer.cursor - 1]? = some inner.node

theorem framed_singleton_iff : Framed { t with frames := [f] } a ↔
    t.running = true ∧ f.node = a ∧ t.isLive f.node = true ∧
      f.cursor ≤ (t.children f.node).length := by
  constructor
  · intro hf
    exact ⟨hf.running, by simpa using hf.bottom, hf.isLive f (by simp), hf.cursor_le f (by simp)⟩
  · rintro ⟨hrunning, rfl, hlive, hle⟩
    exact ⟨hrunning, rfl, List.forall_mem_singleton.mpr hlive, List.forall_mem_singleton.mpr hle,
      by simp⟩

/-- One more element is open. -/
theorem framed_cons_cons_iff : Framed { t with frames := f :: g :: fs } a ↔
    (t.isLive f.node = true ∧ f.cursor ≤ (t.children f.node).length ∧ 0 < g.cursor ∧
      (t.children g.node)[g.cursor - 1]? = some f.node) ∧
      Framed { t with frames := g :: fs } a := by
  constructor
  · intro hf
    obtain ⟨hrunning, hbottom, hlive, hle, hnested⟩ := hf
    obtain ⟨⟨hpos, hchild⟩, hrest⟩ := List.isChain_cons_cons.mp hnested
    refine ⟨⟨hlive f (by simp), hle f (by simp), hpos, hchild⟩, hrunning, ?_, ?_, ?_, hrest⟩
    · simpa [List.getLast?_cons_cons] using hbottom
    · exact fun x hx => hlive x (List.mem_cons_of_mem _ hx)
    · exact fun x hx => hle x (List.mem_cons_of_mem _ hx)
  · rintro ⟨⟨hlive, hle, hlink⟩, hf⟩
    refine ⟨hf.running, ?_, ?_, ?_, List.isChain_cons_cons.mpr ⟨hlink, hf.nested⟩⟩
    · simpa [List.getLast?_cons_cons] using hf.bottom
    · exact List.forall_mem_cons.mpr ⟨hlive, hf.isLive⟩
    · exact List.forall_mem_cons.mpr ⟨hle, hf.cursor_le⟩

/-- Levels that the arena holds give sound frames. -/
theorem framed_of_held (hrunning : t.running = true) {hole : List Handle} {l : Level}
    {outer : List Level} (hheld : Held t.node? (Zipper.records above hole (l :: outer)))
    {kind : Kind} (hbase : Zipper.base (l :: outer) = some (a, kind)) :
    Framed { t with frames := Zipper.frames hole (l :: outer) } a := by
  induction outer generalizing l hole with
  | nil =>
    have hnode := hheld _ List.mem_cons_self
    simp only [Zipper.base_singleton, Option.some_inj, Prod.mk.injEq] at hbase
    refine framed_singleton_iff.mpr ⟨hrunning, hbase.1, isLive_of_node? hnode, ?_⟩
    simp [children_of_node? hnode]
  | cons m outer ih =>
    have hnode := hheld _ List.mem_cons_self
    have hrest : Held t.node? (Zipper.records above [l.node] (m :: outer)) :=
      hheld.subset fun e he =>
        List.mem_cons_of_mem _ (List.mem_append_right _ (List.mem_append_right _ he))
    have hm := hrest _ List.mem_cons_self
    refine framed_cons_cons_iff.mpr ⟨⟨isLive_of_node? hnode, ?_, ?_, ?_⟩, ih hrest ?_⟩
    · simp [children_of_node? hnode]
    · simp
    · simp [children_of_node? hm]
    · rwa [Zipper.base_cons_cons] at hbase

theorem Tracks.framed (hz : Tracks t above z) {kind : Kind}
    (hbase : Zipper.base z = some (a, kind)) : Framed t a := by
  cases z with
  | nil => cases hbase
  | cons l outer =>
    have hf := framed_of_held hz.running hz.stored.held hbase
    rwa [← hz.frames] at hf

/-- An element that was passed last may be gone into again, at any place among its children. -/
theorem Tracks.resume {l : Level} {outer : List Level} (hz : Tracks t above (l :: outer))
    {before branches : Branches} {kind : Kind}
    (hpassed : l.passed = before ++ [.node (h, kind) branches]) {cursor : Nat}
    (hcursor : cursor ≤ branches.length) :
    Tracks { t with frames := ⟨h, cursor⟩ :: t.frames } above
      (⟨h, kind, branches.take cursor, branches.drop cursor⟩ ::
        { l with passed := before } :: outer) := by
  refine ⟨hz.running, ?_, hz.stored.perm (List.perm_iff_count.mpr fun x => ?_)⟩
  · simp [hz.frames, Zipper.frames, hpassed, hcursor]
  · have hsplit : recordsAll Node.mk (some h) branches =
        recordsAll Node.mk (some h) (branches.take cursor) ++
          recordsAll Node.mk (some h) (branches.drop cursor) := by
      rw [← Rose.recordsAll_append, List.take_append_drop]
    have hplaces : (branches.take cursor).map place ++ (branches.drop cursor).map place =
        branches.map place := by
      rw [← List.map_append, List.take_append_drop]
    simp only [Zipper.records, Zipper.up, hpassed, Rose.recordsAll_append, Rose.recordsAll_node,
      Rose.recordsAll_nil, hsplit, hplaces, List.count_append, List.count_cons, List.map_append,
      List.map_cons, List.map_nil, Rose.place_node, List.nil_append, List.cons_append,
      List.append_nil, List.append_assoc]
    omega

/-- The other way round, sound frames are those of levels that the arena holds. -/
theorem exists_tracks_of_framed (ht : WellLinked t) (hf : Framed { t with frames := fs } a) :
    ∃ z, Tracks { t with frames := fs } (t.parent? a) z ∧
      Zipper.base z = some (a, t.kindOf a) := by
  induction fs with
  | nil => cases hf.bottom
  | cons f fs ih =>
    cases fs with
    | nil =>
      obtain ⟨hrunning, rfl, hlive, hle⟩ := framed_singleton_iff.mp hf
      have hstored := stored_region ht hlive
      have hsize : f.cursor ≤ (t.region f.node).length := by
        have hchildren := children_of_node? (hstored.held _ List.mem_cons_self)
        simpa [hchildren] using hle
      refine ⟨[⟨f.node, t.kindOf f.node, (t.region f.node).take f.cursor,
        (t.region f.node).drop f.cursor⟩], ⟨hrunning, ?_, ?_⟩, rfl⟩
      · simp [Zipper.frames, hsize]
      · have hrecords : Zipper.records (t.parent? f.node) [] [⟨f.node, t.kindOf f.node,
            (t.region f.node).take f.cursor, (t.region f.node).drop f.cursor⟩] =
            Rose.records Node.mk (t.parent? f.node)
              (.node (f.node, t.kindOf f.node) (t.region f.node)) := by
          simp only [Zipper.records, Zipper.up, Rose.records, List.nil_append, List.append_nil,
            ← List.map_append, ← Rose.recordsAll_append, List.take_append_drop]
        exact hrecords ▸ hstored
    | cons g fs =>
      obtain ⟨⟨hlive, hle, hpos, hchild⟩, hrest⟩ := framed_cons_cons_iff.mp hf
      obtain ⟨z, hz, hbase⟩ := ih hrest
      cases z with
      | nil => cases hbase
      | cons l outer =>
        -- The innermost element is the last one that its container has passed.
        have hg : g = ⟨l.node, l.passed.length⟩ := (List.cons.inj hz.frames).1
        subst hg
        change 0 < l.passed.length at hpos
        have hchildren : t.children l.node = l.passed.map place ++ l.ahead.map place := hz.children
        have hlt : l.passed.length - 1 < (l.passed.map place).length := by
          rw [List.length_map]
          omega
        rw [hchildren, List.getElem?_append_left hlt, List.getElem?_map,
          ← List.getLast?_eq_getElem?] at hchild
        obtain ⟨⟨⟨h, kind⟩, branches⟩, hlast, rfl⟩ := Option.map_eq_some_iff.mp hchild
        obtain ⟨before, hpassed⟩ := List.getLast?_eq_some_iff.mp hlast
        have hinner : t.node? f.node = some ⟨kind, some l.node, branches.map place⟩ :=
          hz.held_passed _ (Rose.mem_recordsAll_of_mem (by simp [hpassed]))
        have hsize : f.cursor ≤ branches.length := by
          simpa [children_of_node? hinner] using hle
        refine ⟨_, hz.resume hpassed hsize, ?_⟩
        rw [Zipper.base_cons_cons, ← hbase]
        exact Zipper.base_cons_congr outer rfl rfl

theorem framed_iff_tracks (ht : WellLinked t) : Framed t a ↔
    ∃ z, Tracks t (t.parent? a) z ∧ Zipper.base z = some (a, t.kindOf a) :=
  ⟨exists_tracks_of_framed ht, fun ⟨_, hz, hbase⟩ => hz.framed hbase⟩

theorem Framed.perform (hf : Framed t a) (h : Reachable t) (i : Patch.Instruction Patch.Key) :
    Framed (t.perform i).state a := by
  obtain ⟨z, hz, hbase⟩ := (framed_iff_tracks h.wellLinked).mp hf
  have hbase' : Zipper.base (Zipper.perform t.fresh i z).state = some (a, t.kindOf a) := by
    rw [Zipper.base_perform, hbase]
  exact (hz.perform h.wellLinked h.serializable i).2.framed hbase'

theorem check_ne_gap {p : Handle} {index : Nat} {child : Option String} :
    t.check p index child ≠ .error (.gap h) := by
  intro hcheck
  obtain hgap | hgap | hgap := check_error_cases hcheck <;> cases hgap

/-- The cursor of a frame stands beyond the children that its container has left. -/
def Overrun (t : Tree) (f : Frame) : Prop :=
  t.isLive f.node = true ∧ (t.children f.node).length < f.cursor

theorem overrun_of_claim {name key : String} (hclaim : t.claim f name key = (.error (.gap h), u)) :
    h = f.node ∧ Overrun t f := by
  obtain ⟨-, hcheck | ⟨-, hgap⟩ | ⟨hcheck, hgap, hcursor⟩⟩ := claim_error_cases hclaim
  · exact absurd hcheck check_ne_gap
  · cases hgap
  · cases hgap
    exact ⟨rfl, isLive_of_check hcheck, hcursor⟩

/-- An instruction leaves a gap only in the innermost container, and only where the cursor
stands beyond the children. -/
theorem overrun_of_gap {i : Patch.Instruction Patch.Key}
    (hgap : (t.perform i).failure = some (.gap h)) :
    ∃ f outer, t.frames = f :: outer ∧ h = f.node ∧ Overrun t f := by
  cases i with
  | openTag name key attributes =>
    simp only [Tree.perform, openElement] at hgap
    split at hgap
    · cases hgap
    · next f outer hopen =>
      split at hgap
      · next e u hclaim =>
        cases hgap
        exact ⟨f, outer, (openFrames_eq_cons_iff.mp hopen).2, overrun_of_claim hclaim⟩
      · split at hgap <;> cases hgap
  | closeTag name =>
    simp only [Tree.perform, closeElement] at hgap
    split at hgap
    · cases hgap
    · cases hgap
    · split at hgap
      · split at hgap <;> cases hgap
      · cases hgap
  | text content =>
    simp only [Tree.perform, putText] at hgap
    split at hgap
    · cases hgap
    · next f outer hopen =>
      split at hgap
      · next e hcheck =>
        cases hgap
        exact absurd hcheck check_ne_gap
      · next hcheck =>
        split at hgap
        · cases hgap
        · split at hgap
          · next hlt =>
            cases hgap
            exact ⟨f, outer, (openFrames_eq_cons_iff.mp hopen).2, rfl, isLive_of_check hcheck, hlt⟩
          · cases hgap
  | skip =>
    simp only [Tree.perform, skip] at hgap
    split at hgap <;> cases hgap

theorem Framed.not_overrun (hf : Framed t a) (hmem : f ∈ t.frames) : ¬ Overrun t f :=
  fun hover => Nat.not_lt.mpr (hf.cursor_le f hmem) hover.2

/-- While the frames are sound, no instruction leaves a gap. -/
theorem Framed.failure_perform_ne_gap (hf : Framed t a) (i : Patch.Instruction Patch.Key)
    (h : Handle) : (t.perform i).failure ≠ some (.gap h) := by
  intro hgap
  obtain ⟨f, outer, hframes, rfl, hover⟩ := overrun_of_gap hgap
  exact hf.not_overrun (by simp [hframes]) hover

/-- Every slot that an instruction looks into is one of the arena. -/
structure InBounds (t : Tree) : Prop where
  frames : ∀ f ∈ t.frames, f.node.slot < t.capacity
  children : ∀ x, ∀ c ∈ t.children x, c.slot < t.capacity
  free : ∀ i ∈ t.free, i < t.capacity

theorem Framed.inBounds (hf : Framed t a) (ht : WellLinked t) : InBounds t where
  frames f hmem := slot_lt_of_isLive (hf.isLive f hmem)
  children _ _ hc := slot_lt_of_isLive (isLive_of_parent? (ht.mem_children_iff.mp hc))
  free i hi := by
    obtain ⟨slot, hslot, _⟩ := vacant_iff.mp (ht.mem_free_iff.mp hi)
    exact (Array.getElem?_eq_some_iff.mp hslot).1

/-- Open containers may get more children behind those that they have. -/
theorem Framed.of_prefix (hf : Framed t a) (hrunning : u.running = t.running)
    (hframes : u.frames = t.frames) (hlive : ∀ x, t.isLive x = true → u.isLive x = true)
    (hchildren : ∀ f ∈ t.frames, t.children f.node <+: u.children f.node) : Framed u a := by
  obtain ⟨hrunning', hbottom, hall, hle, hnested⟩ := hf
  refine ⟨hrunning.trans hrunning', ?_, ?_, ?_, ?_⟩ <;> rw [hframes]
  · exact hbottom
  · exact fun f hmem => hlive _ (hall f hmem)
  · exact fun f hmem => Nat.le_trans (hle f hmem) (hchildren f hmem).length_le
  · refine hnested.imp_of_mem_imp fun inner outer _ hmem => ?_
    rintro ⟨hpos, hchild⟩
    obtain ⟨more, hmore⟩ := hchildren outer hmem
    have hcursor := hle outer hmem
    exact ⟨hpos, by rwa [← hmore, List.getElem?_append_left (by omega)]⟩

/-- Apart from one child that goes elsewhere, a node keeps its children in front. -/
theorem prefix_children_appendChild (ht : WellLinked t) {p c x : Handle} (hp : t.isLive p = true)
    (hne : c ≠ p) (hx : t.parent? c ≠ some x) :
    t.children x <+: ((t.detach c).link p ((t.detach c).children p).length c).children x := by
  have hkept : (t.detach c).children x = t.children x := by
    rw [children_detach ht]
    refine List.filter_eq_self.mpr fun y hy => ?_
    have hyc : y ≠ c := by
      rintro rfl
      exact hx (ht.mem_children_iff.mp hy)
    simpa using hyc
  rw [children_link hne.symm (by simpa using hp)]
  split
  · next hxp =>
    subst hxp
    simp [hkept]
  · simp [hkept]

/-- The call is a part of a body that takes no child out of an open container. The end of the
transaction is no part of its body. -/
def Spares (t : Tree) : Call → Prop
  | .appendChild _ child => ∀ f ∈ t.frames, t.parent? child ≠ some f.node
  | .finish _ => False
  | _ => True

/-- No call of the body takes a child out of a container that is open at that time. -/
def Spared (t : Tree) : List Call → Prop
  | [] => True
  | c :: rest => t.Spares c ∧ (t.call c).state.Spared rest

theorem Framed.called (hf : Framed t a) (h : Reachable t) {c : Call} (hcall : Called t c u)
    (hc : t.Spares c) (hi : ∀ i, c ≠ .perform i) : Framed u a := by
  have ht := h.wellLinked
  have hallocate : ∀ kind, Framed (t.allocate kind).2 a := by
    intro kind
    refine hf.of_prefix (allocate_running t kind) (allocate_frames t kind) ?_ ?_
    · exact fun x hx => (isLive_allocate_iff ht).mpr (.inr hx)
    · exact fun f _ => children_allocate ht kind f.node ▸ List.prefix_refl _
  have hmodify : ∀ (x : Handle) (kind : Kind),
      Framed (t.modify x fun n => { n with kind := kind }) a := by
    intro x kind
    refine hf.of_prefix rfl rfl (fun y hy => by rwa [isLive_modify]) fun f _ => ?_
    exact children_modify_kind t x f.node (fun n => { n with kind := kind }) (fun _ => rfl) ▸
      List.prefix_refl _
  cases hcall with
  | refused => exact hf
  | createElement => exact hallocate _
  | createText => exact hallocate _
  | appendChild hp _ _ _ hne =>
    refine hf.of_prefix (by simp [link]) (by simp [link]) (fun x hx => by simpa [link] using hx)
      fun f hmem => ?_
    exact prefix_children_appendChild ht (isLive_of_node? hp) hne (hc f hmem)
  | setAttribute => exact hmodify _ _
  | setKey => exact hmodify _ _
  | begin hidle =>
    have hrunning := hf.running
    simp [hidle] at hrunning
  | abandon => exact hc.elim
  | complete => exact hc.elim
  | _ => exact absurd rfl (hi _)

theorem Framed.call (hf : Framed t a) (h : Reachable t) {c : Call} (hc : t.Spares c) :
    Framed (t.call c).state a := by
  cases c with
  | perform instruction => exact hf.perform h instruction
  | _ => exact hf.called h (Tree.called t _) hc (by simp)

theorem Framed.run (hf : Framed t a) (h : Reachable t) {body : List Call} (hbody : t.Spared body) :
    Framed (t.run body) a := by
  induction body generalizing t with
  | nil => exact hf
  | cons c rest ih => exact ih (hf.call h hbody.1) (h.call c) hbody.2

/-- A transaction begins with the frame of its target. -/
theorem framed_begin (h : Reachable t) (hidle : t.running = false)
    (htarget : ∃ n, t.node? a = some n ∧ n.kind.isContainer = true) :
    Framed (t.call (.begin a)).state a := by
  have hbegin := begin_eq_ok_iff.mpr ⟨hidle, htarget, rfl⟩
  obtain ⟨n, hn, _⟩ := htarget
  simp only [Tree.call, hbegin, h.frames_eq_nil_iff.mpr hidle]
  exact (framed_singleton_iff (t := { t with running := true })).mpr
    ⟨rfl, rfl, isLive_of_node? hn, Nat.zero_le _⟩

theorem spared_map_perform (t : Tree) (body : List (Patch.Instruction Patch.Key)) :
    t.Spared (body.map .perform) := by
  induction body generalizing t with
  | nil => trivial
  | cons i body ih => exact ⟨trivial, ih _⟩

/-- Between any two instructions of a transaction, whichever they are and whether or not they
were refused, the frames are sound. So no instruction puts a child beyond the children of its
container, and none looks beyond the slots. -/
theorem Reachable.framed_body (h : Reachable t) (hidle : t.running = false)
    (htarget : ∃ n, t.node? a = some n ∧ n.kind.isContainer = true)
    (body : List (Patch.Instruction Patch.Key)) :
    let u := t.run (.begin a :: body.map .perform)
    Framed u a ∧ (∀ i x, (u.perform i).failure ≠ some (.gap x)) ∧ InBounds u := by
  have hbegin := framed_begin h hidle htarget
  have hf := hbegin.run (h.call (.begin a)) (spared_map_perform _ body)
  have hrun := h.run (.begin a :: body.map .perform)
  exact ⟨hf, hf.failure_perform_ne_gap, hf.inBounds hrun.wellLinked⟩

/-- The body has passed a text, claims the second of two elements without getting into it, is
refused a close, opens the element, skips what it holds, puts a text behind and is refused an
element in it whose name is no name. -/
theorem framed_body_after_refusals :
    let t := Tree.new.run [.createElement "ul", .appendChild .root ⟨1, 0⟩, .begin ⟨1, 0⟩,
      .perform (.openTag "a" (.explicit "k") []), .perform (.closeTag "a"),
      .perform (.openTag "b" (.explicit "k") []), .perform (.text "old"),
      .perform (.closeTag "b"), .finish none]
    let body : List (Patch.Instruction Patch.Key) :=
      [.text "x", .openTag "b" (.explicit "k") [("c d", "")], .closeTag "ul",
        .openTag "b" (.explicit "k") [], .skip, .text "new", .openTag "1" (.explicit "") []]
    let u := t.run (.begin ⟨1, 0⟩ :: body.map .perform)
    u.frames = [⟨⟨3, 0⟩, 2⟩, ⟨⟨1, 0⟩, 2⟩] ∧
      u.children ⟨1, 0⟩ = [⟨5, 0⟩, ⟨3, 0⟩, ⟨2, 0⟩] ∧ Framed u ⟨1, 0⟩ := by
  refine ⟨by decide, by decide, ?_⟩
  refine (Reachable.framed_body (Reachable.new.run _) (by decide) ?_ _).1
  exact ⟨⟨.element "ul" none [], some .root, [⟨2, 0⟩, ⟨3, 0⟩]⟩, by decide, by decide⟩

end LiveMarkup.Live.Tree
