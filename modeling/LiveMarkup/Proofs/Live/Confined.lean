import LiveMarkup.Proofs.Live.Replay

/-!
# What a transaction leaves alone

A transaction changes nothing but its target's children and what lies within them
(`Confined`). The reason is that all open containers lie within the target, and that an
instruction works at the cursor of an open container only: it orders, makes or removes
children of that container, and changes what a child is.

That the open containers lie within the target is read off the levels that the arena
follows. It holds between any two instructions, also after one that fails, so a body may go
on after a failure.
-/

namespace LiveMarkup.Live.Tree

open Patch (Outcome)

variable {t u v : Tree} {a h x p : Handle}

/-- Going from `t` to `u` changes nothing outside of what lies within `a`. -/
structure Confined (t u : Tree) (a : Handle) : Prop where
  /-- A node outside is what it was, with the same parent and the same children. -/
  outside : ∀ {x n}, t.node? x = some n → ¬ Within t.parent? x a → u.node? x = some n
  /-- The node itself keeps all but its children. -/
  top : ∀ {n}, t.node? a = some n → ∃ children, u.node? a = some { n with children := children }
  /-- No node inside gets out. -/
  inside : ∀ {x}, t.isLive x = true → Within t.parent? x a → u.isLive x = true →
    Within u.parent? x a
  /-- A new node is inside. -/
  created : ∀ {x}, t.isLive x = false → u.isLive x = true → Within u.parent? x a

namespace Confined

theorem refl (t : Tree) (a : Handle) : Confined t t a where
  outside hn _ := hn
  top hn := ⟨_, hn⟩
  inside _ hwithin _ := hwithin
  created hdead hlive := by
    rw [hdead] at hlive
    cases hlive

/-- A node that was there gets inside on no way but the one that it was on. -/
theorem within_of_isLive (hc : Confined t u a) (ht : WellLinked t) (hlive : t.isLive x = true)
    (hwithin : Within u.parent? x a) : Within t.parent? x a := by
  induction hwithin using Relation.ReflTransGen.head_induction_on with
  | refl => exact .refl
  | @head x p hparent _ ih =>
    by_contra hout
    obtain ⟨n, hn⟩ := node?_of_isLive hlive
    have hsame : t.parent? x = some p := by
      rwa [parent?, hc.outside hn hout, ← hn, ← parent?] at hparent
    exact hout (.head hsame (ih (ht.hierarchy.present_of_parent hsame).1))

theorem trans (htu : Confined t u a) (huv : Confined u v a) (ht : WellLinked t) :
    Confined t v a where
  outside hn hout := by
    refine huv.outside (htu.outside hn hout) ?_
    intro hwithin
    exact hout (htu.within_of_isLive ht (isLive_of_node? hn) hwithin)
  top hn := by
    obtain ⟨children, hu⟩ := htu.top hn
    obtain ⟨children', hv⟩ := huv.top hu
    exact ⟨children', hv⟩
  inside {x} hlive hwithin hv := by
    cases hu : u.isLive x with
    | true => exact huv.inside hu (htu.inside hlive hwithin hu) hv
    | false => exact huv.created hu hv
  created {x} hdead hv := by
    cases hu : u.isLive x with
    | true => exact huv.inside hu (htu.created hdead hu) hv
    | false => exact huv.created hu hv

theorem setFrames (hc : Confined t u a) (frames : List Frame) (running : Bool) :
    Confined t { u with frames := frames, running := running } a :=
  ⟨hc.outside, hc.top, hc.inside, hc.created⟩

/-- A node inside may change in place; the topmost one changes its children only. -/
theorem modify (hwithin : Within t.parent? h a) {f : Node → Node}
    (hparent : ∀ n, (f n).parent = n.parent) (hkind : h = a → ∀ n, (f n).kind = n.kind) :
    Confined t (t.modify h f) a := by
  have hsame : (t.modify h f).parent? = t.parent? := by
    funext x
    exact parent?_modify t h x f hparent
  refine ⟨?_, ?_, ?_, ?_⟩
  · intro x n hn hout
    have hne : x ≠ h := by
      rintro rfl
      exact hout hwithin
    rwa [node?_modify_of_ne t f hne]
  · intro n hn
    by_cases hh : a = h
    · subst hh
      refine ⟨(f n).children, ?_⟩
      rw [node?_modify_self, hn, Option.map_some, ← hparent n, ← hkind rfl n]
    · exact ⟨n.children, by rwa [node?_modify_of_ne t f hh]⟩
  · intro x _ hx _
    rwa [hsame]
  · intro x hdead hlive
    rw [isLive_modify, hdead] at hlive
    cases hlive

/-- A new node is put below a node inside. -/
theorem insert (ht : WellLinked t) (kind : Kind) (hp : t.isLive p = true)
    (hwithin : Within t.parent? p a) (index : Nat) :
    Confined t ((t.allocate kind).2.link p index t.fresh) a := by
  have hfresh : ∀ {x}, t.isLive x = true → x ≠ t.fresh := by
    rintro x hx rfl
    rw [isLive, ht.node?_fresh] at hx
    cases hx
  have hnew : (t.allocate kind).2.isLive t.fresh = true := (isLive_allocate_iff ht).mpr (.inl rfl)
  have hparent := parent?_link (p := p) hnew index
  have hmono : ∀ {x}, Within t.parent? x a →
      Within ((t.allocate kind).2.link p index t.fresh).parent? x a := by
    refine Within.mono ?_
    intro c q hq
    rw [hparent, if_neg (hfresh (isLive_of_parent? hq)), parent?_allocate ht]
    exact hq
  have hnode : ∀ {x}, t.isLive x = true → x ≠ p →
      ((t.allocate kind).2.link p index t.fresh).node? x = t.node? x := by
    intro x hx hxp
    rw [link, node?_modify_of_ne _ _ (hfresh hx), node?_modify_of_ne _ _ hxp,
      ht.node?_allocate, if_neg (hfresh hx)]
  refine ⟨?_, ?_, ?_, ?_⟩
  · intro x n hn hout
    have hxp : x ≠ p := by
      rintro rfl
      exact hout hwithin
    rwa [hnode (isLive_of_node? hn) hxp]
  · intro n hn
    have ha := isLive_of_node? hn
    by_cases hap : a = p
    · subst hap
      refine ⟨n.children.take index ++ t.fresh :: n.children.drop index, ?_⟩
      rw [link, node?_modify_of_ne _ _ (hfresh ha), node?_modify_self,
        ht.node?_allocate, if_neg (hfresh ha), hn, Option.map_some]
    · exact ⟨n.children, by rwa [hnode ha hap]⟩
  · intro x _ hx _
    exact hmono hx
  · intro x hdead hlive
    rw [link, isLive_modify, isLive_modify, isLive_allocate_iff ht] at hlive
    rcases hlive with rfl | hlive
    · exact .head (by rw [hparent, if_pos rfl]) (hmono hwithin)
    · rw [hdead] at hlive
      cases hlive

open Classical in
/-- Children of a node inside are removed. -/
theorem truncate (ht : WellLinked t) (hwithin : Within t.parent? h a) (start : Nat) :
    Confined t (t.truncate h start) a := by
  -- What is dropped lies strictly within the topmost node.
  have hbelow : ∀ {x}, t.Dropped h start x → Under t.parent? x a := by
    rintro x ⟨b, hb, hx⟩
    have hparent := ht.mem_children_iff.mp (List.mem_of_mem_drop hb)
    exact .trans_right hx (.head' hparent hwithin)
  refine ⟨?_, ?_, ?_, ?_⟩
  · intro x n hn hout
    have hxh : x ≠ h := by
      rintro rfl
      exact hout hwithin
    rwa [node?_truncate ht, if_neg (fun hd => hout (hbelow hd).to_reflTransGen), if_neg hxh]
  · intro n hn
    have hkept : ¬ t.Dropped h start a := fun hd => (ht.grounded a).not_under_self (hbelow hd)
    by_cases hah : a = h
    · subst hah
      exact ⟨n.children.take start, by rw [node?_truncate ht, if_neg hkept, if_pos rfl, hn]; rfl⟩
    · exact ⟨n.children, by rwa [node?_truncate ht, if_neg hkept, if_neg hah]⟩
  · rintro x - hx hlive
    have hkept := not_dropped_of_isLive_truncate ht hlive
    clear hlive
    induction hx using Relation.ReflTransGen.head_induction_on with
    | refl => exact .refl
    | @head x q hq _ ih =>
      refine .head ?_ (ih fun hd => hkept (hd.of_parent? hq))
      rwa [parent?_truncate ht, if_neg hkept]
  · intro x hdead hlive
    rw [isLive_of_truncate ht hlive] at hdead
    cases hdead

/-- A claimed element is a child of its container, and lies strictly within the topmost node. -/
theorem claim (ht : WellLinked t) {frame : Frame} {name key : String}
    (hwithin : Within t.parent? frame.node a) (hclaim : t.claim frame name key = (.ok h, u)) :
    Confined t u a ∧ Under u.parent? h a := by
  obtain ⟨hcheck, hcases⟩ := claim_cases hclaim
  have hlive := isLive_of_check hcheck
  have hchild : Confined t u a → u.isLive frame.node = true → u.parent? h = some frame.node →
      Confined t u a ∧ Under u.parent? h a := by
    intro hc hu hparent
    exact ⟨hc, .head' hparent (hc.inside hlive hwithin hu)⟩
  rcases hcases with ⟨hfound, rfl⟩ | ⟨_, _, _, rfl, rfl⟩
  · refine hchild (modify hwithin (fun _ => rfl) fun _ _ => rfl) (by rwa [isLive_modify]) ?_
    refine (parent?_modify t frame.node h _ ?_).trans ?_
    · intro n
      rfl
    · exact ht.mem_children_iff.mp (List.mem_of_mem_drop (mem_of_findKeyed? hfound).1)
  · refine hchild (insert ht _ hlive hwithin frame.cursor) ?_ ?_
    · rw [link, isLive_modify, isLive_modify, isLive_allocate_iff ht]
      exact .inr hlive
    · rw [parent?_link ((isLive_allocate_iff ht).mpr (.inl rfl)), if_pos rfl]

/-- All open containers are there and lie within `a`. -/
def Seated (t : Tree) (a : Handle) : Prop :=
  ∀ frame ∈ t.frames, t.isLive frame.node = true ∧ Within t.parent? frame.node a

theorem performed (ht : WellLinked t) (hseated : Seated t a) {i : Patch.Instruction Patch.Key}
    (hcall : Called t (.perform i) u) : Confined t u a := by
  have hinner : ∀ {frame outer}, t.frames = frame :: outer →
      t.isLive frame.node = true ∧ Within t.parent? frame.node a := fun hframes =>
    hseated _ (hframes ▸ List.mem_cons_self)
  cases hcall with
  | refused => exact refl t a
  | claim hframes hclaim => exact (claim ht (hinner hframes).2 hclaim).1
  | @openElement _ _ _ _ _ element v hframes hclaim =>
    obtain ⟨hc, hunder⟩ := claim ht (hinner hframes).2 hclaim
    refine (hc.trans (modify hunder.to_reflTransGen (fun n => ?_) ?_) ht).setFrames _ _
    · cases n.kind <;> rfl
    · rintro rfl
      exact absurd hunder ((ht.claim hclaim).1.grounded element).not_under_self
  | closeElement hframes =>
    obtain ⟨hlive, hwithin⟩ := hinner hframes
    rw [resident_of_isLive hlive]
    exact (truncate ht hwithin _).setFrames _ _
  | @rewrite _ _ content found hframes _ hfound =>
    have hchild := List.mem_of_getElem? (Option.filter_eq_some_iff.mp hfound).1
    have hunder : Under t.parent? found a :=
      .head' (ht.mem_children_iff.mp hchild) (hinner hframes).2
    refine (modify (f := fun n => { n with kind := .text content })
      hunder.to_reflTransGen (fun _ => rfl) ?_).setFrames _ _
    rintro rfl
    exact absurd hunder (ht.grounded found).not_under_self
  | insertText hframes =>
    obtain ⟨hlive, hwithin⟩ := hinner hframes
    exact (insert ht _ hlive hwithin _).setFrames _ _
  | skip => exact (refl t a).setFrames _ _

theorem perform (ht : WellLinked t) (hseated : Seated t a) (i : Patch.Instruction Patch.Key) :
    Confined t (t.perform i).state a :=
  performed ht hseated (called t (.perform i))

theorem finished (ht : WellLinked t) (hseated : Seated t a) {raised : Option Error}
    (hcall : Called t (.finish raised) u) : Confined t u a := by
  cases hcall with
  | refused => exact refl t a
  | abandon => exact (refl t a).setFrames _ _
  | @complete frame hframes =>
    obtain ⟨hlive, hwithin⟩ := hseated frame (hframes ▸ List.mem_cons_self)
    rw [resident_of_isLive hlive]
    exact (truncate ht hwithin _).setFrames _ _

theorem finish (ht : WellLinked t) (hseated : Seated t a) (raised : Option Error) :
    Confined t (t.finish raised).state a :=
  finished ht hseated (called t (.finish raised))

end Confined

/-- Each container of a transaction lies within the last one. -/
theorem within_of_held {above : Option Handle} {hole : List Handle} {l : Level}
    {outer : List Level} (hheld : Held t.node? (Zipper.records above hole (l :: outer)))
    {kind : Kind} (hbase : Zipper.base (l :: outer) = some (a, kind)) :
    ∀ m ∈ l :: outer, t.isLive m.node = true ∧ Within t.parent? m.node a := by
  induction outer generalizing l hole with
  | nil =>
    simp only [Zipper.base_singleton, Option.some_inj, Prod.mk.injEq] at hbase
    obtain ⟨rfl, rfl⟩ := hbase
    intro m hm
    rw [List.mem_singleton.mp hm]
    exact ⟨isLive_of_node? (hheld _ List.mem_cons_self), .refl⟩
  | cons m outer ih =>
    have hnode := hheld _ List.mem_cons_self
    rw [Zipper.base_cons_cons] at hbase
    have houter := ih (hheld.subset fun e he => List.mem_cons_of_mem _
      (List.mem_append_right _ (List.mem_append_right _ he))) hbase
    intro k hk
    rcases List.mem_cons.mp hk with rfl | hk
    · refine ⟨isLive_of_node? hnode, .head ?_ (houter m List.mem_cons_self).2⟩
      exact parent?_of_node? hnode
    · exact houter k hk

theorem exists_level_of_mem_frames {hole : List Handle} {z : List Level} {frame : Frame}
    (hframe : frame ∈ Zipper.frames hole z) : ∃ m ∈ z, m.node = frame.node := by
  induction z generalizing hole with
  | nil => cases hframe
  | cons m z ih =>
    rcases List.mem_cons.mp hframe with rfl | hframe
    · exact ⟨m, List.mem_cons_self, rfl⟩
    · obtain ⟨k, hk, hnode⟩ := ih hframe
      exact ⟨k, List.mem_cons_of_mem _ hk, hnode⟩

theorem Tracks.seated {above : Option Handle} {z : List Level} {kind : Kind}
    (hz : Tracks t above z) (hbase : Zipper.base z = some (a, kind)) : Confined.Seated t a := by
  cases z with
  | nil => cases hbase
  | cons l outer =>
    intro frame hframe
    rw [hz.frames] at hframe
    obtain ⟨m, hm, hnode⟩ := exists_level_of_mem_frames hframe
    rw [← hnode]
    exact within_of_held hz.stored.held hbase m hm

/-- The arena goes on to follow the trees through any number of instructions, whether or not
they fail. What each of them does to the levels, they do together. -/
theorem Tracks.run_of_perform {above : Option Handle} {z : List Level}
    (R : List Level → List Level → Prop) (hrefl : ∀ z, R z z)
    (htrans : ∀ {z z' z''}, R z z' → R z' z'' → R z z'')
    (hperform : ∀ fresh i z, R z (Zipper.perform fresh i z).state) (hz : Tracks t above z)
    (h : Reachable t) (body : List (Patch.Instruction Patch.Key)) :
    ∃ z', Tracks (t.run (body.map .perform)) above z' ∧ R z z' := by
  induction body generalizing t z with
  | nil => exact ⟨z, hz, hrefl z⟩
  | cons i body ih =>
    have hstep := (hz.perform h.wellLinked h.serializable i).2
    obtain ⟨z', hz', hrest⟩ := ih hstep (h.call (.perform i))
    exact ⟨z', hz', htrans (hperform t.fresh i z) hrest⟩

theorem Tracks.run {above : Option Handle} {z : List Level} (hz : Tracks t above z)
    (h : Reachable t) (body : List (Patch.Instruction Patch.Key)) :
    ∃ z', Tracks (t.run (body.map .perform)) above z' ∧ Zipper.base z' = Zipper.base z :=
  hz.run_of_perform (fun z z' => Zipper.base z' = Zipper.base z) (fun _ => rfl)
    (fun hfirst hrest => hrest.trans hfirst) Zipper.base_perform h body

theorem Confined.run {above : Option Handle} {z : List Level} {kind : Kind}
    (hz : Tracks t above z) (hbase : Zipper.base z = some (a, kind)) (h : Reachable t)
    (body : List (Patch.Instruction Patch.Key)) : Confined t (t.run (body.map .perform)) a := by
  induction body generalizing t z with
  | nil => exact refl t a
  | cons i body ih =>
    have hstep := perform h.wellLinked (hz.seated hbase) i
    refine hstep.trans ?_ h.wellLinked
    refine ih (hz.perform h.wellLinked h.serializable i).2 ?_ (h.call (.perform i))
    rw [Zipper.base_perform, hbase]

/-- A replay performs the instructions up to the first that fails, and all of them if none
does. -/
theorem exists_prefix_of_replay (t : Tree) (program : List (Patch.Instruction Patch.Key)) :
    ∃ body, body <+: program ∧
      (Patch.replay program t : Outcome Error Tree).state = t.run (body.map .perform) ∧
      ((Patch.replay program t : Outcome Error Tree).failure = none → body = program) := by
  induction program generalizing t with
  | nil => exact ⟨[], List.prefix_refl _, rfl, fun _ => rfl⟩
  | cons i program ih =>
    simp only [Patch.replay]
    split
    · next u hu =>
      have hstate : (t.perform i).state = u := congrArg Outcome.state hu
      obtain ⟨body, hprefix, hrun, hall⟩ := ih u
      refine ⟨i :: body, (List.prefix_cons_inj i).mpr hprefix, ?_, fun hok => by rw [hall hok]⟩
      rw [hrun, ← hstate]
      rfl
    · next hfails =>
      refine ⟨[i], List.prefix_append [i] program, rfl, fun hok => ?_⟩
      exact absurd (congrArg (Outcome.mk · _) hok) (hfails _)

/-- A replay is a transaction whose body gives the instructions up to the first that fails. -/
theorem exists_transact_eq_apply (t : Tree) (p : Patch) (target : Handle) :
    ∃ (body : List (Patch.Instruction Patch.Key)) (raised : Option Error),
      p.apply target t = t.transact target (body.map .perform) raised := by
  obtain ⟨u, hbegin⟩ | ⟨e, hbegin⟩ := begin_cases t target
  · obtain ⟨body, -, hrun, -⟩ := exists_prefix_of_replay u p.instructions
    refine ⟨body, (Patch.replay p.instructions u : Outcome Error Tree).failure, ?_⟩
    rw [apply_of_begin hbegin, hrun, transact, hbegin]
  · refine ⟨[], none, ?_⟩
    rw [apply_of_begin_error hbegin, transact, hbegin]

theorem Confined.transact (h : Reachable t) (target : Handle)
    (body : List (Patch.Instruction Patch.Key)) (raised : Option Error) :
    Confined t (t.transact target (body.map .perform) raised).state target := by
  rw [Tree.transact]
  obtain ⟨u, hbegin⟩ | ⟨e, hbegin⟩ := begin_cases t target
  · rw [hbegin]
    have hz := tracks_begin h hbegin
    have hu := h.begin hbegin
    have hbody := Confined.run hz (Zipper.base_singleton _) hu body
    obtain ⟨z, hz', hbase⟩ := hz.run hu body
    have hend := Confined.finish (hu.run (body.map .perform)).wellLinked
      (hz'.seated (hbase.trans (Zipper.base_singleton _))) raised
    obtain ⟨_, _, rfl⟩ := begin_eq_ok_iff.mp hbegin
    have hstart := (refl t target).setFrames (⟨target, 0⟩ :: t.frames) true
    exact hstart.trans (hbody.trans hend hu.wellLinked) h.wellLinked
  · rw [hbegin]
    exact refl t target

/-- A replay changes nothing outside of its target. -/
theorem Confined.apply (h : Reachable t) (p : Patch) (target : Handle) :
    Confined t (p.apply target t).state target := by
  obtain ⟨body, raised, happly⟩ := exists_transact_eq_apply t p target
  rw [happly]
  exact Confined.transact h target body raised

/-- A transaction whose body gives instructions only, in any order and in spite of any
failures, and which ends well or with any error, changes nothing outside of its target. -/
theorem Reachable.confined_transact (h : Reachable t) (target : Handle)
    (body : List (Patch.Instruction Patch.Key)) (raised : Option Error) :
    Confined t (t.transact target (body.map .perform) raised).state target :=
  Confined.transact h target body raised

/-- Beside the target stand a text and a tree that hangs on nothing. The body opens the child
of the target, is refused a name and a close, empties the child, makes an element in its
place and leaves it open. -/
theorem confined_transact_after_refusals :
    let t := Tree.new.run [.createElement "ul", .createElement "li", .appendChild ⟨1, 0⟩ ⟨2, 0⟩,
      .createElement "div", .appendChild .root ⟨3, 0⟩, .createText "x", .appendChild .root ⟨4, 0⟩,
      .begin ⟨3, 0⟩, .perform (.openTag "p" (.explicit "k") []), .perform (.text "old"),
      .perform (.closeTag "p"), .finish none]
    let o := t.transact ⟨3, 0⟩ (List.map .perform
      [.openTag "p" (.explicit "k") [("a b", "")], .openTag "p" (.explicit "k") [],
        .closeTag "b", .closeTag "p", .openTag "b" (.generated "n") [], .text "new"]) none
    o.failure = some (.unclosedElement "b") ∧ t.isLive ⟨6, 0⟩ = true ∧
      o.state.isLive ⟨6, 0⟩ = false ∧ o.state.children ⟨3, 0⟩ = [⟨5, 0⟩, ⟨6, 1⟩] ∧
      Confined t o.state ⟨3, 0⟩ := by
  refine ⟨by decide, by decide, by decide, by decide, ?_⟩
  exact Reachable.confined_transact (Reachable.new.run _) _ _ _

end LiveMarkup.Live.Tree
