import LiveMarkup.Proofs.Live.Rebuild
import Mathlib.Logic.Equiv.Basic

/-!
# Replays into two targets

Two patches that are replayed into targets apart from each other may be replayed in either order
(`Reachable.apply_comm`). Each of them fails of the same in both orders, and the trees that come
out are the same up to the handles of new nodes: these depend on which slots the other replay has
taken or freed.

What each of the replays does to the trees below its target does not depend on the order, up to
its supply of handles. The trees of both targets and what is left of the old nodes make up the
whole tree in either order, so the supplies give the renaming.
-/

namespace LiveMarkup.Live

open Patch (Outcome)
open Rose (place places recordsAll)

/-- Two lists without repetition that differ in new entries only are matched by a permutation
that keeps all old ones. -/
theorem exists_perm_of_forall₂ {α : Type} [DecidableEq α] {old : α → Prop} {l l' : List α}
    (hl : l.Nodup) (hl' : l'.Nodup)
    (hpairs : List.Forall₂ (fun x y => x = y ∨ ¬ old x ∧ ¬ old y) l l') :
    ∃ σ : Equiv.Perm α, l.map σ = l' ∧ ∀ x, old x → σ x = x := by
  induction hpairs with
  | nil => exact ⟨Equiv.refl α, rfl, fun _ _ => rfl⟩
  | @cons a b l l' hab _ ih =>
    obtain ⟨ha, hl⟩ := List.nodup_cons.mp hl
    obtain ⟨hb, hl'⟩ := List.nodup_cons.mp hl'
    obtain ⟨σ, hmap, hold⟩ := ih hl hl'
    refine ⟨σ.trans (Equiv.swap (σ a) b), ?_, fun x hx => ?_⟩
    · rw [List.map_cons, Equiv.trans_apply, Equiv.swap_apply_left, ← hmap]
      refine congrArg _ (List.map_congr_left fun x hx => ?_)
      refine Equiv.swap_apply_of_ne_of_ne (fun hxa => ha (σ.injective hxa ▸ hx)) ?_
      rintro rfl
      exact hb (hmap ▸ List.mem_map_of_mem hx)
    · rw [Equiv.trans_apply]
      by_cases hxa : x = a
      · subst hxa
        rcases hab with rfl | hab
        · exact Equiv.swap_apply_left _ _
        · exact absurd hx hab.1
      · rw [hold x hx, Equiv.swap_apply_of_ne_of_ne]
        · exact fun hxσ => hxa (σ.injective ((hold x hx).trans hxσ))
        · rintro rfl
          exact hab.elim (fun h => hxa h.symm) fun h => h.2 hx

/-- A handle in a slot that a tree with so many slots does not have. -/
def beyond (size k : Nat) : Handle := ⟨size + k, 0⟩

/-- Gives the handles beyond the slots those of a supply. -/
def assign (size : Nat) (supply : Nat → Handle) (h : Handle) : Handle :=
  if h.slot < size then h else supply (h.slot - size)

section Assign

variable {size : Nat} {supply : Nat → Handle} {x : Handle}

theorem assign_of_lt (hx : x.slot < size) : assign size supply x = x := if_pos hx

theorem assign_beyond (size : Nat) (supply : Nat → Handle) (k : Nat) :
    assign size supply (beyond size k) = supply k := by
  simp [assign, beyond]

/-- Handles that are assigned from two supplies differ only where both are new. -/
theorem assign_eq_or {old : Handle → Prop} {supply' : Nat → Handle}
    (hsupply : ∀ k, ¬ old (supply k)) (hsupply' : ∀ k, ¬ old (supply' k)) (x : Handle) :
    assign size supply x = assign size supply' x ∨
      ¬ old (assign size supply x) ∧ ¬ old (assign size supply' x) := by
  by_cases hx : x.slot < size
  · exact .inl (by rw [assign_of_lt hx, assign_of_lt hx])
  · exact .inr ⟨by simpa [assign, hx] using hsupply _, by simpa [assign, hx] using hsupply' _⟩

/-- The handles that are assigned from two pairs of supplies are matched by a permutation that
keeps all old ones. -/
theorem exists_perm_assign {old : Handle → Prop} {f g f' g' : Nat → Handle} {l m : List Handle}
    (hf : ∀ k, ¬ old (f k)) (hg : ∀ k, ¬ old (g k)) (hf' : ∀ k, ¬ old (f' k))
    (hg' : ∀ k, ¬ old (g' k)) (hl : (l.map (assign size f) ++ m.map (assign size g)).Nodup)
    (hl' : (l.map (assign size f') ++ m.map (assign size g')).Nodup) :
    ∃ σ : Equiv.Perm Handle, (∀ x ∈ l, σ (assign size f x) = assign size f' x) ∧
      (∀ x ∈ m, σ (assign size g x) = assign size g' x) ∧ ∀ x, old x → σ x = x := by
  have hpairs : ∀ {l : List Handle} {f f' : Nat → Handle}, (∀ k, ¬ old (f k)) →
      (∀ k, ¬ old (f' k)) → List.Forall₂ (fun x y => x = y ∨ ¬ old x ∧ ¬ old y)
        (l.map (assign size f)) (l.map (assign size f')) := by
    intro l f f' hf hf'
    rw [List.forall₂_map_left_iff, List.forall₂_map_right_iff, List.forall₂_same]
    exact fun x _ => assign_eq_or hf hf' x
  obtain ⟨σ, hmap, hold⟩ :=
    exists_perm_of_forall₂ hl hl' (List.rel_append (hpairs hf hf') (hpairs hg hg'))
  rw [List.map_append, List.map_map, List.map_map] at hmap
  obtain ⟨hleft, hright⟩ := List.append_inj hmap (by simp)
  exact ⟨σ, List.map_inj_left.mp hleft, List.map_inj_left.mp hright, hold⟩

end Assign

namespace Site

variable {size : Nat} {supply supply' : Nat → Handle} {s : Site}

/-- All slots of the site are below a bound. -/
structure Below (size : Nat) (s : Site) : Prop where
  above : ∀ x ∈ s.above, x.slot < size
  places : ∀ x ∈ s.places, x.slot < size

/-- What a replay makes of a site with any supply is what it makes of it with handles beyond all
slots. -/
theorem replay_eq_assign (hs : s.Below size) (supply : Nat → Handle) (p : Patch) :
    s.replay supply p = renameOutcome (assign size supply) (rename (assign size supply))
      (s.replay (beyond size) p) := by
  have hsame : s.rename (assign size supply) = s := by
    refine rename_eq_self ?_ fun x hx => assign_of_lt (hs.places x hx)
    cases hparent : s.above with
    | none => rfl
    | some x => exact congrArg some (assign_of_lt (hs.above x hparent))
  rw [← replay_rename, hsame]
  simp only [assign_beyond]

theorem places_replay (hs : s.Below size) (supply : Nat → Handle) (p : Patch) :
    (s.replay supply p).state.places =
      (s.replay (beyond size) p).state.places.map (assign size supply) := by
  rw [replay_eq_assign hs supply, renameOutcome, places_rename]

/-- What a replay makes of a site with one supply is what it makes of it with another one, when a
renaming takes the handles that are assigned from the one to those from the other. -/
theorem replay_eq_rename (hs : s.Below size) {p : Patch} {σ : Handle → Handle}
    (hσ : ∀ x ∈ (s.replay (beyond size) p).state.places,
      σ (assign size supply x) = assign size supply' x)
    (habove : ∀ x ∈ s.above, σ x = x) :
    s.replay supply' p = renameOutcome σ (rename σ) (s.replay supply p) := by
  rw [replay_eq_assign hs supply, replay_eq_assign hs supply', renameOutcome, renameOutcome,
    renameOutcome, rename_rename, Option.map_map]
  congr 1
  · cases hfailure : (s.replay (beyond size) p).failure with
    | none => rfl
    | some e =>
      simp only [Option.map_some, Function.comp_apply, Error.rename_rename]
      refine congrArg some (Error.rename_congr fun x hx => ?_)
      exact (hσ x (mem_places_of_replay hfailure hx)).symm
  · refine rename_congr ?_ fun x hx => (hσ x hx).symm
    rw [above_replay]
    cases hparent : s.above with
    | none => rfl
    | some x =>
      simp [assign_of_lt (hs.above x hparent), habove x hparent]

end Site

namespace Tree

variable {t u v : Tree} {s r : Site} {x : Handle} {rest : List (Handle × Node)}

/-- A held site is all that lies within its node. -/
theorem mem_places_iff_within (ht : WellLinked t) (hheld : Held t.node? s.records) :
    x ∈ s.places ↔ Within t.parent? x s.node := by
  constructor
  · intro hx
    have htree : Held t.node? (Rose.records Node.mk s.above s.tree) := by
      simpa [Site.records, recordsAll] using hheld
    exact htree.within_of_mem_preorder parent?_of_node? s.tree
      (by simpa [Site.places, Rose.places_cons] using hx)
  · intro hx
    exact mem_places_of_within ht hheld (b := s.node) (by simp [Site.tree]) hx

theorem apply_running (hidle : t.running = false) (p : Patch) (target : Handle) :
    (p.apply target t).state.running = false := by
  obtain ⟨u, hbegin⟩ | ⟨e, hbegin⟩ := begin_cases t target
  · rw [apply_of_begin hbegin]
    rfl
  · rwa [apply_of_begin_error hbegin]

/-- A replay changes the site of its target and nothing beside it. -/
theorem apply_beside (h : Reachable t) (hidle : t.running = false)
    (hstored : Stored t.node? (s.records ++ rest)) (p : Patch) :
    ∃ supply : Nat → Handle, (∀ k, ¬ t.Issued (supply k)) ∧
      (p.apply s.node t).failure = (s.replay supply p).failure ∧
      Stored (p.apply s.node t).state.node? ((s.replay supply p).state.records ++ rest) ∧
      ∀ x, x ∉ (s.replay supply p).state.places →
        (p.apply s.node t).state.node? x = if x ∈ s.places then none else t.node? x := by
  have hnodup := hstored.nodup
  rw [List.map_append, Site.map_fst_records, List.nodup_append'] at hnodup
  obtain ⟨hsite, hrest, hdisjoint⟩ := hnodup
  obtain ⟨supply, hsupply, hfailure, hnew⟩ := apply_site h hidle
    ⟨hstored.held.left, by rwa [Site.map_fst_records]⟩ p
  have hc := Confined.apply h p s.node
  have ht := h.wellLinked
  have hbefore : ∀ {x}, x ∈ s.places ↔ Within t.parent? x s.node :=
    mem_places_iff_within ht hstored.held.left
  have hafter : ∀ {x}, x ∈ (s.replay supply p).state.places ↔
      Within (p.apply s.node t).state.parent? x s.node := by
    intro x
    rw [mem_places_iff_within (h.apply p s.node).wellLinked hnew.held, Site.node_replay]
  refine ⟨supply, hsupply, hfailure, ⟨hnew.held.append ?_, ?_⟩, fun x hx => ?_⟩
  · intro e he
    refine hc.outside (hstored.held.right e he) fun hwithin => ?_
    exact hdisjoint (hbefore.mpr hwithin) (List.mem_map_of_mem he)
  · rw [List.map_append, List.nodup_append']
    refine ⟨hnew.nodup, hrest, fun x hx hx' => ?_⟩
    rw [Site.map_fst_records, hafter] at hx
    obtain ⟨e, he, rfl⟩ := List.mem_map.mp hx'
    have hlive := isLive_of_node? (hstored.held.right e he)
    exact hdisjoint (hbefore.mpr (hc.within_of_isLive ht hlive hx)) hx'
  · rw [hafter] at hx
    by_cases hin : Within t.parent? x s.node
    · rw [if_pos (hbefore.mpr hin), ← Option.not_isSome_iff_eq_none]
      intro hlive
      cases hold : t.isLive x with
      | true => exact hx (hc.inside hold hin hlive)
      | false => exact hx (hc.created hold hlive)
    · rw [if_neg (mt hbefore.mp hin)]
      cases hn : t.node? x with
      | some n => exact hc.outside hn hin
      | none =>
        rw [← Option.not_isSome_iff_eq_none]
        exact fun hlive => hx (hc.created (by simp [isLive, hn]) hlive)

/-- Two replays, each into one of two sites side by side. -/
theorem apply_apply_beside (h : Reachable t) (hidle : t.running = false)
    (hstored : Stored t.node? (s.records ++ r.records)) (p q : Patch) :
    ∃ supply supply' : Nat → Handle,
      (∀ k, ¬ t.Issued (supply k)) ∧ (∀ k, ¬ t.Issued (supply' k)) ∧
      (p.apply s.node t).failure = (s.replay supply p).failure ∧
      (q.apply r.node (p.apply s.node t).state).failure = (r.replay supply' q).failure ∧
      Stored (q.apply r.node (p.apply s.node t).state).state.node?
        ((s.replay supply p).state.records ++ (r.replay supply' q).state.records) ∧
      ∀ x, x ∉ (s.replay supply p).state.places → x ∉ (r.replay supply' q).state.places →
        (q.apply r.node (p.apply s.node t).state).state.node? x =
          if x ∈ s.places ∨ x ∈ r.places then none else t.node? x := by
  obtain ⟨supply, hsupply, hfailure, hstored', hother⟩ := apply_beside h hidle hstored p
  obtain ⟨supply', hsupply', hfailure', hstored'', hother'⟩ :=
    apply_beside (h.apply p s.node) (apply_running hidle p s.node)
      (hstored'.perm List.perm_append_comm) q
  refine ⟨supply, supply', hsupply, fun k hissued => ?_, hfailure, hfailure',
    hstored''.perm List.perm_append_comm, fun x hx hx' => ?_⟩
  · exact hsupply' k ((Stays.apply h p s.node).issued hissued)
  · rw [hother' x hx', hother x hx]
    by_cases hs : x ∈ s.places <;> by_cases hr : x ∈ r.places <;> simp [hs, hr]

/-- A node with its parent and what is below it. -/
def site (t : Tree) (h : Handle) : Site := ⟨t.parent? h, h, t.kindOf h, t.region h⟩

theorem stored_site (ht : WellLinked t) {h : Handle} (hlive : t.isLive h = true) :
    Stored t.node? (t.site h).records := by
  simpa [Site.records, Site.tree, site, Rose.records] using stored_region ht hlive

/-- Two nodes of which none is below the other stand side by side. -/
theorem stored_sites (ht : WellLinked t) {a b : Handle} (ha : t.isLive a = true)
    (hb : t.isLive b = true) (hab : ¬ Within t.parent? a b) (hba : ¬ Within t.parent? b a) :
    Stored t.node? ((t.site a).records ++ (t.site b).records) := by
  have hsa := stored_site ht ha
  have hsb := stored_site ht hb
  refine ⟨hsa.held.append hsb.held, ?_⟩
  rw [List.map_append, List.nodup_append']
  refine ⟨hsa.nodup, hsb.nodup, fun x hxa hxb => ?_⟩
  rw [Site.map_fst_records, mem_places_iff_within ht hsa.held] at hxa
  rw [Site.map_fst_records, mem_places_iff_within ht hsb.held] at hxb
  exact (hxa.total hxb).elim hab hba

theorem below_site (ht : WellLinked t) {h : Handle} (hlive : t.isLive h = true) :
    (t.site h).Below t.capacity where
  above _ hx := slot_lt_of_isLive (ht.hierarchy.present_of_parent hx).1
  places x hx := by
    have hstored := stored_site ht hlive
    rw [← Site.map_fst_records] at hx
    obtain ⟨e, he, rfl⟩ := List.mem_map.mp hx
    exact slot_lt_of_isLive (isLive_of_node? (hstored.held e he))

/-- Arenas that hold a site and the site under other handles look the same there. -/
theorem node?_of_held_rename {σ : Handle → Handle} (hu : Held u.node? s.records)
    (hv : Held v.node? (s.rename σ).records) (hx : x ∈ s.places) :
    v.node? (σ x) = (u.node? x).map (Node.rename σ) := by
  rw [← Site.map_fst_records] at hx
  obtain ⟨e, he, rfl⟩ := List.mem_map.mp hx
  have hrenamed : Prod.map σ (Node.rename σ) e ∈ (s.rename σ).records := by
    rw [Site.records_rename]
    exact List.mem_map_of_mem he
  rw [hu e he, Option.map_some]
  exact hv _ hrenamed

/-- A node names nodes that are there, so it is the same under handles that keep those. -/
theorem rename_node?_eq_self (ht : WellLinked t) {σ : Handle → Handle}
    (hσ : ∀ x, t.Issued x → σ x = x) : (t.node? x).map (Node.rename σ) = t.node? x := by
  cases hn : t.node? x with
  | none => rfl
  | some n =>
    obtain ⟨kind, parent, children⟩ := n
    have hparent : parent.map σ = parent := by
      cases parent with
      | none => rfl
      | some p =>
        have hp : t.parent? x = some p := parent?_of_node? hn
        exact congrArg some (hσ p (issued_of_isLive (ht.hierarchy.present_of_parent hp).1))
    have hchildren : children.map σ = children := by
      refine (List.map_congr_left fun c hc => ?_).trans (List.map_id children)
      have hc' : c ∈ t.children x := by rwa [children_of_node? hn]
      exact hσ c (issued_of_isLive (isLive_of_parent? (ht.mem_children_iff.mp hc')))
    rw [Option.map_some, Node.rename, hparent, hchildren]

theorem node?_of_not_issued (hx : ¬ t.Issued x) : t.node? x = none := by
  rw [← Option.not_isSome_iff_eq_none]
  exact fun hlive => hx (issued_of_isLive hlive)

/-- Two trees that came from one are the same up to a renaming that keeps its handles, when they
hold the same sites up to the renaming, and beside the sites the same of what there was. -/
theorem node?_of_stored_rename (ht : WellLinked t) {σ : Equiv.Perm Handle}
    (hσ : ∀ x, t.Issued x → σ x = x) {gone : Handle → Prop} [DecidablePred gone]
    (hu : Stored u.node? (s.records ++ r.records))
    (hv : Stored v.node? ((r.rename σ).records ++ (s.rename σ).records))
    (hbeside : ∀ x, x ∉ s.places → x ∉ r.places →
      u.node? x = if gone x then none else t.node? x)
    (hbeside' : ∀ x, x ∉ (r.rename σ).places → x ∉ (s.rename σ).places →
      v.node? x = if gone x then none else t.node? x) (x : Handle) :
    v.node? (σ x) = (u.node? x).map (Node.rename σ) := by
  by_cases hxs : x ∈ s.places
  · exact node?_of_held_rename hu.held.left hv.held.right hxs
  by_cases hxr : x ∈ r.places
  · exact node?_of_held_rename hu.held.right hv.held.left hxr
  have houtside : ∀ {s : Site}, x ∉ s.places → σ x ∉ (s.rename σ).places := by
    intro s hx hmem
    rw [Site.places_rename, List.mem_map_of_injective σ.injective] at hmem
    exact hx hmem
  rw [hbeside x hxs hxr, hbeside' (σ x) (houtside hxr) (houtside hxs)]
  by_cases hx : t.Issued x
  · rw [hσ x hx]
    split
    · rfl
    · exact (rename_node?_eq_self ht hσ).symm
  · have hσx : ¬ t.Issued (σ x) := fun hissued => hx (σ.injective (hσ _ hissued) ▸ hissued)
    rw [node?_of_not_issued hx, node?_of_not_issued hσx, ite_self, ite_self]
    rfl

/-- The one tree is the other under other handles. -/
structure SameUpTo (σ : Equiv.Perm Handle) (u v : Tree) : Prop where
  node? : ∀ x, v.node? (σ x) = (u.node? x).map (Node.rename σ)
  running : u.running = false ∧ v.running = false
  frames : u.frames = [] ∧ v.frames = []

/-- Patches that are replayed into two nodes of which none is below the other may be replayed in
either order. Each replay goes through or is refused in the same way, and the trees that come out
are the same, up to a renaming that keeps all handles given out before. -/
theorem Reachable.apply_comm (h : Reachable t) (hidle : t.running = false) {a b : Handle}
    (ha : t.isLive a = true) (hb : t.isLive b = true) (hab : ¬ Within t.parent? a b)
    (hba : ¬ Within t.parent? b a) (p q : Patch) :
    ∃ σ : Equiv.Perm Handle, (∀ x, t.Issued x → σ x = x) ∧
      (p.apply a (q.apply b t).state).failure = (p.apply a t).failure.map (Error.rename σ) ∧
      (q.apply b t).failure = (q.apply b (p.apply a t).state).failure.map (Error.rename σ) ∧
      SameUpTo σ (q.apply b (p.apply a t).state).state (p.apply a (q.apply b t).state).state := by
  have ht := h.wellLinked
  have hstored := stored_sites ht ha hb hab hba
  obtain ⟨f, g, hf, hg, hpfails, hqfails, hu, hother⟩ := apply_apply_beside h hidle hstored p q
  obtain ⟨g', f', hg', hf', hqfails', hpfails', hv, hother'⟩ :=
    apply_apply_beside h hidle (hstored.perm List.perm_append_comm) q p
  have hsa := below_site ht ha
  have hsb := below_site ht hb
  have hnodup := hu.nodup
  have hnodup' := hv.nodup
  rw [List.map_append, Site.map_fst_records, Site.map_fst_records] at hnodup hnodup'
  rw [List.nodup_append_comm] at hnodup'
  -- Each of the replays does the same in both orders, up to its supply.
  rw [Site.places_replay hsa f, Site.places_replay hsb g] at hnodup
  rw [Site.places_replay hsa f', Site.places_replay hsb g'] at hnodup'
  obtain ⟨σ, hσa, hσb, hold⟩ := exists_perm_assign hf hg hf' hg' hnodup hnodup'
  have habove : ∀ c, ∀ x ∈ t.parent? c, σ x = x := fun c x hx =>
    hold x (issued_of_isLive (ht.hierarchy.present_of_parent hx).1)
  have hpa := Site.replay_eq_rename hsa hσa (habove a)
  have hqb := Site.replay_eq_rename hsb hσb (habove b)
  rw [hpa, hqb] at hv hother'
  rw [hpa] at hpfails'
  rw [hqb] at hqfails'
  have hidle' := apply_running (apply_running hidle p a) q b
  have hidle'' := apply_running (apply_running hidle q b) p a
  refine ⟨σ, hold, ?_, ?_, node?_of_stored_rename ht hold hu hv hother ?_, ⟨hidle', hidle''⟩,
    ((h.apply p a).apply q b).frames_eq_nil_iff.mpr hidle',
    ((h.apply q b).apply p a).frames_eq_nil_iff.mpr hidle''⟩
  · exact hpfails'.trans (congrArg (Option.map (Error.rename σ)) hpfails.symm)
  · exact hqfails'.trans (congrArg (Option.map (Error.rename σ)) hqfails.symm)
  · intro x hx hx'
    rw [if_congr or_comm rfl rfl]
    exact hother' x hx hx'

/-- What is within a node is read off the ways up. -/
theorem within_iff_mem_ancestors (ht : WellLinked t) {a : Handle} :
    Within t.parent? x a ↔ a = x ∨ a ∈ t.ancestors x := by
  rw [mem_ancestors_iff ht]
  exact Relation.reflTransGen_iff_eq_or_transGen

/-- The patch of the one list replaces a text by an element, and that of the other one makes a
text and is refused a close. Where the element comes first, the text is made in the slot of the
text that went; where it comes last, all are in slots of their own. -/
theorem apply_comm_freed_slot :
    let t := Tree.new.run [.createElement "ul", .appendChild .root ⟨1, 0⟩, .createElement "ol",
      .appendChild .root ⟨2, 0⟩, .createText "x", .appendChild ⟨1, 0⟩ ⟨3, 0⟩]
    let p : Patch := ⟨[.openTag "li" (.explicit "k") [], .closeTag "li"]⟩
    let q : Patch := ⟨[.text "y", .closeTag "ol"]⟩
    let u := (q.apply ⟨2, 0⟩ (p.apply ⟨1, 0⟩ t).state).state
    let v := (p.apply ⟨1, 0⟩ (q.apply ⟨2, 0⟩ t).state).state
    (u.children ⟨1, 0⟩ = [⟨4, 0⟩] ∧ u.children ⟨2, 0⟩ = [⟨3, 1⟩]) ∧
      (v.children ⟨1, 0⟩ = [⟨5, 0⟩] ∧ v.children ⟨2, 0⟩ = [⟨4, 0⟩]) ∧
      (q.apply ⟨2, 0⟩ t).failure = some (.unbalancedClose "ol") ∧
      ∃ σ : Equiv.Perm Handle, (∀ x, t.Issued x → σ x = x) ∧ SameUpTo σ u v := by
  intro t p q u v
  have ht : Reachable t := Reachable.new.run _
  obtain ⟨σ, hold, -, -, hsame⟩ := ht.apply_comm (by decide) (a := ⟨1, 0⟩) (b := ⟨2, 0⟩) (by decide)
    (by decide) (mt (within_iff_mem_ancestors ht.wellLinked).mp (by decide))
    (mt (within_iff_mem_ancestors ht.wellLinked).mp (by decide)) p q
  exact ⟨by decide, by decide, by decide, σ, hold, hsame⟩

end Tree

end LiveMarkup.Live
