import LiveMarkup.Rose
import Mathlib.Data.List.Nodup
import Mathlib.Logic.Relation

/-!
# Ancestry

The places of an arena are linked twice: each has a list of places below it, and a place
below knows its parent. When the two agree, no place is listed twice, and the way up from
each place ends, the links form a forest (`Hierarchy`). Then the places below a given one
can be unfolded to a finite tree without repetition, and a walk down meets each of them
exactly once.

Nothing here depends on what a place is. Both kinds of tree in this library are arenas.
-/

namespace LiveMarkup

variable {α : Type} {parent parent' : α → Option α} {below : α → List α}

/-- Following the parents up from a place comes to an end. -/
inductive Grounded (parent : α → Option α) : α → Prop where
  | top {a : α} : parent a = none → Grounded parent a
  | step {a p : α} : parent a = some p → Grounded parent p → Grounded parent a

/-- `x` is `a` or lies below it. -/
abbrev Within (parent : α → Option α) (x a : α) : Prop :=
  Relation.ReflTransGen (fun c p => parent c = some p) x a

/-- `x` lies below `a`. -/
abbrev Under (parent : α → Option α) (x a : α) : Prop :=
  Relation.TransGen (fun c p => parent c = some p) x a

theorem Grounded.not_under_self {a : α} (h : Grounded parent a) : ¬ Under parent a a := by
  induction h with
  | top hnone =>
    intro hu
    obtain ⟨p, hp, _⟩ := Relation.TransGen.head'_iff.mp hu
    rw [hnone] at hp
    cases hp
  | @step a p hparent _ ih =>
    intro hu
    obtain ⟨q, hq, hqa⟩ := Relation.TransGen.head'_iff.mp hu
    rw [hparent, Option.some_inj] at hq
    subst hq
    exact ih (Relation.TransGen.tail' hqa hparent)

/-- Of two places above the same place one is above the other. -/
theorem Within.total {x a b : α} (ha : Within parent x a) (hb : Within parent x b) :
    Within parent a b ∨ Within parent b a := by
  refine Relation.ReflTransGen.total_of_right_unique ?_ ha hb
  intro c p q hp hq
  exact Option.some_inj.mp (hp.symm.trans hq)

theorem Within.eq_of_top {x a : α} (h : Within parent x a) (hx : parent x = none) : x = a := by
  rcases Relation.ReflTransGen.cases_head h with rfl | ⟨p, hp, _⟩
  · rfl
  · rw [hx] at hp
    cases hp

theorem Within.mono {x a : α} (hmono : ∀ c p, parent' c = some p → parent c = some p)
    (h : Within parent' x a) : Within parent x a :=
  Relation.ReflTransGen.mono hmono x a h

/-- No place lies below two siblings. -/
theorem Within.sibling_eq {x a b : α} (hground : ∀ a, Grounded parent a)
    (ha : Within parent x a) (hb : Within parent x b) (hsame : parent a = parent b) :
    a = b := by
  have hcase : ∀ a b, parent a = parent b → Within parent a b → a = b := by
    intro a b hsame hab
    rcases Relation.ReflTransGen.cases_head hab with rfl | ⟨p, hp, hpb⟩
    · rfl
    · have hb : parent b = some p := hsame.symm.trans hp
      exact absurd (Relation.TransGen.tail' hpb hb) (hground p).not_under_self
  rcases ha.total hb with hab | hba
  · exact hcase a b hsame hab
  · exact (hcase b a hsame.symm hba).symm

/-- Cutting links keeps the ways up finite. -/
theorem Grounded.cut {a : α} (h : Grounded parent a)
    (hcut : ∀ x, parent' x = none ∨ parent' x = parent x) : Grounded parent' a := by
  induction h with
  | @top a hnone =>
    rcases hcut a with ha | ha
    · exact .top ha
    · exact .top (ha.trans hnone)
  | @step a p hparent _ ih =>
    rcases hcut a with ha | ha
    · exact .top ha
    · exact .step (ha.trans hparent) ih

/-- Putting a place below another one that is not below it keeps the ways up finite. -/
theorem Grounded.move {c p a : α} (hground : ∀ a, Grounded parent a)
    (hc : parent' c = some p) (hother : ∀ x, x ≠ c → parent' x = parent x)
    (hpc : ¬ Within parent p c) : Grounded parent' a := by
  -- The way up from the new parent never meets the place that is moved.
  have hparent : ∀ x, Grounded parent x → ¬ Within parent x c → Grounded parent' x := by
    intro x hx
    induction hx with
    | @top x hnone =>
      intro hxc
      exact .top ((hother x (fun e => hxc (e ▸ .refl))).trans hnone)
    | @step x q hq _ ih =>
      intro hxc
      refine .step ((hother x (fun e => hxc (e ▸ .refl))).trans hq) (ih fun hqc => ?_)
      exact hxc (.head hq hqc)
  by_cases hac : Within parent a c
  · induction hac using Relation.ReflTransGen.head_induction_on with
    | refl => exact .step hc (hparent p (hground p) hpc)
    | @head a q hq _ ih =>
      by_cases ha : a = c
      · subst ha
        exact .step hc (hparent p (hground p) hpc)
      · exact .step ((hother a ha).trans hq) ih
  · exact hparent a (hground a) hac

/-- The two kinds of links agree and form a forest of at most `size` places. -/
structure Hierarchy (parent : α → Option α) (below : α → List α) (present : α → Prop)
    (size : Nat) : Prop where
  mem_below_iff : ∀ {a b}, b ∈ below a ↔ parent b = some a
  nodup_below : ∀ a, (below a).Nodup
  grounded : ∀ a, Grounded parent a
  present_of_parent : ∀ {a b}, parent b = some a → present a ∧ present b
  length_le : ∀ l : List α, l.Nodup → (∀ a ∈ l, present a) → l.length ≤ size

namespace Hierarchy

variable {present : α → Prop} {size : Nat}

/-- The order in which the places below a place are listed does not matter. -/
theorem reverse (H : Hierarchy parent below present size) :
    Hierarchy parent (fun a => (below a).reverse) present size where
  mem_below_iff := by
    intro a b
    rw [List.mem_reverse]
    exact H.mem_below_iff
  nodup_below a := List.nodup_reverse.mpr (H.nodup_below a)
  grounded := H.grounded
  present_of_parent := H.present_of_parent
  length_le := H.length_le

/-- Places that are present, each below all that follow it. -/
private structure Way (parent : α → Option α) (present : α → Prop) (way : List α) : Prop where
  under : way.Pairwise (Under parent)
  present : ∀ x ∈ way, present x

private theorem Way.extend (H : Hierarchy parent below present size) {a b : α} {way : List α}
    (hway : Way parent present (a :: way)) (hb : b ∈ below a) :
    Way parent present (b :: a :: way) := by
  have hparent := H.mem_below_iff.mp hb
  refine ⟨List.pairwise_cons.mpr ⟨fun x hx => ?_, hway.under⟩, fun x hx => ?_⟩
  · rcases List.mem_cons.mp hx with rfl | hx
    · exact .single hparent
    · exact .head hparent ((List.pairwise_cons.mp hway.under).1 x hx)
  · rcases List.mem_cons.mp hx with rfl | hx
    · exact (H.present_of_parent hparent).2
    · exact hway.present x hx

private theorem Way.length_le (H : Hierarchy parent below present size) {way : List α}
    (hway : Way parent present way) : way.length ≤ size := by
  refine H.length_le way (hway.under.imp ?_) hway.present
  rintro a b hab rfl
  exact (H.grounded a).not_under_self hab

/-- The longer the way up from a place, the less can lie below it. -/
private theorem settled_of_way (H : Hierarchy parent below present size) (depth : Nat)
    {a : α} {way : List α} (hway : Way parent present (a :: way))
    (hsize : size ≤ (a :: way).length + depth) : Rose.Settled below depth a := by
  induction depth generalizing a way with
  | zero =>
    rw [Rose.Settled, List.eq_nil_iff_forall_not_mem]
    intro b hb
    have hle := (hway.extend H hb).length_le H
    simp only [List.length_cons] at hle hsize
    omega
  | succ depth ih =>
    intro b hb
    refine ih (hway.extend H hb) ?_
    simp only [List.length_cons] at hsize ⊢
    omega

/-- Below no place the forest is deeper than it has places. -/
theorem settled (H : Hierarchy parent below present size) (a : α) :
    Rose.Settled below size a := by
  by_cases ha : present a
  · have hway : Way parent present [a] := ⟨by simp, by simpa using ha⟩
    exact H.settled_of_way size hway (Nat.le_add_left _ _)
  · have hnone : below a = [] := by
      rw [List.eq_nil_iff_forall_not_mem]
      intro b hb
      exact ha (H.present_of_parent (H.mem_below_iff.mp hb)).1
    cases size with
    | zero => exact hnone
    | succ n =>
      intro b hb
      rw [hnone] at hb
      cases hb

theorem within_of_mem_preorder (H : Hierarchy parent below present size) {depth : Nat}
    {a x : α} (hx : x ∈ Rose.preorder (Rose.unfold below depth a)) : Within parent x a := by
  induction depth generalizing a with
  | zero =>
    simp only [Rose.unfold, Rose.preorder, Rose.preorderAll, List.mem_singleton] at hx
    exact hx ▸ .refl
  | succ depth ih =>
    rw [Rose.unfold, Rose.preorder, Rose.preorderAll_eq_flatMap, List.mem_cons] at hx
    rcases hx with rfl | hx
    · exact .refl
    · obtain ⟨r, hr, hx⟩ := List.mem_flatMap.mp hx
      obtain ⟨b, hb, rfl⟩ := List.mem_map.mp hr
      exact .tail (ih hx) (H.mem_below_iff.mp hb)

/-- Whatever lies within a place is met when the place is unfolded. -/
theorem mem_preorder_of_within (H : Hierarchy parent below present size) {a x : α}
    (hx : Within parent x a) : x ∈ Rose.preorder (Rose.unfold below size a) := by
  induction hx with
  | refl =>
    rw [Rose.unfold_eq (H.settled x), Rose.preorder]
    exact List.mem_cons_self
  | @tail b a _ hparent ih =>
    rw [Rose.unfold_eq (H.settled a), Rose.preorder, Rose.preorderAll_eq_flatMap]
    refine List.mem_cons_of_mem _ (List.mem_flatMap.mpr ⟨_, ?_, ih⟩)
    exact List.mem_map_of_mem (H.mem_below_iff.mpr hparent)

/-- Siblings unfold to trees without a place in common. -/
private theorem nodup_preorderAll_of (H : Hierarchy parent below present size) {depth : Nat}
    (hnodup : ∀ a, (Rose.preorder (Rose.unfold below depth a)).Nodup) {o : Option α}
    {l : List α} (hl : l.Nodup) (hsame : ∀ a ∈ l, parent a = o) :
    (Rose.preorderAll (l.map (Rose.unfold below depth))).Nodup := by
  rw [Rose.preorderAll_eq_flatMap, List.flatMap_map, List.nodup_flatMap]
  refine ⟨fun a _ => hnodup a, hl.imp_of_mem ?_⟩
  intro a b ha hb hab x hxa hxb
  apply hab
  refine Within.sibling_eq H.grounded (H.within_of_mem_preorder hxa)
    (H.within_of_mem_preorder hxb) ?_
  rw [hsame a ha, hsame b hb]

/-- A place unfolds to a tree without repetition. -/
theorem nodup_preorder (H : Hierarchy parent below present size) (depth : Nat) (a : α) :
    (Rose.preorder (Rose.unfold below depth a)).Nodup := by
  induction depth generalizing a with
  | zero => simp [Rose.unfold, Rose.preorder, Rose.preorderAll]
  | succ depth ih =>
    rw [Rose.unfold, Rose.preorder, List.nodup_cons]
    refine ⟨fun hmem => ?_, ?_⟩
    · rw [Rose.preorderAll_eq_flatMap] at hmem
      obtain ⟨r, hr, hx⟩ := List.mem_flatMap.mp hmem
      obtain ⟨b, hb, rfl⟩ := List.mem_map.mp hr
      have hcycle := Relation.TransGen.tail' (H.within_of_mem_preorder hx) (H.mem_below_iff.mp hb)
      exact (H.grounded a).not_under_self hcycle
    · exact H.nodup_preorderAll_of ih (H.nodup_below a) fun b hb => H.mem_below_iff.mp hb

theorem nodup_preorderAll (H : Hierarchy parent below present size) (depth : Nat)
    {o : Option α} {l : List α} (hl : l.Nodup) (hsame : ∀ a ∈ l, parent a = o) :
    (Rose.preorderAll (l.map (Rose.unfold below depth))).Nodup :=
  H.nodup_preorderAll_of (H.nodup_preorder depth) hl hsame

theorem present_of_within (H : Hierarchy parent below present size) {a x : α}
    (hx : Within parent x a) (ha : present a) : present x := by
  rcases Relation.ReflTransGen.cases_head hx with rfl | ⟨p, hp, _⟩
  · exact ha
  · exact (H.present_of_parent hp).2

/-- What places unfold to is present if they are. -/
theorem present_of_mem_preorderAll (H : Hierarchy parent below present size) {depth : Nat}
    {l : List α} (hpresent : ∀ a ∈ l, present a) {x : α}
    (hx : x ∈ Rose.preorderAll (l.map (Rose.unfold below depth))) : present x := by
  rw [Rose.preorderAll_eq_flatMap] at hx
  obtain ⟨r, hr, hx⟩ := List.mem_flatMap.mp hx
  obtain ⟨a, ha, rfl⟩ := List.mem_map.mp hr
  exact H.present_of_within (H.within_of_mem_preorder hx) (hpresent a ha)

/-- Siblings unfold to no more places than there are. -/
theorem length_preorderAll_le (H : Hierarchy parent below present size) {depth : Nat}
    {o : Option α} {l : List α} (hl : l.Nodup) (hsame : ∀ a ∈ l, parent a = o)
    (hpresent : ∀ a ∈ l, present a) :
    (Rose.preorderAll (l.map (Rose.unfold below depth))).length ≤ size :=
  H.length_le _ (H.nodup_preorderAll depth hl hsame)
    fun _ hx => H.present_of_mem_preorderAll hpresent hx

/-- A walk down from siblings meets what lies within them, each place once. -/
theorem walk_eq (H : Hierarchy parent below present size) {o : Option α} {l : List α}
    (hl : l.Nodup) (hsame : ∀ a ∈ l, parent a = o) (hpresent : ∀ a ∈ l, present a) :
    walk (fun a => ([a], below a)) size l =
      Rose.preorderAll (l.map (Rose.unfold below size)) := by
  rw [walk_eq_preorder (fun a => ([a], below a)) size size l (fun a _ => H.settled a)
    (H.length_preorderAll_le hl hsame hpresent)]
  simp

/-- What a walk down from siblings meets. -/
theorem mem_walk_iff (H : Hierarchy parent below present size) {o : Option α} {l : List α}
    (hl : l.Nodup) (hsame : ∀ a ∈ l, parent a = o) (hpresent : ∀ a ∈ l, present a) {x : α} :
    x ∈ walk (fun a => ([a], below a)) size l ↔ ∃ a ∈ l, Within parent x a := by
  rw [H.walk_eq hl hsame hpresent, Rose.preorderAll_eq_flatMap, List.flatMap_map,
    List.mem_flatMap]
  constructor
  · rintro ⟨a, ha, hx⟩
    exact ⟨a, ha, H.within_of_mem_preorder hx⟩
  · rintro ⟨a, ha, hx⟩
    exact ⟨a, ha, H.mem_preorder_of_within hx⟩

end Hierarchy

end LiveMarkup
