import LiveMarkup.Walk

/-!
# Rose trees

A rose tree is what the links of an arena describe when they are followed down from a
place. Recursion on rose trees and walks over a work list are two ways to go through the
same nodes: `walk_eq_preorder` says that a walk which is allowed enough steps yields what
its visits yield at the nodes of the unfolded trees, in preorder.
-/

namespace LiveMarkup

/-- A tree whose nodes have any number of branches, in order. -/
inductive Rose (α : Type) where
  | node (label : α) (branches : List (Rose α))

namespace Rose

variable {α β : Type}

/-- The label at the top of a tree. -/
def label : Rose α → α
  | .node a _ => a

@[simp] theorem label_node (a : α) (branches : List (Rose α)) :
    (Rose.node a branches).label = a := rfl

mutual

/-- The labels of a tree, each before those of its branches. -/
def preorder : Rose α → List α
  | .node a branches => a :: preorderAll branches

/-- The labels of some trees, tree by tree. -/
def preorderAll : List (Rose α) → List α
  | [] => []
  | r :: rest => preorder r ++ preorderAll rest

end

mutual

/-- Relabels a tree. -/
def map (f : α → β) : Rose α → Rose β
  | .node a branches => .node (f a) (mapAll f branches)

/-- Relabels some trees. -/
def mapAll (f : α → β) : List (Rose α) → List (Rose β)
  | [] => []
  | r :: rest => map f r :: mapAll f rest

end

/-- The tree below a place of an arena, down to the given depth. -/
def unfold (below : α → List α) : (depth : Nat) → α → Rose α
  | 0, a => .node a []
  | depth + 1, a => .node a ((below a).map (unfold below depth))

/-- Nothing lies deeper than `depth` levels below the place. -/
def Settled (below : α → List α) : (depth : Nat) → α → Prop
  | 0, a => below a = []
  | depth + 1, a => ∀ b ∈ below a, Settled below depth b

theorem mapAll_eq_map (f : α → β) (l : List (Rose α)) : mapAll f l = l.map (map f) := by
  induction l with
  | nil => rfl
  | cons r rest ih => rw [mapAll, ih, List.map_cons]

theorem mapAll_append (f : α → β) (l m : List (Rose α)) :
    mapAll f (l ++ m) = mapAll f l ++ mapAll f m := by
  rw [mapAll_eq_map, List.map_append, mapAll_eq_map, mapAll_eq_map]

@[simp] theorem label_map (f : α → β) (r : Rose α) : (r.map f).label = f r.label := by
  cases r
  rfl

theorem preorderAll_append (l m : List (Rose α)) :
    preorderAll (l ++ m) = preorderAll l ++ preorderAll m := by
  induction l with
  | nil => rfl
  | cons r rest ih => simp [preorderAll, ih]

theorem preorderAll_eq_flatMap (l : List (Rose α)) : preorderAll l = l.flatMap preorder := by
  induction l with
  | nil => rfl
  | cons r rest ih => rw [preorderAll, ih, List.flatMap_cons]

@[simp] theorem label_unfold (below : α → List α) (depth : Nat) (a : α) :
    (unfold below depth a).label = a := by
  cases depth <;> rfl

mutual

theorem preorder_map (f : α → β) : ∀ r : Rose α, preorder (r.map f) = (preorder r).map f
  | .node a branches => by
    rw [map, preorder, preorderAll_mapAll, preorder, List.map_cons]

theorem preorderAll_mapAll (f : α → β) :
    ∀ l : List (Rose α), preorderAll (mapAll f l) = (preorderAll l).map f
  | [] => rfl
  | r :: rest => by
    rw [mapAll, preorderAll, preorder_map, preorderAll_mapAll, preorderAll, List.map_append]

end

mutual

/-- What a relabelling does to other labels makes no difference. -/
theorem map_congr {f g : α → β} : ∀ r : Rose α, (∀ a ∈ preorder r, f a = g a) → r.map f = r.map g
  | .node a branches => by
    intro hsame
    rw [map, map, hsame a (by simp [preorder]),
      mapAll_congr branches fun b hb => hsame b (by simp [preorder, hb])]

theorem mapAll_congr {f g : α → β} :
    ∀ l : List (Rose α), (∀ a ∈ preorderAll l, f a = g a) → mapAll f l = mapAll g l
  | [] => fun _ => rfl
  | r :: rest => by
    intro hsame
    rw [mapAll, mapAll, map_congr r fun a ha => hsame a (by simp [preorderAll, ha]),
      mapAll_congr rest fun a ha => hsame a (by simp [preorderAll, ha])]

end

mutual

theorem map_map {γ : Type} (f : α → β) (g : β → γ) :
    ∀ r : Rose α, (r.map f).map g = r.map (g ∘ f)
  | .node a branches => by
    rw [map, map, map, mapAll_mapAll f g]
    rfl

theorem mapAll_mapAll {γ : Type} (f : α → β) (g : β → γ) :
    ∀ l : List (Rose α), mapAll g (mapAll f l) = mapAll (g ∘ f) l
  | [] => rfl
  | r :: rest => by rw [mapAll, mapAll, mapAll, map_map f g, mapAll_mapAll f g]

end

mutual

theorem map_id : ∀ r : Rose α, r.map id = r
  | .node a branches => by
    rw [map, mapAll_id]
    rfl

theorem mapAll_id : ∀ l : List (Rose α), mapAll id l = l
  | [] => rfl
  | r :: rest => by rw [mapAll, map_id, mapAll_id]

end

theorem Settled.succ {below : α → List α} {depth : Nat} {a : α} (h : Settled below depth a) :
    Settled below (depth + 1) a := by
  induction depth generalizing a with
  | zero =>
    intro b hb
    rw [Settled] at h
    rw [h] at hb
    cases hb
  | succ depth ih => exact fun b hb => ih (h b hb)

/-- The places below a settled place are settled as well. -/
theorem Settled.of_mem {below : α → List α} {depth : Nat} {a b : α}
    (h : Settled below depth a) (hb : b ∈ below a) : Settled below depth b := by
  cases depth with
  | zero =>
    rw [Settled] at h
    rw [h] at hb
    cases hb
  | succ depth => exact (h b hb).succ

/-- Below a settled place there is nothing more to unfold. -/
theorem unfold_succ {below : α → List α} {depth : Nat} {a : α} (h : Settled below depth a) :
    unfold below (depth + 1) a = unfold below depth a := by
  induction depth generalizing a with
  | zero =>
    rw [Settled] at h
    simp [unfold, h]
  | succ depth ih =>
    rw [unfold, unfold]
    congr 1
    exact List.map_congr_left fun b hb => ih (h b hb)

/-- The branches of a settled place are unfolded just as deep as the place itself. -/
theorem unfold_eq {below : α → List α} {depth : Nat} {a : α} (h : Settled below depth a) :
    unfold below depth a = .node a ((below a).map (unfold below depth)) := by
  rw [← unfold_succ h, unfold]

end Rose

/-- A walk yields what its visits yield at the nodes of the trees below its places, in
preorder, when the trees are settled and the steps suffice for all their nodes. -/
theorem walk_eq_preorder {α β : Type} (visit : α → List β × List α) (depth steps : Nat)
    (places : List α)
    (hsettled : ∀ a ∈ places, Rose.Settled (fun a => (visit a).2) depth a)
    (hsteps : (Rose.preorderAll
      (places.map (Rose.unfold (fun a => (visit a).2) depth))).length ≤ steps) :
    walk visit steps places =
      (Rose.preorderAll (places.map (Rose.unfold (fun a => (visit a).2) depth))).flatMap
        fun a => (visit a).1 := by
  induction steps generalizing places with
  | zero =>
    cases places with
    | nil => rfl
    | cons a rest =>
      rw [List.map_cons, Rose.unfold_eq (hsettled a (by simp))] at hsteps
      simp [Rose.preorderAll, Rose.preorder] at hsteps
  | succ steps ih =>
    cases places with
    | nil => rfl
    | cons a rest =>
      have ha := hsettled a (by simp)
      have hbelow : ∀ b ∈ (visit a).2 ++ rest,
          Rose.Settled (fun a => (visit a).2) depth b := by
        intro b hb
        rcases List.mem_append.1 hb with hb | hb
        · exact ha.of_mem hb
        · exact hsettled b (by simp [hb])
      have hnodes : Rose.preorderAll ((a :: rest).map (Rose.unfold (fun a => (visit a).2) depth)) =
          a :: Rose.preorderAll
            (((visit a).2 ++ rest).map (Rose.unfold (fun a => (visit a).2) depth)) := by
        rw [List.map_cons, Rose.unfold_eq ha, List.map_append, Rose.preorderAll_append]
        rfl
      rw [hnodes] at hsteps ⊢
      simp only [List.length_cons, Nat.add_le_add_iff_right] at hsteps
      rw [walk_succ_cons, ih _ hbelow hsteps, List.flatMap_cons]

end LiveMarkup
