import LiveMarkup.Proofs.Ancestry

/-!
# Trees line by line

An indented text shows a tree with one line for each node, in preorder, and only the indentation
tells which node is below which. That is enough: a tree is determined by its labels in preorder with
the depth of each (`leveledAll_cancel`), because what is below a node goes on up to the next label
that is not deeper. A walk that hands the depth down to the places below meets the nodes in this
order.
-/

namespace LiveMarkup

variable {α β : Type}

/-- If two ways to show some things tell the same of them apart, they tell the same lists apart. -/
theorem map_eq_map_congr {γ : Type} {f : α → β} {g : α → γ} {l m : List α}
    (h : ∀ a ∈ l, ∀ b ∈ m, f a = f b ↔ g a = g b) : l.map f = m.map f ↔ l.map g = m.map g := by
  induction l generalizing m with
  | nil => cases m <;> simp
  | cons a l ih =>
    cases m with
    | nil => simp
    | cons b m =>
      obtain ⟨hhead, htail⟩ := List.forall_mem_cons.mp h
      rw [List.map_cons, List.map_cons, List.map_cons, List.map_cons, List.cons.injEq,
        List.cons.injEq, hhead b List.mem_cons_self,
        ih fun x hx y hy => htail x hx y (List.mem_cons_of_mem _ hy)]

namespace Rose

mutual

/-- The labels of a tree in preorder, each with its depth. -/
def leveled (depth : Nat) : Rose α → List (α × Nat)
  | .node a branches => (a, depth) :: leveledAll (depth + 1) branches

/-- The labels of some trees next to each other, tree by tree. -/
def leveledAll (depth : Nat) : List (Rose α) → List (α × Nat)
  | [] => []
  | r :: rest => leveled depth r ++ leveledAll depth rest

end

mutual

theorem map_fst_leveled : ∀ (r : Rose α) (depth : Nat),
    (leveled depth r).map Prod.fst = preorder r
  | .node a branches, depth => by
    rw [leveled, List.map_cons, map_fst_leveledAll branches, preorder]

theorem map_fst_leveledAll : ∀ (l : List (Rose α)) (depth : Nat),
    (leveledAll depth l).map Prod.fst = preorderAll l
  | [], _ => rfl
  | r :: rest, depth => by
    rw [leveledAll, List.map_append, map_fst_leveled r, map_fst_leveledAll rest, preorderAll]

end

theorem fst_mem_of_mem_leveledAll {l : List (Rose α)} {depth : Nat} {place : α × Nat}
    (h : place ∈ leveledAll depth l) : place.1 ∈ preorderAll l := by
  rw [← map_fst_leveledAll l depth]
  exact List.mem_map_of_mem h

mutual

theorem leveled_map (f : α → β) : ∀ (r : Rose α) (depth : Nat),
    leveled depth (r.map f) = (leveled depth r).map fun x => (f x.1, x.2)
  | .node a branches, depth => by
    rw [map, leveled, leveledAll_mapAll f branches, leveled, List.map_cons]

theorem leveledAll_mapAll (f : α → β) : ∀ (l : List (Rose α)) (depth : Nat),
    leveledAll depth (mapAll f l) = (leveledAll depth l).map fun x => (f x.1, x.2)
  | [], _ => rfl
  | r :: rest, depth => by
    rw [mapAll, leveledAll, leveled_map f r, leveledAll_mapAll f rest, leveledAll, List.map_append]

end

theorem leveledAll_eq_flatMap (depth : Nat) (l : List (Rose α)) :
    leveledAll depth l = l.flatMap (leveled depth) := by
  induction l with
  | nil => rfl
  | cons r rest ih => rw [leveledAll, ih, List.flatMap_cons]

/-- A text goes on at a smaller depth, if it goes on. -/
def Above (depth : Nat) (later : List (α × Nat)) : Prop :=
  ∀ x more, later = x :: more → x.2 < depth

theorem above_nil (depth : Nat) : Above depth ([] : List (α × Nat)) := nofun

/-- Behind a tree there are further trees at its depth, or what is above it. -/
theorem Above.leveledAll {depth : Nat} {later : List (α × Nat)} (h : Above depth later)
    (l : List (Rose α)) : Above (depth + 1) (leveledAll depth l ++ later) := by
  intro x more heq
  cases l with
  | nil => exact Nat.lt_succ_of_lt (h x more heq)
  | cons r rest =>
    obtain ⟨a, branches⟩ := r
    cases (List.cons.inj heq).1
    exact Nat.lt_succ_self depth

mutual

theorem leveled_cancel : ∀ (r s : Rose α) {depth : Nat} {later later' : List (α × Nat)},
    Above (depth + 1) later → Above (depth + 1) later' →
    leveled depth r ++ later = leveled depth s ++ later' → r = s ∧ later = later'
  | .node a branches, .node b branches', depth, later, later' => by
    intro hlater hlater' heq
    rw [leveled, leveled, List.cons_append, List.cons_append, List.cons.injEq, Prod.mk.injEq] at heq
    obtain ⟨⟨rfl, -⟩, heq⟩ := heq
    obtain ⟨rfl, hrest⟩ := leveledAll_cancel branches branches' hlater hlater' heq
    exact ⟨rfl, hrest⟩

/-- Trees are determined by their labels with the depths, and so is what comes behind them higher
up. -/
theorem leveledAll_cancel : ∀ (l m : List (Rose α)) {depth : Nat} {later later' : List (α × Nat)},
    Above depth later → Above depth later' →
    leveledAll depth l ++ later = leveledAll depth m ++ later' → l = m ∧ later = later'
  | [], [], _, _, _ => fun _ _ heq => ⟨rfl, heq⟩
  | [], .node b branches :: rest, depth, later, later' => by
    intro hlater _ heq
    exact absurd (hlater _ _ heq) (Nat.lt_irrefl depth)
  | .node a branches :: rest, [], depth, later, later' => by
    intro _ hlater' heq
    exact absurd (hlater' _ _ heq.symm) (Nat.lt_irrefl depth)
  | r :: rest, s :: rest', depth, later, later' => by
    intro hlater hlater' heq
    rw [leveledAll, leveledAll, List.append_assoc, List.append_assoc] at heq
    obtain ⟨rfl, hbehind⟩ := leveled_cancel r s (hlater.leveledAll rest)
      (hlater'.leveledAll rest') heq
    obtain ⟨rfl, hrest⟩ := leveledAll_cancel rest rest' hlater hlater' hbehind
    exact ⟨rfl, hrest⟩

end

theorem leveledAll_inj {depth : Nat} {l m : List (Rose α)} :
    leveledAll depth l = leveledAll depth m ↔ l = m := by
  refine ⟨fun h => ?_, congrArg (leveledAll depth)⟩
  refine (leveledAll_cancel l m (above_nil depth) (above_nil depth) ?_).1
  rw [List.append_nil, List.append_nil, h]

/-- Trees with labels that are told apart are told apart. -/
theorem mapAll_inj_of_labels {f : α → β} {l m : List (Rose α)}
    (h : ∀ a ∈ preorderAll l, ∀ b ∈ preorderAll m, f a = f b ↔ a = b) :
    mapAll f l = mapAll f m ↔ l = m := by
  rw [← @leveledAll_inj _ 0, leveledAll_mapAll, leveledAll_mapAll, map_eq_map_congr (g := id),
    List.map_id, List.map_id, leveledAll_inj]
  intro a ha b hb
  rw [Prod.mk.injEq, h _ (fst_mem_of_mem_leveledAll ha) _ (fst_mem_of_mem_leveledAll hb)]
  exact Prod.ext_iff.symm

/-- The places below a place that is given with its depth. -/
def deeper (below : α → List α) (place : α × Nat) : List (α × Nat) :=
  (below place.1).map (·, place.2 + 1)

theorem settled_deeper {below : α → List α} {steps : Nat} {a : α} (h : Settled below steps a)
    (depth : Nat) : Settled (deeper below) steps (a, depth) := by
  induction steps generalizing a depth with
  | zero =>
    rw [Settled] at h
    rw [Settled, deeper, h, List.map_nil]
  | succ steps ih =>
    intro b hb
    obtain ⟨c, hc, rfl⟩ := List.mem_map.mp hb
    exact ih (h c hc) (depth + 1)

theorem preorder_deeper (below : α → List α) (steps depth : Nat) (a : α) :
    preorder (unfold (deeper below) steps (a, depth)) = leveled depth (unfold below steps a) := by
  induction steps generalizing a depth with
  | zero => rfl
  | succ steps ih =>
    rw [unfold, preorder, preorderAll_eq_flatMap, deeper, unfold, leveled, leveledAll_eq_flatMap,
      List.flatMap_map, List.flatMap_map, List.flatMap_map]
    exact congrArg _ (List.flatMap_congr fun b _ => ih (depth + 1) b)

theorem preorderAll_deeper (below : α → List α) (steps depth : Nat) (l : List α) :
    preorderAll ((l.map (·, depth)).map (unfold (deeper below) steps)) =
      leveledAll depth (l.map (unfold below steps)) := by
  rw [preorderAll_eq_flatMap, leveledAll_eq_flatMap, List.flatMap_map, List.flatMap_map,
    List.flatMap_map]
  exact List.flatMap_congr fun a _ => preorder_deeper below steps depth a

end Rose

/-- A walk down from siblings that hands the depth down meets what lies within them, line by
line. -/
theorem Hierarchy.walk_deeper {parent : α → Option α} {below : α → List α} {present : α → Prop}
    {size : Nat} (H : Hierarchy parent below present size) {o : Option α} {l : List α}
    (hl : l.Nodup) (hsame : ∀ a ∈ l, parent a = o) (hpresent : ∀ a ∈ l, present a)
    (out : α × Nat → List β) (depth : Nat) :
    walk (fun place => (out place, Rose.deeper below place)) size (l.map (·, depth)) =
      (Rose.leveledAll depth (l.map (Rose.unfold below size))).flatMap out := by
  rw [walk_eq_preorder _ size size, Rose.preorderAll_deeper]
  · rintro _ ha
    obtain ⟨a, -, rfl⟩ := List.mem_map.mp ha
    exact Rose.settled_deeper (H.settled a) depth
  · rw [Rose.preorderAll_deeper, ← List.length_map Prod.fst, Rose.map_fst_leveledAll]
    exact H.length_preorderAll_le hl hsame hpresent

end LiveMarkup
