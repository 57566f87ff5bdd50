import LiveMarkup.Proofs.Fragment.Linked

/-!
# Going through a fragment

The nodes of a fragment are gone through with a stack: the node on top is taken off, and its
children are put on in its place, the first one on top. Nothing in such a step says that it comes to
an end, or that it meets a node only once, and since nodes are added anywhere, the indices that are
met are in no order.

That the stack runs empty is shown along the document order itself, which is a relation between
siblings and all that is met within them (`InOrder`). It has no bound either, but it has finite
derivations. The links of a grown fragment give one, because they form a forest.
-/

namespace LiveMarkup.Fragment

variable {t : Fragment} {ids more stack : List Nat}

/-- Takes the node on top of a stack, the last of the list, and puts its children on. -/
def pop? (t : Fragment) (stack : List Nat) : Option (Nat × List Nat) :=
  stack.getLast?.map fun id => (id, stack.dropLast ++ (t.children id).reverse)

/-- Taking nodes from the stack comes to an end, and these are the nodes that are taken. -/
inductive Pops (t : Fragment) : List Nat → List Nat → Prop
  | done {stack : List Nat} : t.pop? stack = none → Pops t stack []
  | next {stack rest ids : List Nat} {id : Nat} :
      t.pop? stack = some (id, rest) → Pops t rest ids → Pops t stack (id :: ids)

/-- These are the nodes within some siblings in document order: each of the siblings in front of the
nodes within its children, and those in front of the next sibling. -/
inductive InOrder (t : Fragment) : List Nat → List Nat → Prop
  | nil : InOrder t [] []
  | cons {id : Nat} {rest below after : List Nat} : InOrder t (t.children id) below →
      InOrder t rest after → InOrder t (id :: rest) (id :: (below ++ after))

theorem pop?_concat (t : Fragment) (stack : List Nat) (id : Nat) :
    t.pop? (stack ++ [id]) = some (id, stack ++ (t.children id).reverse) := by
  simp [pop?]

/-- From a stack only one list of nodes is taken. -/
theorem Pops.unique (h : Pops t stack ids) (h' : Pops t stack more) : ids = more := by
  induction h generalizing more with
  | done hnone =>
    cases h' with
    | done _ => rfl
    | next hsome _ =>
      rw [hnone] at hsome
      cases hsome
  | next hsome _ ih =>
    cases h' with
    | done hnone =>
      rw [hnone] at hsome
      cases hsome
    | next hsome' hrest =>
      rw [hsome, Option.some_inj] at hsome'
      cases hsome'
      rw [ih hrest]

/-- Siblings on top of a stack are taken with all that is within them, before anything else. -/
theorem InOrder.pops {siblings : List Nat} (h : InOrder t siblings ids)
    (hmore : Pops t stack more) : Pops t (stack ++ siblings.reverse) (ids ++ more) := by
  induction h generalizing stack more with
  | nil => simpa using hmore
  | @cons id rest below after _ _ ihbelow ihafter =>
    have hrest := ihbelow (ihafter hmore)
    rw [← List.append_assoc] at hrest
    rw [List.reverse_cons, ← List.append_assoc]
    exact .next (pop?_concat t _ id) hrest

/-- Trees that are unfolded all the way down show their nodes in document order. -/
theorem inOrder_unfold (t : Fragment) {depth : Nat} {siblings : List Nat}
    (h : ∀ id ∈ siblings, Rose.Settled t.children depth id) :
    InOrder t siblings (Rose.preorderAll (siblings.map (Rose.unfold t.children depth))) := by
  induction depth generalizing siblings with
  | zero =>
    induction siblings with
    | nil => exact .nil
    | cons id rest ih =>
      have hnone : t.children id = [] := h id List.mem_cons_self
      have hrest := ih fun c hc => h c (List.mem_cons_of_mem _ hc)
      have hbelow : InOrder t (t.children id) [] := by rw [hnone]; exact .nil
      exact .cons hbelow hrest
  | succ depth ihdepth =>
    induction siblings with
    | nil => exact .nil
    | cons id rest ih =>
      have hbelow : ∀ c ∈ t.children id, Rose.Settled t.children depth c :=
        h id List.mem_cons_self
      have hrest := ih fun c hc => h c (List.mem_cons_of_mem _ hc)
      exact .cons (ihdepth hbelow) hrest

namespace Linked

theorem preorder_eq_preorderAll (ht : Linked t) : t.preorder = Rose.preorderAll t.forest := by
  rw [ht.preorder_eq, Rose.places, region, Rose.preorderAll_mapAll, List.map_map]
  exact List.map_id _

theorem inOrder_preorder (ht : Linked t) :
    InOrder t (t.children Fragment.root) t.preorder := by
  rw [ht.preorder_eq_preorderAll]
  exact t.inOrder_unfold fun id _ => ht.hierarchy.settled id

/-- All nodes but the root are met, each of them once. -/
theorem perm_preorder (ht : Linked t) : t.preorder.Perm (List.range' 1 (t.size - 1)) := by
  have hnodup : t.preorder.Nodup := by
    rw [ht.preorder_eq_preorderAll]
    exact ht.hierarchy.nodup_preorderAll t.size (ht.nodup_children Fragment.root)
      fun c hc => ht.mem_children_iff.mp hc
  refine (List.perm_ext_iff_of_nodup hnodup List.nodup_range').mpr fun id => ?_
  have hroot : Fragment.root = 0 := rfl
  have hpos := ht.root_lt_size
  rw [ht.mem_preorder_iff, List.mem_range'_1]
  omega

/-- A node other than the root is once among the children of its parent, and nowhere else. -/
theorem count_children (ht : Linked t) {id p : Nat} (hparent : t.parent? id = some p) (q : Nat) :
    (t.children q).count id = if q = p then 1 else 0 := by
  split
  · next hq =>
    exact List.count_eq_one_of_mem (ht.nodup_children q) (ht.mem_children_iff.mpr (hq ▸ hparent))
  · next hq =>
    refine List.count_eq_zero.mpr fun hmem => hq ?_
    rw [ht.mem_children_iff, hparent, Option.some_inj] at hmem
    exact hmem.symm

end Linked

/-- However a fragment is grown, it is one tree. Its only root is the node with index 0, which alone
has no parent. Every other node stands once in the list of children of its parent, which has a
smaller index, and in no other list. Only the root and tags have children. The stack of a traversal
runs empty, and what is taken from it are all nodes but the root, each of them once and in document
order. -/
theorem Grown.tree_and_traversal (h : Grown t) :
    (∀ id, t.kind? id = some .root ↔ id = root) ∧
    (∀ id < t.size, t.parent? id = none ↔ id = root) ∧
    (∀ id < t.size, id ≠ root → ∃ p < id, t.parent? id = some p ∧
      ∀ q, (t.children q).count id = if q = p then 1 else 0) ∧
    (∀ q, ∀ id ∈ t.children q, id < t.size ∧ id ≠ root) ∧
    (∀ q, t.children q ≠ [] → ∃ kind, t.kind? q = some kind ∧ kind.isContainer = true) ∧
    (∀ ids, Pops t (t.children root).reverse ids ↔ ids = t.preorder) ∧
    InOrder t (t.children root) t.preorder ∧
    t.preorder.Perm (List.range' 1 (t.size - 1)) := by
  have ht := h.linked
  obtain ⟨children, hroot⟩ := ht.root
  refine ⟨fun id => ⟨ht.eq_root, ?_⟩, fun id hid => ⟨ht.parent?_eq_none hid, ?_⟩,
    fun id hid hne => ?_, fun q id hmem => (ht.of_mem_children hmem).2, fun q hne => ?_,
    fun ids => ?_, ht.inOrder_preorder, ht.perm_preorder⟩
  · rintro rfl
    exact kind?_of_node? hroot
  · rintro rfl
    exact parent?_of_node? hroot
  · obtain ⟨p, hp⟩ := Option.ne_none_iff_exists'.mp fun hnone => hne (ht.parent?_eq_none hid hnone)
    exact ⟨p, ht.lt_of_parent? hp, hp, ht.count_children hp⟩
  · obtain ⟨c, hc⟩ := List.exists_mem_of_ne_nil _ hne
    exact (Option.any_eq_true _ _).mp (ht.isContainerAt (ht.mem_children_iff.mp hc))
  · have hpops := @InOrder.pops t t.preorder [] [] _ ht.inOrder_preorder (.done rfl)
    rw [List.nil_append, List.append_nil] at hpops
    constructor
    · exact fun h => h.unique hpops
    · rintro rfl
      exact hpops

/-- A list whose second item is added when there is something behind the list already. Its index is
larger than that of what follows it in document order. -/
theorem Grown.tree_and_traversal_out_of_order :
    let t : Fragment := ⟨#[⟨.root, none, [1, 3]⟩, ⟨.tag "ul" [], some 0, [2, 4]⟩,
      ⟨.tag "li" [], some 1, []⟩, ⟨.text "\n", some 0, []⟩, ⟨.tag "li" [], some 1, []⟩]⟩
    Grown t ∧ t.preorder = [1, 2, 4, 3] ∧ Pops t [3, 1] [1, 2, 4, 3] ∧
      ∃ p < 4, t.parent? 4 = some p ∧ ∀ q, (t.children q).count 4 = if q = p then 1 else 0 := by
  intro t
  have hgrown : Grown t := by
    have hul := @Grown.append _ _ 0 1 (.tag "ul" []) .empty rfl
    have hfirst := @Grown.append _ _ 1 2 (.tag "li" []) hul rfl
    have htext := @Grown.appendText _ _ 0 (some 3) "\n" hfirst rfl
    exact @Grown.append _ t 1 4 (.tag "li" []) htext rfl
  obtain ⟨-, -, hchild, -, -, hpops, -, -⟩ := hgrown.tree_and_traversal
  exact ⟨hgrown, rfl, (hpops _).mpr rfl, hchild 4 (by decide) (by decide)⟩

end LiveMarkup.Fragment
