import LiveMarkup.Live.Run
import LiveMarkup.Proofs.Live.Simulation

/-!
# The trees below a node

The links of a live tree describe the trees below each of its nodes, and the arena holds
what they describe (`stored_region`). The other way round, trees that the arena holds below
a node are the content of that node, whatever else there is.
-/

namespace LiveMarkup.Live.Tree

open Rose (place recordsAll)

variable {t : Tree} {target : Handle} {above : Option Handle}

/-- The trees below a node, each of their nodes with its handle. -/
def region (t : Tree) (h : Handle) : Branches :=
  Rose.mapAll (fun x => (x, t.kindOf x)) (t.forest h)

theorem kindOf_of_node? {h : Handle} {n : Node} (hn : t.node? h = some n) :
    t.kindOf h = n.kind := by
  rw [kindOf, hn]
  rfl

theorem node?_eq_of_isLive {h : Handle} (hlive : t.isLive h = true) :
    t.node? h = some ⟨t.kindOf h, t.parent? h, t.children h⟩ := by
  obtain ⟨n, hn⟩ := node?_of_isLive hlive
  rw [kindOf_of_node? hn, parent?_of_node? hn, children_of_node? hn, hn]

/-- The arena holds a node with the trees below it. -/
theorem stored_region (ht : WellLinked t) {h : Handle} (hlive : t.isLive h = true) :
    Stored t.node? (Rose.records Node.mk (t.parent? h) (.node (h, t.kindOf h) (t.region h))) :=
  ht.hierarchy.stored_unfold node?_eq_of_isLive hlive

/-- There is a slot for each record. -/
theorem length_le_capacity_of_stored {records : List (Handle × Node)}
    (h : Stored t.node? records) : records.length ≤ t.capacity := by
  rw [← List.length_map Prod.fst]
  refine length_le_capacity h.nodup fun x hx => ?_
  obtain ⟨e, he, rfl⟩ := List.mem_map.mp hx
  exact isLive_of_node? (h.held e he)

/-- The content of a node is given by that of its children. -/
theorem content_eq_map (ht : WellLinked t) (h : Handle) :
    t.content h = (t.children h).map fun c => .node (t.kindOf c) (t.content c) := by
  rw [content, forest, Rose.mapAll_eq_map, List.map_map]
  refine List.map_congr_left fun c _ => ?_
  rw [Function.comp_apply, Rose.unfold_eq (ht.hierarchy.settled c)]
  rfl

theorem reads (t : Tree) : Reads Node.mk t.node? t.children t.kindOf where
  below hn := children_of_node? hn
  kindOf hn := kindOf_of_node? hn

theorem content_of_held (ht : WellLinked t) {kind : Kind} {region : Branches}
    (hheld : Held t.node? (Rose.records Node.mk above (.node (target, kind) region))) :
    t.content target = Rose.mapAll Prod.snd region := by
  have hn := hheld _ List.mem_cons_self
  have hchildren := children_of_node? hn
  rw [content, forest, hchildren]
  refine t.reads.mapAll_unfold region hheld.tail ?_
  exact fun b _ => ht.hierarchy.settled b

end LiveMarkup.Live.Tree
