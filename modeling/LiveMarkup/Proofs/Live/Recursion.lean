import LiveMarkup.Proofs.Live.Snapshot
import LiveMarkup.Proofs.Loop

/-!
# The walks over a live tree

Markup and snapshots are written by loops over a work list, and both are what recursion writes on
the tree at a node (`Reachable.walks_as_recursions`). The loops end, and each visits every node of
the tree once and in document order.

For markup this needs more than links that form trees. The loop passes over what is below a text or
a void element, and there is nothing only because no call puts anything there. It also stops at each
end tag, so it is allowed two stops for a node.
-/

namespace LiveMarkup.Live.Tree

variable {t : Tree} {h : Handle}

/-- The node that is entered at a stop. -/
def Stop.handle? : Stop → Option Handle
  | .node h => some h
  | .close _ => none

/-- The trees that a snapshot shows: the tree itself, or what is right below the root. -/
def topTrees (h : Handle) (branches : List (Rose Handle)) : List (Rose Handle) :=
  if h = .root then branches else [.node h branches]

/-- What is put in front at a node is its children, and an end tag at most. -/
theorem Serializable.exists_visitMarkup (hs : Serializable t) (h : Handle) :
    ∃ closed : Option String, (t.visitMarkup (.node h)).2 =
      (t.children h).map Stop.node ++ (closed.map Stop.close).toList := by
  cases hn : t.node? h with
  | none => exact ⟨none, by simp [visitMarkup, children, hn]⟩
  | some node =>
    -- The loop does not go on to the children of a text or of a void element. It has none.
    have hleaf := hs.children_eq_nil hn
    rw [children_of_node? hn]
    cases hkind : node.kind with
    | root => exact ⟨none, by simp [visitMarkup, hn, hkind]⟩
    | text content =>
      rw [hleaf (by rw [hkind]; rfl)]
      exact ⟨none, by simp [visitMarkup, hn, hkind]⟩
    | element name key attributes =>
      cases hvoid : Markup.isVoid name with
      | true =>
        rw [hleaf (by simp [hkind, Kind.isContainer, hvoid])]
        exact ⟨none, by simp [visitMarkup, hn, hkind, hvoid]⟩
      | false => exact ⟨some name, by simp [visitMarkup, hn, hkind, hvoid]⟩

theorem exhausts_close (t : Tree) (closed : Option String) : Exhausts t.visitMarkup
    (closed.map Stop.close).toList (closed.map Stop.close).toList (closed.map endTag).toList := by
  cases closed with
  | none => exact .done
  | some name => exact .single .done

/-- The loop that writes markup visits the nodes of these trees in document order. There are no more
stops at end tags than at nodes. -/
def Meets (t : Tree) (l : List (Rose Handle)) : Prop :=
  ∃ stops out, Exhausts t.visitMarkup ((l.map Rose.label).map Stop.node) stops out ∧
    stops.filterMap Stop.handle? = Rose.preorderAll l ∧
    stops.length ≤ 2 * (Rose.preorderAll l).length

theorem meets_of_forall {l : List (Rose Handle)} (h : ∀ r ∈ l, t.Meets [r]) : t.Meets l := by
  induction l with
  | nil => exact ⟨[], [], .done, rfl, Nat.le_refl _⟩
  | cons r rest ih =>
    obtain ⟨hfirst, hrest⟩ := List.forall_mem_cons.mp h
    obtain ⟨stops, out, hstops, hnodes, hlength⟩ := hfirst
    obtain ⟨later, more, hlater, hmore, hlater_length⟩ := ih hrest
    refine ⟨stops ++ later, out ++ more, hstops.append hlater, ?_, ?_⟩
    · rw [List.filterMap_append, hnodes, hmore, ← Rose.preorderAll_append, List.singleton_append]
    · rw [← List.singleton_append, Rose.preorderAll_append, List.length_append, List.length_append]
      omega

theorem Serializable.meets (hs : Serializable t) {r : Rose Handle}
    (hr : Rose.Follows t.children r) : t.Meets [r] := by
  induction hr with
  | @node h branches hbranches _ ih =>
    obtain ⟨stops, out, hstops, hnodes, hlength⟩ := meets_of_forall ih
    obtain ⟨closed, hvisit⟩ := hs.exists_visitMarkup h
    rw [hbranches] at hstops
    have hbelow := hstops.append (t.exhausts_close closed)
    rw [← hvisit] at hbelow
    have hone : (closed.map Stop.close).toList.length ≤ 1 := Option.length_toList_le
    refine ⟨_, _, hbelow.single, ?_, ?_⟩
    · rw [List.filterMap_cons, List.filterMap_append, hnodes]
      cases closed <;> simp [Stop.handle?, Rose.preorderAll, Rose.preorder]
    · simp only [List.length_cons, List.length_append, Rose.preorderAll, Rose.preorder,
        List.append_nil]
      omega

/-- A node is written as the recursion writes the tree at it. The root has what is below it
written. -/
theorem outerMarkup_eq (ht : WellLinked t) (hlive : t.isLive h = true) :
    t.outerMarkup h =
      String.ofList (written (((t.parent? h).bind t.elementName?).any Markup.isRawText)
        (Rose.map t.kindOf (.node h (t.forest h)))) := by
  rw [← String.toList_inj, String.toList_ofList, Rose.map]
  by_cases hroot : h = .root
  · subst hroot
    obtain ⟨children, hn⟩ := ht.root
    rw [toList_outerMarkup ht (.inl rfl), outerContent, if_pos rfl, content, kindOf_of_node? hn,
      written]
  · rw [outerMarkup, if_neg hroot, toList_subtreeMarkup ht hlive, content]

/-- What is below a node is written child by child. -/
theorem innerMarkup_eq (ht : WellLinked t) (h : Handle) :
    t.innerMarkup h = String.join ((t.children h).map t.outerMarkup) := by
  refine congrArg String.join (List.map_congr_left fun c hc => ?_)
  have hparent := ht.mem_children_iff.mp hc
  rw [outerMarkup, if_neg]
  rintro rfl
  rw [ht.parent?_root] at hparent
  cases hparent

theorem map_unfold_tops (ht : WellLinked t) (h : Handle) :
    (t.tops h).map (Rose.unfold t.children t.capacity) = topTrees h (t.forest h) := by
  rw [tops, topTrees]
  split_ifs with hroot
  · rw [forest, hroot]
  · rw [List.map_singleton, Rose.unfold_eq (ht.hierarchy.settled h), forest]

theorem exhausts_visitSnapshot (ht : WellLinked t) (hlive : t.isLive h = true)
    (includeKeys : Bool) :
    Exhausts (t.visitSnapshot includeKeys) ((t.tops h).map (·, 0))
      (Rose.leveledAll 0 (topTrees h (t.forest h))) (t.snapshot h includeKeys) := by
  obtain ⟨o, hnodup, hsame, hpresent⟩ := siblings_tops ht hlive
  have hbelow : (fun place => (t.visitSnapshot includeKeys place).2) = Rose.deeper t.children := by
    rw [visitSnapshot_eq]
  have hsettled : ∀ place ∈ (t.tops h).map (·, 0),
      Rose.Settled (fun place => (t.visitSnapshot includeKeys place).2) t.capacity place := by
    rw [hbelow, List.forall_mem_map]
    exact fun a _ => Rose.settled_deeper (ht.hierarchy.settled a) 0
  have hruns := Exhausts.of_settled hsettled
  rw [hbelow, Rose.preorderAll_deeper] at hruns
  rw [snapshot_eq_walk, hruns.emits.walk_eq, ← map_unfold_tops ht]
  · exact hruns
  · rw [← List.length_map Prod.fst, Rose.map_fst_leveledAll]
    exact ht.hierarchy.length_preorderAll_le hnodup hsame hpresent

/-- At each node that is live there is one tree that follows the links. Its nodes are those within
the node, each of them once, and both loops visit them in document order until their lists are
empty.

The markup that comes out is that of the recursion on the tree: a start tag, the children and an end
tag, or only the start tag for a void element, with texts as they are right below a raw-text element
and escaped elsewhere. What is below a node is written as its children are, one by one. The lines of
a snapshot are those of the nodes, indented by their depth. -/
theorem Reachable.walks_as_recursions (ht : Reachable t) (hlive : t.isLive h = true) :
    ∃ branches, (∀ r, Rose.Follows t.children r ∧ r.label = h ↔ r = .node h branches) ∧
      (Rose.preorder (.node h branches)).Nodup ∧
      (∀ x, x ∈ Rose.preorder (.node h branches) ↔ Within t.parent? x h) ∧
      (∃ stops out, Exhausts t.visitMarkup [.node h] stops out ∧
        stops.filterMap Stop.handle? = Rose.preorder (.node h branches) ∧
        t.subtreeMarkup h = String.join out) ∧
      t.outerMarkup h =
        String.ofList (written (((t.parent? h).bind t.elementName?).any Markup.isRawText)
          (Rose.map t.kindOf (.node h branches))) ∧
      t.innerMarkup h = String.join ((t.children h).map t.outerMarkup) ∧
      ∀ includeKeys,
        Exhausts (t.visitSnapshot includeKeys) ((t.tops h).map (·, 0))
          (Rose.leveledAll 0 (topTrees h branches)) (t.snapshot h includeKeys) ∧
        t.snapshot h includeKeys = (Rose.leveledAll 0 (topTrees h branches)).map
          fun place => snapshotLine includeKeys (t.kindOf place.1, place.2) := by
  have hw := ht.wellLinked
  have hsettled := hw.hierarchy.settled h
  have hunfold : Rose.unfold t.children t.capacity h = .node h (t.forest h) :=
    Rose.unfold_eq hsettled
  have hfollows : Rose.Follows t.children (.node h (t.forest h)) :=
    hunfold ▸ Rose.follows_unfold hsettled
  have hnodup : (Rose.preorder (.node h (t.forest h))).Nodup :=
    hunfold ▸ hw.hierarchy.nodup_preorder t.capacity h
  have hmem : ∀ x, x ∈ Rose.preorder (.node h (t.forest h)) ↔ Within t.parent? x h :=
    fun x => hunfold ▸ ⟨hw.hierarchy.within_of_mem_preorder, hw.hierarchy.mem_preorder_of_within⟩
  obtain ⟨stops, out, hstops, hnodes, hlength⟩ := ht.serializable.meets hfollows
  refine ⟨t.forest h, fun r => ⟨fun hr => hr.1.eq_of_label_eq hfollows hr.2, ?_⟩, hnodup, hmem,
    ⟨stops, out, hstops, ?_, ?_⟩, outerMarkup_eq hw hlive, innerMarkup_eq hw h,
    fun includeKeys => ⟨exhausts_visitSnapshot hw hlive includeKeys, ?_⟩⟩
  · rintro rfl
    exact ⟨hfollows, rfl⟩
  · simpa [Rose.preorderAll] using hnodes
  · refine congrArg String.join (hstops.emits.walk_eq (hlength.trans ?_))
    have hslots := length_le_capacity hnodup fun x hx =>
      hw.hierarchy.present_of_within ((hmem x).mp hx) hlive
    simpa [Rose.preorderAll] using hslots
  · rw [snapshot_eq hw hlive, outerContent_eq hw, map_unfold_tops hw, Rose.leveledAll_mapAll,
      List.map_map]
    rfl

/-- A paragraph that no parent links, with the same text in it and in a script. -/
theorem walks_as_recursions_script :
    let t := Tree.new.run [.createElement "p", .createText "1<2", .createElement "br",
      .createElement "script", .createText "1<2", .appendChild ⟨1, 0⟩ ⟨2, 0⟩,
      .appendChild ⟨1, 0⟩ ⟨3, 0⟩, .appendChild ⟨1, 0⟩ ⟨4, 0⟩, .appendChild ⟨4, 0⟩ ⟨5, 0⟩]
    t.isLive ⟨1, 0⟩ = true ∧
      (∃ stops out, Exhausts t.visitMarkup [.node ⟨1, 0⟩] stops out ∧
        stops.filterMap Stop.handle? = [⟨1, 0⟩, ⟨2, 0⟩, ⟨3, 0⟩, ⟨4, 0⟩, ⟨5, 0⟩] ∧
        t.subtreeMarkup ⟨1, 0⟩ = String.join out) ∧
      t.outerMarkup ⟨1, 0⟩ = "<p>1&lt;2<br><script>1<2</script></p>" ∧
      t.snapshot ⟨1, 0⟩ false = ["<p>", "  \"1<2\"", "  <br>", "  <script>", "    \"1<2\""] := by
  intro t
  have hlive : t.isLive ⟨1, 0⟩ = true := by decide
  have hleaf : ∀ slot ∈ [2, 3, 5], Rose.Follows t.children (.node ⟨slot, 0⟩ []) := by
    intro slot hslot
    refine .node ?_ nofun
    revert slot
    decide
  have hscript : Rose.Follows t.children (.node ⟨4, 0⟩ [.node ⟨5, 0⟩ []]) := by
    refine .node (by decide) ?_
    simp [hleaf]
  have htree : Rose.Follows t.children (.node ⟨1, 0⟩
      [.node ⟨2, 0⟩ [], .node ⟨3, 0⟩ [], .node ⟨4, 0⟩ [.node ⟨5, 0⟩ []]]) := by
    refine .node (by decide) ?_
    simp [hleaf, hscript]
  obtain ⟨branches, hunique, -, -, hmet, houter, -, hsnapshot⟩ :=
    Reachable.walks_as_recursions (Reachable.new.run _) hlive
  obtain ⟨-, rfl⟩ := Rose.node.inj ((hunique _).mp ⟨htree, rfl⟩)
  refine ⟨hlive, hmet, houter.trans ?_, (hsnapshot false).2.trans ?_⟩
  · decide
  · decide

end LiveMarkup.Live.Tree
