import LiveMarkup.Fragment.Outline
import LiveMarkup.Proofs.Fragment.Traversal
import LiveMarkup.Proofs.Leveled

/-!
# What an outline shows

An outline has a line for each node below the root, in document order, and no line for a text that
is blank. The line is indented by two blanks for each level. A limit on the number of lines cuts the
outline off and makes no other difference (`Grown.outline_shows`).

The walk that writes an outline does not go on to the children of a node without a line. It misses
nothing, because such a node is a text, and texts have no children.
-/

namespace LiveMarkup.Fragment

variable {t : Fragment} {id depth : Nat} {kind : Kind} {line : String}

/-- The node lies so many levels below the children of the root. -/
inductive DepthIs (t : Fragment) : Nat → Nat → Prop
  | top {id : Nat} : t.parent? id = some root → DepthIs t id 0
  | under {id p depth : Nat} : t.parent? id = some p → DepthIs t p depth → DepthIs t id (depth + 1)

/-- Whether the node is a text of which trimming leaves nothing. -/
def isBlankText (t : Fragment) (id : Nat) : Bool :=
  match t.kind? id with
  | some (.text data) => (Text.trim data.toList).isEmpty
  | _ => false

/-- The line is the entry of the node behind two blanks for each level, and no blank of the entry
comes behind these. -/
def Shows (t : Fragment) (id : Nat) (line : String) : Prop :=
  ∃ kind entry depth, t.kind? id = some kind ∧ outlineEntry? kind = some entry ∧
    entry.toList.head? ≠ some ' ' ∧ DepthIs t id depth ∧ line = indent depth ++ entry

theorem outlineEntry?_eq_none_iff :
    outlineEntry? kind = none ↔
      ∃ data, kind = .text data ∧ (Text.trim data.toList).isEmpty = true := by
  unfold outlineEntry?
  cases kind <;> simp

theorem head?_outlineEntry? {entry : String} (h : outlineEntry? kind = some entry) :
    entry.toList.head? ≠ some ' ' := by
  unfold outlineEntry? at h
  cases kind with
  | text data =>
    dsimp only at h
    split at h
    · cases h
    · cases h
      simp
  | root | tag | comment | directive =>
    cases h
    simp

/-- The line of a node that is given with its depth, if it has one. -/
def outlineLine? (t : Fragment) (place : Nat × Nat) : Option String :=
  ((t.kind? place.1).bind outlineEntry?).map (indent place.2 ++ ·)

theorem outlineLine?_eq_none_iff (hid : id < t.size) (depth : Nat) :
    t.outlineLine? (id, depth) = none ↔ t.isBlankText id = true := by
  rw [outlineLine?, isBlankText, kind?_of_node? (node?_eq_of_lt hid), Option.bind_some,
    Option.map_eq_none_iff, outlineEntry?_eq_none_iff]
  cases t.kindOf id <;> simp

theorem shows_of_outlineLine? (h : t.outlineLine? (id, depth) = some line)
    (hdepth : DepthIs t id depth) : t.Shows id line := by
  obtain ⟨entry, hentry, rfl⟩ := Option.map_eq_some_iff.mp h
  obtain ⟨kind, hkind, hentry⟩ := Option.bind_eq_some_iff.mp hentry
  exact ⟨kind, entry, depth, hkind, hentry, head?_outlineEntry? hentry, hdepth, rfl⟩

/-- A node without a line has nothing below it. -/
theorem Linked.children_eq_nil_of_outlineLine? (ht : Linked t)
    (h : t.outlineLine? (id, depth) = none) : t.children id = [] := by
  rw [outlineLine?, Option.map_eq_none_iff] at h
  apply Linked.children_eq_nil ht
  rw [Fragment.isContainerAt]
  cases hkind : t.kind? id with
  | none => rfl
  | some kind =>
    rw [hkind, Option.bind_some, outlineEntry?_eq_none_iff] at h
    obtain ⟨data, rfl, -⟩ := h
    rfl

/-- A limit cuts off what is written without one. -/
theorem outlineFrom_some (t : Fragment) (steps cap : Nat) (places : List (Nat × Nat)) :
    t.outlineFrom steps (some cap) places = (t.outlineFrom steps none places).take cap := by
  induction steps generalizing cap places with
  | zero => simp [outlineFrom]
  | succ steps ih =>
    cases places with
    | nil => simp [outlineFrom]
    | cons place later =>
      obtain ⟨id, depth⟩ := place
      cases cap with
      | zero => simp [outlineFrom]
      | succ cap =>
        have hroom : ¬ some (cap + 1) = some 0 := by simp
        rw [outlineFrom, outlineFrom, if_neg hroom, if_neg (by simp)]
        cases (t.kind? id).bind outlineEntry? with
        | none => exact ih (cap + 1) later
        | some entry => exact congrArg _ (ih cap _)

/-- Without a limit the nodes below a node are visited whether it has a line or not. -/
theorem Linked.outlineFrom_none (ht : Linked t) (steps : Nat) (places : List (Nat × Nat)) :
    t.outlineFrom steps none places =
      walk (fun place => ((t.outlineLine? place).toList, Rose.deeper t.children place)) steps
        places := by
  induction steps generalizing places with
  | zero => rfl
  | succ steps ih =>
    cases places with
    | nil => rfl
    | cons place later =>
      obtain ⟨id, depth⟩ := place
      rw [outlineFrom, if_neg (by simp), walk_succ_cons, ← ih]
      cases hentry : (t.kind? id).bind outlineEntry? with
      | none =>
        -- The walk passes over the children, of which there are none.
        have hline : t.outlineLine? (id, depth) = none := by rw [outlineLine?, hentry]; rfl
        rw [hline, Rose.deeper, ht.children_eq_nil_of_outlineLine? hline]
        rfl
      | some entry =>
        have hline : t.outlineLine? (id, depth) = some (indent depth ++ entry) := by
          rw [outlineLine?, hentry]
          rfl
        rw [hline]
        rfl

theorem Linked.outline_none (ht : Linked t) : t.outline none =
    (Rose.leveledAll 0 t.forest).flatMap fun place => (t.outlineLine? place).toList := by
  rw [outline, ht.outlineFrom_none]
  exact ht.hierarchy.walk_deeper (ht.nodup_children Fragment.root)
    (fun _ hc => ht.mem_children_iff.mp hc)
    (fun _ hc => lt_size_of_parent? (ht.mem_children_iff.mp hc)) _ 0

/-- What is unfolded below a node goes one level down with each branch. -/
theorem Linked.depthIs_of_mem_leveled (ht : Linked t) {steps : Nat} {place : Nat × Nat}
    (hid : DepthIs t id depth)
    (hplace : place ∈ Rose.leveled depth (Rose.unfold t.children steps id)) :
    DepthIs t place.1 place.2 := by
  induction steps generalizing id depth with
  | zero =>
    rw [Rose.unfold, Rose.leveled, Rose.leveledAll, List.mem_singleton] at hplace
    exact hplace ▸ hid
  | succ steps ih =>
    rw [Rose.unfold, Rose.leveled, Rose.leveledAll_eq_flatMap, List.flatMap_map, List.mem_cons,
      List.mem_flatMap] at hplace
    rcases hplace with rfl | ⟨c, hc, hplace⟩
    · exact hid
    · exact ih (.under (ht.mem_children_iff.mp hc) hid) hplace

theorem Linked.depthIs_of_mem_forest (ht : Linked t) :
    ∀ place ∈ Rose.leveledAll 0 t.forest, DepthIs t place.1 place.2 := by
  intro place hplace
  rw [forest, Rose.leveledAll_eq_flatMap, List.flatMap_map, List.mem_flatMap] at hplace
  obtain ⟨c, hc, hplace⟩ := hplace
  exact ht.depthIs_of_mem_leveled (.top (ht.mem_children_iff.mp hc)) hplace

theorem forall₂_shows {places : List (Nat × Nat)}
    (h : ∀ place ∈ places, place.1 < t.size ∧ DepthIs t place.1 place.2) :
    List.Forall₂ t.Shows ((places.map Prod.fst).filter fun id => !t.isBlankText id)
      (places.flatMap fun place => (t.outlineLine? place).toList) := by
  induction places with
  | nil => exact .nil
  | cons place places ih =>
    obtain ⟨⟨hid, hdepth⟩, hrest⟩ := List.forall_mem_cons.mp h
    rw [List.map_cons, List.flatMap_cons]
    cases hline : t.outlineLine? place with
    | none =>
      rw [List.filter_cons_of_neg (by simp [(outlineLine?_eq_none_iff hid _).mp hline])]
      exact ih hrest
    | some line =>
      have hshown : ¬ t.isBlankText place.1 = true := by
        rw [← outlineLine?_eq_none_iff hid place.2, hline]
        nofun
      rw [List.filter_cons_of_pos (by simpa using hshown)]
      exact .cons (shows_of_outlineLine? hline hdepth) (ih hrest)

/-- An outline with a limit is as much of the whole outline as the limit allows. The whole outline
shows the nodes below the root, each of them once and in document order, apart from blank texts,
with the entry of each node indented by two blanks for each level. -/
theorem Grown.outline_shows (h : Grown t) :
    (∀ cap, t.outline (some cap) = (t.outline none).take cap) ∧
    ∃ ids, InOrder t (t.children root) ids ∧ ids.Perm (List.range' 1 (t.size - 1)) ∧
      List.Forall₂ t.Shows (ids.filter fun id => !t.isBlankText id) (t.outline none) := by
  have ht := h.linked
  refine ⟨fun cap => t.outlineFrom_some _ cap _, t.preorder, ht.inOrder_preorder,
    ht.perm_preorder, ?_⟩
  rw [ht.outline_none, ht.preorder_eq_preorderAll, ← Rose.map_fst_leveledAll t.forest 0]
  refine forall₂_shows fun place hplace => ⟨?_, ht.depthIs_of_mem_forest place hplace⟩
  refine (ht.mem_preorder_iff.mp ?_).1
  rw [ht.preorder_eq_preorderAll]
  exact Rose.fst_mem_of_mem_leveledAll hplace

/-- A list with a blank text between its items. It has a line for four of its five nodes, and the
limit of two lines counts past the blank text. -/
theorem Grown.outline_shows_past_blank :
    let t : Fragment := ⟨#[⟨.root, none, [1]⟩, ⟨.tag "ul" [("class", "a b")], some 0, [2, 3, 4]⟩,
      ⟨.text " \n", some 1, []⟩, ⟨.comment "x", some 1, []⟩, ⟨.tag "li" [], some 1, [5]⟩,
      ⟨.text " one\ntwo ", some 4, []⟩]⟩
    Grown t ∧ t.outline (some 2) = ["<ul class=\"a b\">", "  <!-- x -->"] ∧
      ∃ ids, InOrder t [1] ids ∧ ids.Perm [1, 2, 3, 4, 5] ∧
        List.Forall₂ t.Shows (ids.filter fun id => !t.isBlankText id)
          ["<ul class=\"a b\">", "  <!-- x -->", "  <li>", "    \"one two\""] := by
  intro t
  have hgrown : Grown t := by
    have hul := @Grown.append _ _ 0 1 (.tag "ul" [("class", "a b")]) .empty rfl
    have hblank := @Grown.appendText _ _ 1 (some 2) " \n" hul rfl
    have hcomment := @Grown.append _ _ 1 3 (.comment "x") hblank rfl
    have hli := @Grown.append _ _ 1 4 (.tag "li" []) hcomment rfl
    exact @Grown.appendText _ t 4 (some 5) " one\ntwo " hli rfl
  have hlines : t.outline none =
      ["<ul class=\"a b\">", "  <!-- x -->", "  <li>", "    \"one two\""] := by
    decide +kernel
  obtain ⟨hcap, hshows⟩ := hgrown.outline_shows
  rw [hlines] at hcap hshows
  exact ⟨hgrown, hcap 2, hshows⟩

end LiveMarkup.Fragment
