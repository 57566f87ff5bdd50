import LiveMarkup.Proofs.Live.Serializable

/-!
# Appending a child

A node may become the last child of any container that it is not above, and of a raw-text element
only as its one text. To see that it is not above, the parents are followed up from the container;
the calls take as many steps for this as there are slots. The walk without such a bound ends as
well, since the way up of every node ends, and it gives the same answer (`climbs_parent`).

What is appended leaves the children that it was among, wherever that is, and goes behind those
of its new parent. Nothing else changes (`Appended`).
-/

namespace LiveMarkup.Live.Tree

open Patch (Outcome)

variable {t u : Tree} {parent child : Handle}

/-- The walk up from a node in search of another one stops there or where there is no parent, and
tells whether it has met it. A walk without an end comes to nothing. -/
inductive Climbs (t : Tree) (sought : Handle) : Option Handle → Bool → Prop
  | top : Climbs t sought none false
  | met : Climbs t sought (some sought) true
  | up {h : Handle} {met : Bool} : h ≠ sought → Climbs t sought (t.parent? h) met →
      Climbs t sought (some h) met

open Classical in
/-- Where the way up ends, the walk has met what lies above its start. -/
theorem climbs_of_grounded {h : Handle} (hground : Grounded t.parent? h) (sought : Handle) :
    t.Climbs sought (t.parent? h) (decide (Under t.parent? h sought)) := by
  induction hground with
  | @top h hnone =>
    have hnot : ¬ Under t.parent? h sought := by
      intro hunder
      obtain ⟨p, hp, _⟩ := Relation.TransGen.head'_iff.mp hunder
      simp [hnone] at hp
    rw [hnone, decide_eq_false hnot]
    exact .top
  | @step h p hp _ ih =>
    rw [hp]
    by_cases heq : p = sought
    · subst heq
      rw [decide_eq_true (.single hp)]
      exact .met
    · have hiff : Under t.parent? h sought ↔ Under t.parent? p sought := by
        refine ⟨fun hunder => ?_, .head hp⟩
        obtain ⟨q, hq, hwithin⟩ := Relation.TransGen.head'_iff.mp hunder
        obtain rfl : p = q := Option.some_inj.mp (hp.symm.trans hq)
        exact (Relation.reflTransGen_iff_eq_or_transGen.mp hwithin).resolve_left (Ne.symm heq)
      simp only [hiff]
      exact .up heq ih

/-- The walk up ends, and the bounded walk that calls take is no different. -/
theorem climbs_parent (ht : WellLinked t) (sought h : Handle) :
    t.Climbs sought (t.parent? h) (decide (sought ∈ t.ancestors h)) := by
  classical
  have hclimbs := climbs_of_grounded (ht.grounded h) sought
  simpa only [mem_ancestors_iff ht] using hclimbs

/-- A node can become the last child of another one. -/
structure MayAppend (t : Tree) (parent child : Handle) : Prop where
  container : ∃ above, t.node? parent = some above ∧ above.kind.isContainer = true
  isLive : t.isLive child = true
  ne_root : child ≠ .root
  ne_parent : child ≠ parent
  not_above : ¬ Under t.parent? parent child
  rawText : ∀ name, t.elementName? parent = some name → Markup.isRawText name = true →
    (∃ text, t.text? child = some text ∧ Markup.endsRawText name text = false) ∧
      ∀ x ∈ t.children parent, x = child

theorem takes_iff {kind : Kind} {index : Nat} {content : Option String} :
    kind.takes index content = true ↔
      ∀ name, kind.name? = some name → Markup.isRawText name = true →
        (∃ text, content = some text ∧ Markup.endsRawText name text = false) ∧ index = 0 := by
  cases kind with
  | root => simp [Kind.takes, Kind.name?]
  | text s => simp [Kind.takes, Kind.name?]
  | element name key attributes =>
    simp only [Kind.takes, Kind.name?, Option.some_inj, forall_eq']
    cases Markup.isRawText name with
    | false => simp
    | true => simp [and_comm, Option.any_eq_true]

/-- The tree with a child moved behind the children of a parent. -/
def appended (t : Tree) (parent child : Handle) : Tree :=
  (t.detach child).link parent ((t.detach child).children parent).length child

theorem appendChild_eq_ok_iff : t.appendChild parent child = ⟨none, u⟩ ↔
    (∃ above below, t.node? parent = some above ∧ t.node? child = some below ∧
      t.check parent (above.children.filter (· ≠ child)).length below.kind.text? = .ok () ∧
      child ≠ .root ∧ child ≠ parent ∧ child ∉ t.ancestors parent) ∧
    u = t.appended parent child := by
  rw [appendChild]
  cases t.node? parent with
  | none => simp
  | some above =>
    cases t.node? child with
    | none => simp
    | some below =>
      simp only [Option.some_inj, exists_eq_left', exists_and_left]
      cases t.check parent (above.children.filter (· ≠ child)).length below.kind.text? with
      | error e => simp
      | ok _ =>
        by_cases hcycle : child = .root ∨ child = parent ∨ child ∈ t.ancestors parent
        · simp only [if_pos hcycle]
          refine iff_of_false (by simp) ?_
          rintro ⟨⟨-, hroot, hne, habove⟩, -⟩
          exact hcycle.elim hroot (·.elim hne habove)
        · simp only [if_neg hcycle, Outcome.mk.injEq, true_and, not_or] at hcycle ⊢
          simp only [hcycle, not_false_eq_true, ne_eq, and_self, true_and, appended]
          exact eq_comm

/-- The checks of the call are those of the definition. -/
theorem exists_appendChild_iff (ht : WellLinked t) (parent child : Handle) :
    (∃ u, t.appendChild parent child = ⟨none, u⟩) ↔ t.MayAppend parent child := by
  have halone : ∀ above, t.node? parent = some above →
      ((above.children.filter (· ≠ child)).length = 0 ↔ ∀ x ∈ t.children parent, x = child) := by
    intro above hp
    simp [children_of_node? hp]
  have hname : ∀ above, t.node? parent = some above →
      t.elementName? parent = above.kind.name? := by
    intro above hp
    simp [elementName?, hp]
  simp only [appendChild_eq_ok_iff, exists_and_left, exists_eq, and_true, check_eq_ok_iff,
    takes_iff, mem_ancestors_iff ht]
  constructor
  · rintro ⟨above, hp, below, hc, ⟨n, hn, hcontainer, hraw⟩, hroot, hne, habove⟩
    obtain rfl : n = above := Option.some_inj.mp (hn.symm.trans hp)
    rw [halone n hp, ← hname n hp, ← text?_of_node? hc] at hraw
    exact ⟨⟨n, hp, hcontainer⟩, isLive_of_node? hc, hroot, hne, habove, hraw⟩
  · rintro ⟨⟨n, hp, hcontainer⟩, hlive, hroot, hne, habove, hraw⟩
    obtain ⟨below, hc⟩ := node?_of_isLive hlive
    rw [hname n hp, text?_of_node? hc, ← halone n hp] at hraw
    exact ⟨n, hp, below, hc, ⟨n, hp, hcontainer, hraw⟩, hroot, hne, habove⟩

/-- `u` is `t` with one node moved behind the children of a parent. All other children keep their
order, and all that is changed are the children of the two parents and the parent of the node. -/
structure Appended (t : Tree) (parent child : Handle) (u : Tree) : Prop where
  children_parent : u.children parent = (t.children parent).filter (· ≠ child) ++ [child]
  children_other : ∀ p, p ≠ parent → u.children p = (t.children p).filter (· ≠ child)
  parent?_child : u.parent? child = some parent
  parent?_other : ∀ x, x ≠ child → u.parent? x = t.parent? x
  kind : ∀ x, (u.node? x).map Node.kind = (t.node? x).map Node.kind
  occupancy : ∀ i, u.occupancy i = t.occupancy i
  slots : ∀ i, i ≠ parent.slot → i ≠ child.slot → (∀ p, t.parent? child = some p → i ≠ p.slot) →
    u.slots[i]? = t.slots[i]?
  free : u.free = t.free
  frames : u.frames = t.frames
  running : u.running = t.running

theorem slots_modify_of_ne (t : Tree) {h : Handle} (f : Node → Node) {i : Nat} (hi : i ≠ h.slot) :
    (t.modify h f).slots[i]? = t.slots[i]? := by
  simp [modify, Array.getElem?_modify, Ne.symm hi]

theorem slots_detach (t : Tree) {c : Handle} {i : Nat} (hc : i ≠ c.slot)
    (hp : ∀ p, t.parent? c = some p → i ≠ p.slot) : (t.detach c).slots[i]? = t.slots[i]? := by
  rw [detach]
  split
  · rfl
  · next p hparent => rw [slots_modify_of_ne _ _ hc, slots_modify_of_ne _ _ (hp p hparent)]

theorem kind_link (t : Tree) (p : Handle) (index : Nat) (c x : Handle) :
    ((t.link p index c).node? x).map Node.kind = (t.node? x).map Node.kind := by
  have hparent := kind_modify (t := t) (h := p) (f := fun n =>
    { n with children := n.children.take index ++ c :: n.children.drop index }) x fun _ => rfl
  rw [link, ← hparent]
  exact kind_modify x fun _ => rfl

theorem appended_spec (ht : WellLinked t) (hp : t.isLive parent = true)
    (hc : t.isLive child = true) (hne : child ≠ parent) :
    Appended t parent child (t.appended parent child) := by
  have hchildren := children_link (t := t.detach child) (Ne.symm hne) (by simpa using hp)
    ((t.detach child).children parent).length
  have hparent := parent?_link (t := t.detach child) (p := parent) (c := child) (by simpa using hc)
    ((t.detach child).children parent).length
  refine ⟨?_, fun p hpp => ?_, ?_, fun x hx => ?_, fun x => ?_, fun i => ?_, ?_, ?_, ?_, ?_⟩
  · rw [appended, hchildren, if_pos rfl, List.take_length, List.drop_length, children_detach ht]
  · rw [appended, hchildren, if_neg hpp, children_detach ht]
  · rw [appended, hparent, if_pos rfl]
  · rw [appended, hparent, if_neg hx, parent?_detach, if_neg hx]
  · rw [appended, kind_link, kind_detach]
  · rw [appended, link, occupancy_modify, occupancy_modify, occupancy_detach]
  · intro i hip hic hold
    rw [appended, link, slots_modify_of_ne _ _ hic, slots_modify_of_ne _ _ hip,
      slots_detach t hic hold]
  · rw [appended, link, modify_free, modify_free, detach_free]
  · rw [appended, link, modify_frames, modify_frames, detach_frames]
  · rw [appended, link, modify_running, modify_running, detach_running]

/-- The walk up that looks for a cycle ends for any two handles. A node is appended exactly where
it may be, and then it is the last child of its new parent and a child of no other node, the other
children stand in the order in which they stood, and nothing else is changed. -/
theorem Reachable.appendChild_exact (h : Reachable t) (parent child : Handle) :
    t.Climbs child (t.parent? parent) (decide (child ∈ t.ancestors parent)) ∧
      ((∃ u, t.appendChild parent child = ⟨none, u⟩) ↔ t.MayAppend parent child) ∧
      ∀ u, t.appendChild parent child = ⟨none, u⟩ → Appended t parent child u := by
  have ht := h.wellLinked
  refine ⟨climbs_parent ht child parent, exists_appendChild_iff ht parent child, fun u hu => ?_⟩
  obtain ⟨⟨above, below, hp, hc, -, -, hne, -⟩, rfl⟩ := appendChild_eq_ok_iff.mp hu
  exact appended_spec ht (isLive_of_node? hp) (isLive_of_node? hc) hne

/-- A list item is moved from one list into another, behind the item that is there, and the list
that it came from cannot be put below the item that is left. -/
theorem appendChild_exact_moved :
    let t := Tree.new.run [.createElement "ul", .createElement "li", .createElement "li",
      .createElement "ol", .createElement "li", .appendChild .root ⟨1, 0⟩,
      .appendChild .root ⟨4, 0⟩, .appendChild ⟨1, 0⟩ ⟨2, 0⟩, .appendChild ⟨1, 0⟩ ⟨3, 0⟩,
      .appendChild ⟨4, 0⟩ ⟨5, 0⟩]
    t.Climbs ⟨2, 0⟩ (t.parent? ⟨4, 0⟩) false ∧
      (∃ u, t.appendChild ⟨4, 0⟩ ⟨2, 0⟩ = ⟨none, u⟩ ∧ Appended t ⟨4, 0⟩ ⟨2, 0⟩ u ∧
        u.children ⟨4, 0⟩ = [⟨5, 0⟩, ⟨2, 0⟩] ∧ u.children ⟨1, 0⟩ = [⟨3, 0⟩]) ∧
      t.Climbs ⟨1, 0⟩ (t.parent? ⟨3, 0⟩) true ∧ ¬ t.MayAppend ⟨3, 0⟩ ⟨1, 0⟩ := by
  intro t
  have h : Reachable t := Reachable.new.run _
  obtain ⟨hfalse, -, happended⟩ := Reachable.appendChild_exact h ⟨4, 0⟩ ⟨2, 0⟩
  obtain ⟨htrue, hiff, -⟩ := Reachable.appendChild_exact h ⟨3, 0⟩ ⟨1, 0⟩
  rw [decide_eq_false (by decide)] at hfalse
  rw [decide_eq_true (by decide)] at htrue
  refine ⟨hfalse, ⟨_, rfl, happended _ rfl, by decide, by decide⟩, htrue, ?_⟩
  rw [← hiff]
  have hrefused : t.appendChild ⟨3, 0⟩ ⟨1, 0⟩ = ⟨some (.cycle ⟨3, 0⟩ ⟨1, 0⟩), t⟩ := by decide
  simp [hrefused]

end LiveMarkup.Live.Tree
