import LiveMarkup.Live.Markup
import LiveMarkup.Proofs.Live.Content
import LiveMarkup.Proofs.Walk

/-!
# Writing as a recursion

The markup of a live tree is written by a walk over its arena. What comes out depends on
the trees alone: it is written by recursion on them (`written`), with the one thing that a
text has to know about its parent handed down, whether it stands in a raw-text element.
-/

namespace LiveMarkup.Live

open Rose (place recordsAll)

mutual

/-- The markup of a tree, in a raw-text element or not. -/
def written (raw : Bool) : Rose Kind → List Char
  | .node .root branches => writtenAll false branches
  | .node (.text content) _ =>
    if raw then content.toList else (Markup.escape .content content).toList
  | .node (.element name _ attributes) branches =>
    (Tree.startTag name attributes).toList ++
      if Markup.isVoid name then []
      else writtenAll (Markup.isRawText name) branches ++ (Tree.endTag name).toList

/-- The markup of some trees next to each other. -/
def writtenAll (raw : Bool) : List (Rose Kind) → List Char
  | [] => []
  | r :: rest => written raw r ++ writtenAll raw rest

end

theorem writtenAll_eq_flatMap (raw : Bool) (l : List (Rose Kind)) :
    writtenAll raw l = l.flatMap (written raw) := by
  induction l with
  | nil => rfl
  | cons r rest ih => rw [writtenAll, ih, List.flatMap_cons]

/-- Only texts are written in another way in a raw-text element. -/
theorem written_of_text?_eq_none {kind : Kind} (hkind : kind.text? = none) (raw : Bool)
    (branches : List (Rose Kind)) :
    written raw (.node kind branches) = written false (.node kind branches) := by
  cases kind with
  | root => rfl
  | element name key attributes => rfl
  | text content => cases hkind

namespace Tree

variable {t : Tree}

/-- A walk of at most two steps for each node writes what the recursion writes. -/
def Writes (t : Tree) (raw : Bool) (l : Branches) : Prop :=
  ∃ n out, n ≤ 2 * (Rose.places l).length ∧
    Emits t.visitMarkup ((l.map place).map Stop.node) n out ∧
      (String.join out).toList = writtenAll raw (Rose.mapAll Prod.snd l)

theorem writes_nil (t : Tree) (raw : Bool) : Writes t raw [] := ⟨0, [], Nat.le_refl _, .nil, rfl⟩

theorem Writes.cons {raw : Bool} {r : Rose (Handle × Kind)} {l : Branches}
    (h : Writes t raw [r]) (hl : Writes t raw l) : Writes t raw (r :: l) := by
  obtain ⟨n, out, hn, hemits, hout⟩ := h
  obtain ⟨m, more, hm, hrest, hmore⟩ := hl
  refine ⟨n + m, out ++ more, ?_, hemits.append hrest, ?_⟩
  · have hlength := Rose.length_places_cons r l
    omega
  · rw [String.join_append, String.toList_append, hout, hmore, Rose.mapAll, Rose.mapAll,
      Rose.mapAll, writtenAll, writtenAll, writtenAll, List.append_nil]

theorem writes_node {raw : Bool} {h : Handle} {kind : Kind} {branches : Branches} {n : Nat}
    {out : List String} (hn : n ≤ 2 * (Rose.places branches).length + 2)
    (hemits : Emits t.visitMarkup [.node h] n out)
    (hout : (String.join out).toList =
      written raw (.node kind (Rose.mapAll Prod.snd branches))) :
    Writes t raw [.node (h, kind) branches] := by
  refine ⟨n, out, ?_, hemits, ?_⟩
  · rw [Rose.length_places_node]
    omega
  · rw [hout, Rose.mapAll, Rose.mapAll, Rose.map, writtenAll, writtenAll, List.append_nil]

mutual

/-- What an arena holds is written as the trees are. -/
theorem writes_of_held : ∀ (r : Rose (Handle × Kind)) (parent : Option Handle),
    Held t.node? (Rose.records Node.mk parent r) →
    Writes t ((parent.bind t.elementName?).any Markup.isRawText) [r]
  | .node (h, kind) branches, parent => by
    intro hheld
    have hn := hheld _ List.mem_cons_self
    have hbelow := writesAll_of_held branches (some h) hheld.tail
    have hname : t.elementName? h = kind.name? := by rw [elementName?, hn]; rfl
    rw [Option.bind_some, hname] at hbelow
    obtain ⟨n, out, hle, hemits, hout⟩ := hbelow
    cases kind with
    | root =>
      have hvisit : t.visitMarkup (.node h) = ([], (branches.map place).map Stop.node) := by
        simp [visitMarkup, hn]
      refine writes_node ?_ (.single hvisit hemits) ?_
      · omega
      · simpa [written, Kind.name?] using hout
    | text content =>
      have hvisit : t.visitMarkup (.node h) = ([t.textMarkup parent content], []) := by
        simp [visitMarkup, hn]
      refine writes_node ?_ (.leaf hvisit) ?_
      · omega
      · simp only [textMarkup, written, String.join_cons, String.join_nil, String.append_empty]
        split <;> rfl
    | element name key attributes =>
      cases hvoid : Markup.isVoid name with
      | true =>
        have hvisit : t.visitMarkup (.node h) = ([startTag name attributes], []) := by
          simp [visitMarkup, hn, hvoid]
        refine writes_node ?_ (.leaf hvisit) ?_
        · omega
        · simp [written, hvoid]
      | false =>
        have hvisit : t.visitMarkup (.node h) = ([startTag name attributes],
            (branches.map place).map Stop.node ++ [.close name]) := by
          simp [visitMarkup, hn, hvoid]
        have hclose : Emits t.visitMarkup [.close name] 1 [endTag name] := .leaf rfl
        refine writes_node ?_ (.single hvisit (hemits.append hclose)) ?_
        · omega
        · simp [written, hvoid, hout, Kind.name?]

theorem writesAll_of_held : ∀ (l : Branches) (parent : Option Handle),
    Held t.node? (recordsAll Node.mk parent l) →
    Writes t ((parent.bind t.elementName?).any Markup.isRawText) l
  | [], _ => fun _ => writes_nil t _
  | r :: rest, parent => by
    intro hheld
    rw [recordsAll] at hheld
    exact (writes_of_held r parent hheld.left).cons
      (writesAll_of_held rest parent hheld.right)

end

/-- A node is written as the tree at it is. -/
theorem toList_subtreeMarkup (ht : WellLinked t) {h : Handle} (hlive : t.isLive h = true) :
    (t.subtreeMarkup h).toList =
      written (((t.parent? h).bind t.elementName?).any Markup.isRawText)
        (.node (t.kindOf h) (t.content h)) := by
  have hstored := stored_region ht hlive
  have hcontent := content_of_held ht hstored.held
  have hslots := length_le_capacity_of_stored hstored
  obtain ⟨n, out, hn, hemits, hout⟩ := writes_of_held _ _ hstored.held
  have hsteps : n ≤ 2 * t.capacity := by
    rw [← List.length_map Prod.fst, Rose.map_fst_records] at hslots
    rw [Rose.places, Rose.preorderAll, Rose.preorderAll, List.append_nil] at hn
    omega
  have hwalk : t.subtreeMarkup h = String.join out := congrArg String.join (hemits.walk_eq hsteps)
  rw [hwalk, hout, hcontent, Rose.mapAll, Rose.mapAll, Rose.map, writtenAll, writtenAll,
    List.append_nil]

/-- What the markup of a node is about: the node and all below it, or for the root only what
is below it. -/
def outerContent (t : Tree) (h : Handle) : List (Rose Kind) :=
  if h = .root then t.content h else [.node (t.kindOf h) (t.content h)]

/-- The root and the elements are written as their trees are. -/
theorem toList_outerMarkup (ht : WellLinked t) {h : Handle}
    (hh : h = .root ∨ (t.elementName? h).isSome = true) :
    (t.outerMarkup h).toList = writtenAll false (t.outerContent h) := by
  rw [outerMarkup, outerContent]
  by_cases hroot : h = .root
  · subst hroot
    obtain ⟨children, hn⟩ := ht.root
    have hname : t.elementName? .root = none := by rw [elementName?, hn]; rfl
    rw [if_pos rfl, if_pos rfl, innerMarkup, content_eq_map ht, String.toList_join,
      writtenAll_eq_flatMap, List.flatMap_map, List.flatMap_map]
    refine List.flatMap_congr fun c hc => ?_
    have hparent := ht.mem_children_iff.mp hc
    rw [toList_subtreeMarkup ht (isLive_of_parent? hparent), hparent, Option.bind_some, hname]
    rfl
  · obtain ⟨name, hname⟩ := Option.isSome_iff_exists.mp (hh.resolve_left hroot)
    obtain ⟨n, hn, hkind⟩ := Option.bind_eq_some_iff.mp hname
    have htext : n.kind.text? = none := by
      cases hk : n.kind with
      | text content => simp [hk, Kind.name?] at hkind
      | root => rfl
      | element name key attributes => rfl
    rw [if_neg hroot, if_neg hroot, toList_subtreeMarkup ht (isLive_of_node? hn),
      kindOf_of_node? hn, written_of_text?_eq_none htext, writtenAll, writtenAll, List.append_nil]

end Tree

end LiveMarkup.Live
