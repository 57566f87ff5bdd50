import LiveMarkup.Proofs.Live.Rank

/-!
# A replay keeps nodes by rank

In the target of a replay, and in every element below it that is there afterwards, the open
with a name and a key that comes as the j-th has kept the j-th old child with that name and
key, wherever that child stood. Where there were fewer such children, it has made a node
that was never there, and all other old child elements are gone (`KeptByRank`).

`Reconciles` goes down the program and the tree after the replay side by side, so it says
which part of the program is meant for which element.
-/

namespace LiveMarkup.Live.Tree

open Patch (topOpens)
open Rose (place recordsAll)

variable {t u : Tree} {target x : Handle} {new : Handle → Prop} {made : Branches}
  {body : List (Patch.Instruction Patch.Key)}

/-- What becomes of the old children of a container, as far as they are elements, when the
program `body` is performed in it. -/
structure KeptByRank (t u : Tree) (x : Handle)
    (body : List (Patch.Instruction Patch.Key)) : Prop where
  /-- The children that are elements now are those that the program opens, in its order. -/
  opened : (u.children x).filterMap u.identity? = topOpens 0 body
  /-- An old child is kept by the open of the same rank. -/
  kept : ∀ {name key : String} {j : Nat} {c : Handle},
    (t.keyedChildren name key x)[j]? = some c → j < (topOpens 0 body).count (name, key) →
      (u.keyedChildren name key x)[j]? = some c
  /-- Opens beyond the old children make nodes that were never there. -/
  made : ∀ {name key : String} {j : Nat} {c : Handle},
    (u.keyedChildren name key x)[j]? = some c → (t.keyedChildren name key x).length ≤ j →
      ¬ t.Issued c
  /-- An old element that no open keeps is gone. -/
  dropped : ∀ {c : Handle}, c ∈ t.children x → (t.elementName? c).isSome = true →
    (∀ name key j, (t.keyedChildren name key x)[j]? = some c →
      (topOpens 0 body).count (name, key) ≤ j) → u.isLive c = false

/-- The program and the children that it leaves, side by side: in each element the old
children are kept by rank. -/
inductive Reconciles (t u : Tree) : List (Patch.Instruction Patch.Key) → List Handle → Prop
  | nil : Reconciles t u [] []
  | text (content : String) {c : Handle} {program : List (Patch.Instruction Patch.Key)}
      {rest : List Handle} : u.text? c = some content → Reconciles t u program rest →
      Reconciles t u (.text content :: program) (c :: rest)
  | element (name : String) (key : Patch.Key) (attributes : List (String × String)) {c : Handle}
      {body program : List (Patch.Instruction Patch.Key)} {rest : List Handle} :
      u.identity? c = some (name, key.value) → KeptByRank t u c body →
      Reconciles t u body (u.children c) → Reconciles t u program rest →
      Reconciles t u (.openTag name key attributes :: (body ++ .closeTag name :: program))
        (c :: rest)

theorem filterMap_identity?_of_held (hchildren : u.children x = made.map place)
    (hheld : Held u.node? (recordsAll Node.mk (some x) made)) :
    (u.children x).filterMap u.identity? = made.filterMap fun r => r.label.2.identity? := by
  rw [hchildren, List.filterMap_map]
  refine List.filterMap_congr fun r hr => ?_
  obtain ⟨⟨c, kind⟩, below⟩ := r
  rw [Function.comp_apply, Rose.place_node, identity?, hheld _ (Rose.mem_recordsAll_of_mem hr)]
  rfl

theorem length_keyedPlaces (name key : String) (l : Branches) :
    (keyedPlaces name key l).length =
      (l.filterMap fun r => r.label.2.identity?).count (name, key) := by
  rw [keyedPlaces, List.length_map, ← List.countP_eq_length_filter, List.count_filterMap]
  refine List.countP_congr fun r _ => ?_
  obtain ⟨⟨c, kind⟩, below⟩ := r
  rw [keyed_iff]
  cases kind with
  | root => simp [Kind.identity?]
  | text content => simp [Kind.identity?]
  | element n key attributes => cases key <;> simp [Kind.identity?]

namespace Rebuilt

/-- What a program makes are texts and elements with keys. -/
theorem text_or_keyed (h : Rebuilt t new body made) {r : Rose (Handle × Kind)} (hr : r ∈ made) :
    ((t.text? r.place).isSome = true ∨ new r.place) ∨ ∃ name key, keyed name key r = true := by
  induction h with
  | nil => cases hr
  | text content hsource _ ih =>
    rcases List.mem_cons.mp hr with rfl | hr
    · exact .inl hsource
    · exact ih hr
  | element name key attributes _ _ _ _ ih =>
    rcases List.mem_cons.mp hr with rfl | hr
    · exact .inr ⟨name, key.value, keyed_iff.mpr ⟨attributes, rfl⟩⟩
    · exact ih hr

theorem topOpens_eq (h : Rebuilt t new body made) :
    topOpens 0 body = made.filterMap fun r => r.label.2.identity? := by
  rw [h.denotes.topOpens_eq, Rose.mapAll_eq_map, List.filterMap_map]
  refine List.filterMap_congr fun r _ => ?_
  rw [Function.comp_apply, Rose.label_map]

theorem keptByRank (h : Rebuilt t (fun c => ¬ t.Issued c) body made) (ht : WellLinked t)
    (hu : WellLinked u) (hstays : Stays t u) (hchildren : u.children x = made.map place)
    (hheld : Held u.node? (recordsAll Node.mk (some x) made))
    (hranked : ∀ n k, ∃ rest, Ranked (fun c => ¬ t.Issued c) (t.keyedChildren n k x)
      (keyedPlaces n k made) rest) : KeptByRank t u x body := by
  have hplaces : ∀ n k, u.keyedChildren n k x = keyedPlaces n k made :=
    keyedChildren_of_held hchildren hheld
  have hcount : ∀ n k, (topOpens 0 body).count (n, k) = (keyedPlaces n k made).length := by
    intro n k
    rw [h.topOpens_eq, length_keyedPlaces]
  refine ⟨?_, ?_, ?_, ?_⟩
  · rw [filterMap_identity?_of_held hchildren hheld, h.topOpens_eq]
  · intro name key j c hc hj
    obtain ⟨rest, hrank⟩ := hranked name key
    rw [hcount] at hj
    rw [hplaces]
    exact hrank.getElem?_kept hc hj
  · intro name key j c hc hj
    obtain ⟨rest, hrank⟩ := hranked name key
    rw [hplaces] at hc
    exact hrank.new_of_length_le hc hj
  · intro c hc helement hunkept
    rw [← Bool.not_eq_true]
    intro hlive
    -- A node that is still there is still a child, so the program has passed it.
    have hparent := ht.mem_children_iff.mp hc
    have hissued := issued_of_isLive (isLive_of_parent? hparent)
    have hchild : c ∈ u.children x :=
      hu.mem_children_iff.mpr ((hstays.parent? hissued hlive).trans hparent)
    rw [hchildren] at hchild
    obtain ⟨r, hr, rfl⟩ := List.mem_map.mp hchild
    rcases h.text_or_keyed hr with (htext | hnew) | ⟨name, key, hkeyed⟩
    · rw [elementName?] at helement
      rw [text?] at htext
      cases hn : t.node? r.place with
      | none => simp [hn] at htext
      | some n =>
        cases hkind : n.kind <;> simp [hn, hkind, Kind.text?, Kind.name?] at helement htext
    · exact hnew hissued
    · obtain ⟨rest, hrank⟩ := hranked name key
      have hmem : r.place ∈ keyedPlaces name key made :=
        List.mem_map_of_mem (List.mem_filter.mpr ⟨hr, hkeyed⟩)
      obtain ⟨j, hj, hlt⟩ := hrank.exists_getElem?_old hmem (not_not_intro hissued)
      have hle := hunkept name key j hj
      rw [hcount] at hle
      omega

theorem reconciles (h : Rebuilt t (fun c => ¬ t.Issued c) body made) (ht : WellLinked t)
    (hu : WellLinked u) (hstays : Stays t u)
    (hheld : Held u.node? (recordsAll Node.mk (some x) made)) :
    Reconciles t u body (made.map place) := by
  induction h generalizing x with
  | nil => exact .nil
  | text content _ _ ih =>
    rw [Rose.recordsAll_node] at hheld
    have hnode := hheld _ List.mem_cons_self
    have hrest : Held u.node? (recordsAll Node.mk (some x) _) := hheld.tail
    exact .text content (text?_of_node? hnode) (ih hrest)
  | @element name key attributes c body program below rest hranked hbody _ ihb ih =>
    rw [Rose.recordsAll_node] at hheld
    have hnode := hheld _ List.mem_cons_self
    have hbelow : Held u.node? (recordsAll Node.mk (some c) below) :=
      hheld.subset fun e he => by simp [he]
    have hrest : Held u.node? (recordsAll Node.mk (some x) rest) :=
      hheld.subset fun e he => by simp [he]
    refine .element name key attributes ?_ ?_ ?_ (ih hrest)
    · rw [Rose.place_node, identity?, hnode]
      rfl
    · exact hbody.keptByRank ht hu hstays (children_of_node? hnode) hbelow hranked
    · rw [Rose.place_node, children_of_node? hnode]
      exact ihb hbelow

end Rebuilt

/-- A replay without skips that succeeds keeps the children of its target by rank, and so it
does in all elements below. -/
theorem Reachable.keptByRank_apply (h : Reachable t) {p : Patch}
    (hskip : ∀ i ∈ p.instructions, i.isSkip = false)
    (hok : (p.apply target t).failure = none) :
    KeptByRank t (p.apply target t).state target p.instructions ∧
      Reconciles t (p.apply target t).state p.instructions
        ((p.apply target t).state.children target) := by
  obtain ⟨s, passed, ahead, hbegin, hmakes, hstored⟩ := apply_makes h hok
  obtain ⟨_, ⟨n, hn, _⟩, _⟩ := begin_eq_ok_iff.mp hbegin
  have hend := hstored.held
  have hu := (h.apply p target).wellLinked
  have hstays := Stays.apply h p target
  generalize (p.apply target t).state = u at hend hu hstays ⊢
  have hchildren : u.children target = passed.map place :=
    children_of_node? (hend _ List.mem_cons_self)
  have hheld : Held u.node? (recordsAll Node.mk (some target) passed) := hend.tail
  have hregion := (stored_region h.wellLinked (isLive_of_node? hn)).held
  have hbefore : Held t.node? (recordsAll Node.mk (some target) (t.region target)) := hregion.tail
  have hdenotes := hmakes.runs.denotes rfl hskip
  have hnew : ∀ c, ¬ t.Issued c → t.isLive c = false := fun c hc =>
    Bool.eq_false_iff.mpr fun hclive => hc (issued_of_isLive hclive)
  obtain ⟨made, left, hlevels, _, hmade, hrank⟩ :=
    rebuilt_of_makes hnew hdenotes hmakes hbefore
  obtain ⟨rfl, rfl⟩ : passed = made ∧ ahead = left := by simpa using hlevels
  refine ⟨hmade.keptByRank h.wellLinked hu hstays hchildren hheld
    fun n k => ⟨keyedPlaces n k ahead, ?_⟩, ?_⟩
  · rw [keyedChildren_of_held (children_of_node? (hregion _ List.mem_cons_self)) hbefore]
    exact hrank n k
  · rw [hchildren]
    exact hmade.reconciles h.wellLinked hu hstays hheld

/-- One name and key twice among the old children and three times in the program. In front of
the old ones stands an element that the program leaves out, and the child of the second of
them stands behind a text that goes. -/
theorem keptByRank_apply_duplicates :
    let t := Tree.new.run [.begin .root, .perform (.openTag "b" (.explicit "k") []),
      .perform (.closeTag "b"), .perform (.openTag "a" (.explicit "k") []),
      .perform (.closeTag "a"), .perform (.text "old"),
      .perform (.openTag "a" (.explicit "k") [("x", "1")]), .perform (.text "first"),
      .perform (.openTag "i" (.explicit "m") []), .perform (.closeTag "i"),
      .perform (.closeTag "a"), .finish none]
    let p : Patch := ⟨[.openTag "a" (.explicit "k") [], .closeTag "a", .text "new",
      .openTag "a" (.generated "k") [], .openTag "i" (.explicit "m") [], .closeTag "i",
      .closeTag "a", .openTag "a" (.explicit "k") [], .closeTag "a"]⟩
    (p.apply .root t).failure = none ∧
      KeptByRank t (p.apply .root t).state .root p.instructions ∧
      Reconciles t (p.apply .root t).state p.instructions
        ((p.apply .root t).state.children .root) := by
  refine ⟨by decide, Reachable.keptByRank_apply (Reachable.new.run _) ?_ ?_⟩
  · decide
  · decide

end LiveMarkup.Live.Tree
