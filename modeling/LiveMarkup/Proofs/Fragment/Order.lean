import LiveMarkup.Proofs.Fragment.Linked

/-!
# Tokens are built in document order

The open elements are the way from the root to the place where the next node goes, and all that is
complete stands in front of it. So the nodes of a nest have an order already while elements are open
in it, and completing an element does not change that order.

A token can do three things to it: it adds a node behind all others, with the next index, it changes
the content of a text, or it leaves the nodes as they are (`Nest.Changes`). Whatever the tokens are,
the indices are therefore in document order, and the tags are those of the start tags, in the same
order.
-/

namespace LiveMarkup

/-- The name and the attributes of a start tag. -/
def Markup.Token.tag? : Markup.Token → Option (String × List (String × Option String))
  | .startTag name attributes _ => some (name, attributes)
  | _ => none

namespace Fragment

open Rose (place places)

/-- The name and the attributes of a tag. -/
def Kind.tag? : Kind → Option (String × List (String × String))
  | .tag name attributes => some (name, attributes)
  | _ => none

/-- The name and the attributes of the tag at an index. -/
def tag? (t : Fragment) (id : Nat) : Option (String × List (String × String)) :=
  (t.kind? id).bind Kind.tag?

/-- What a start tag is when it is built. -/
def built (tag : String × List (String × Option String)) : String × List (String × String) :=
  (tag.1, distinctAttributes tag.2)

namespace Nest

/-- The nodes of some levels. An open element stands behind all that is complete around it, so those
of the outer levels come first. -/
def nodes : Level → List Level → List (Nat × Kind)
  | l, [] => Rose.preorder l.closed
  | l, m :: outer => nodes m outer ++ Rose.preorder l.closed

/-- All nodes in document order, each with its index. -/
def order (n : Nest) : List (Nat × Kind) := nodes n.inner n.outer

variable {n n' : Nest} {tag : Option (String × List (String × String))}

theorem nodes_push (l : Level) (outer : List Level) (r : Rose (Nat × Kind)) :
    nodes (l.push r) outer = nodes l outer ++ Rose.preorder r := by
  have hclosed : Rose.preorder (l.push r).closed = Rose.preorder l.closed ++ Rose.preorder r := by
    simp [Level.closed, Level.push, Rose.preorder, Rose.preorderAll_append, Rose.preorderAll]
  cases outer with
  | nil => exact hclosed
  | cons m outer => rw [nodes, nodes, hclosed, List.append_assoc]

/-- Completing an element leaves it where it is. -/
theorem nodes_close (l m : Level) (outer : List Level) :
    nodes (m.push l.closed) outer = nodes l (m :: outer) := nodes_push m outer l.closed

theorem nodes_closeTo (name : String) (l : Level) (outer : List Level) :
    nodes (closeTo name l outer).1 (closeTo name l outer).2 = nodes l outer := by
  induction outer generalizing l with
  | nil => rfl
  | cons m outer ih =>
    rw [closeTo, ← nodes_close l m outer]
    split
    · rfl
    · exact ih _

theorem nodes_closeAll (l : Level) (outer : List Level) :
    nodes (closeAll l outer) [] = nodes l outer := by
  induction outer generalizing l with
  | nil => rfl
  | cons m outer ih => exact (ih _).trans (nodes_close l m outer)

/-- The second nest has the nodes of the first, and one more with that tag, or a text of them has
another content, or there is no difference between them. -/
inductive Changes (n n' : Nest) : Option (String × List (String × String)) → Prop
  | node (kind : Kind) : n'.next = n.next + 1 → n'.order = n.order ++ [(n.next, kind)] →
      Changes n n' kind.tag?
  | text {before after : List (Nat × Kind)} {id : Nat} {old new : String} : n'.next = n.next →
      n.order = before ++ (id, .text old) :: after →
      n'.order = before ++ (id, .text new) :: after → Changes n n' none
  | same : n'.next = n.next → n'.order = n.order → Changes n n' none

theorem changes_grow (n : Nest) (kind : Kind) : Changes n (n.grow kind) kind.tag? :=
  .node kind rfl (nodes_push n.inner n.outer _)

theorem changes_addText (n : Nest) (text : String) : Changes n (n.addText text) none := by
  rw [addText]
  split
  · exact .same rfl rfl
  · split
    · next id data below hlast =>
      obtain ⟨before, hpassed⟩ := List.getLast?_eq_some_iff.mp hlast
      -- The text is the last tree that is complete, so only what is in it can follow.
      have horder : ∀ content, nodes ({ n.inner with
          passed := before ++ [.node (id, .text content) below] }) n.outer =
          nodes { n.inner with passed := before } n.outer ++
            (id, .text content) :: Rose.preorderAll below :=
        fun content => nodes_push { n.inner with passed := before } n.outer _
      have hold := horder data
      rw [← hpassed] at hold
      rw [hpassed, List.dropLast_concat]
      exact .text rfl hold (horder (data ++ text))
    · exact n.changes_grow (.text text)

/-- What a token can do to the nodes. -/
theorem changes_add (n : Nest) (token : Markup.Token) :
    Changes n (n.add token) (token.tag?.map built) := by
  cases token with
  | doctype text => exact n.changes_grow (.directive text)
  | comment text => exact n.changes_grow (.comment text)
  | text content => exact n.changes_addText content
  | startTag name attributes selfClosing =>
    cases selfClosing with
    | true => exact n.changes_grow (.tag name (distinctAttributes attributes))
    | false => exact .node (.tag name (distinctAttributes attributes)) rfl rfl
  | endTag name =>
    rw [Nest.add]
    split
    · exact .same rfl (nodes_closeTo name n.inner n.outer)
    · exact .same rfl rfl

/-- Indices are handed out in document order. -/
theorem Changes.map_fst_order (h : Changes n n' tag)
    (hn : n.order.map Prod.fst = List.range n.next) :
    n'.order.map Prod.fst = List.range n'.next := by
  cases h with
  | node kind hnext horder =>
    rw [horder, hnext, List.map_append, hn, List.range_succ]
    rfl
  | text hnext hold hnew =>
    rw [hold, List.map_append, List.map_cons] at hn
    rw [hnew, hnext, List.map_append, List.map_cons, hn]
  | same hnext horder => rw [horder, hnext, hn]

theorem Changes.tags (h : Changes n n' tag) :
    n'.order.filterMap (fun e => e.2.tag?) =
      n.order.filterMap (fun e => e.2.tag?) ++ tag.toList := by
  cases h with
  | node kind hnext horder =>
    rw [horder, List.filterMap_append]
    cases kind <;> rfl
  | text hnext hold hnew =>
    rw [hold, hnew, List.filterMap_append, List.filterMap_append, Option.toList_none,
      List.append_nil]
    rfl
  | same hnext horder => rw [horder, Option.toList_none, List.append_nil]

theorem Changes.next_le (h : Changes n n' tag) : n'.next ≤ n.next + 1 := by
  cases h with
  | node kind hnext horder => omega
  | text hnext hold hnew => omega
  | same hnext horder => omega

theorem map_fst_order_foldl (tokens : List Markup.Token)
    (hn : n.order.map Prod.fst = List.range n.next) :
    (tokens.foldl add n).order.map Prod.fst = List.range (tokens.foldl add n).next := by
  induction tokens generalizing n with
  | nil => exact hn
  | cons token rest ih => exact ih ((n.changes_add token).map_fst_order hn)

theorem tags_foldl (tokens : List Markup.Token) (n : Nest) :
    (tokens.foldl add n).order.filterMap (fun e => e.2.tag?) =
      n.order.filterMap (fun e => e.2.tag?) ++ (tokens.filterMap Markup.Token.tag?).map built := by
  induction tokens generalizing n with
  | nil => rw [List.foldl_nil, List.filterMap_nil, List.map_nil, List.append_nil]
  | cons token rest ih =>
    rw [List.foldl_cons, ih, (n.changes_add token).tags, List.append_assoc, List.filterMap_cons]
    cases token.tag? <;> rfl

theorem next_foldl_le (tokens : List Markup.Token) (n : Nest) :
    (tokens.foldl add n).next ≤ n.next + tokens.length := by
  induction tokens generalizing n with
  | nil => exact Nat.le_refl _
  | cons token rest ih =>
    have hstep := (n.changes_add token).next_le
    have hrest := ih (n.add token)
    rw [List.foldl_cons, List.length_cons]
    omega

end Nest

variable (tokens : List Markup.Token)

/-- When all is complete, the root stands in front of what was built. -/
theorem order_foldl_empty : (tokens.foldl Nest.add .empty).order =
    (root, .root) :: Rose.preorderAll (build tokens) := by
  obtain ⟨hid, hkind⟩ := (tracks_empty.foldl tokens).base
  rw [Nest.order, ← Nest.nodes_closeAll, Nest.nodes, Level.closed, Rose.preorder, hid, hkind]
  rfl

/-- The indices below the root are handed out in document order, with none left out. -/
theorem places_build : places (build tokens) = List.range' 1 ((ofTokens tokens).size - 1) := by
  have horder := Nest.map_fst_order_foldl tokens (n := .empty) rfl
  have hsize : (ofTokens tokens).size = _ := (tracks_empty.foldl tokens).size
  rw [order_foldl_empty, List.map_cons, ← hsize] at horder
  have hpos := (grown_ofTokens tokens).linked.root_lt_size
  obtain ⟨size, hsucc⟩ := Nat.exists_eq_succ_of_ne_zero (Nat.ne_of_gt hpos)
  rw [hsucc, List.range_succ_eq_map, List.cons.injEq] at horder
  rw [places, horder.2, hsucc, List.range'_eq_map_range]
  simp [Nat.add_comm]

theorem size_ofTokens_le : (ofTokens tokens).size ≤ tokens.length + 1 := by
  have hsize : (ofTokens tokens).size = _ := (tracks_empty.foldl tokens).size
  have hnext := Nest.next_foldl_le tokens .empty
  have hfirst : Nest.empty.next = 1 := rfl
  omega

/-- The links of the fragment give the trees that were built, indices included. -/
theorem region_ofTokens : (ofTokens tokens).region = build tokens := by
  have hheld := (stored_ofTokens tokens).held
  have hchildren := children_of_node? (hheld _ List.mem_cons_self)
  rw [region, forest, hchildren]
  refine (ofTokens tokens).reads.pairAll_unfold _ hheld.tail fun b hb => ?_
  exact (settled_ofTokens tokens).of_mem (hchildren ▸ hb)

theorem preorder_ofTokens :
    (ofTokens tokens).preorder = List.range' 1 ((ofTokens tokens).size - 1) := by
  rw [(grown_ofTokens tokens).linked.preorder_eq, region_ofTokens, places_build]

/-- The tags of a fragment are those of the start tags, in the same order. -/
theorem tags_ofTokens : (ofTokens tokens).preorder.filterMap (ofTokens tokens).tag? =
    (tokens.filterMap Markup.Token.tag?).map built := by
  have hkind : (ofTokens tokens).tag? = Kind.tag? ∘ (ofTokens tokens).kindOf := by
    funext id
    rw [tag?, Function.comp_apply, kindOf]
    cases (ofTokens tokens).kind? id <;> rfl
  have htags := Nest.tags_foldl tokens .empty
  rw [order_foldl_empty] at htags
  rw [hkind, ← List.filterMap_map, map_kindOf_preorder_ofTokens, content_ofTokens,
    Rose.preorderAll_mapAll, List.filterMap_map]
  exact htags

theorem size_ofTokens_eq :
    (ofTokens tokens).size = (Rose.preorderAll (ofTokens tokens).content).length + 1 := by
  have hplaces := congrArg List.length (places_build tokens)
  have hpos := (grown_ofTokens tokens).linked.root_lt_size
  rw [places, List.length_map, List.length_range'] at hplaces
  rw [content_ofTokens, Rose.preorderAll_mapAll, List.length_map]
  omega

/-- Every node of the arena is the root or one that was built. -/
theorem mem_map_fst_records {id : Nat} (hid : id < (ofTokens tokens).size) :
    id ∈ (Rose.records Node.mk none (.node (root, .root) (build tokens))).map Prod.fst := by
  have hplaces := places_build tokens
  rw [places] at hplaces
  have hroot : root = 0 := rfl
  rw [Rose.map_fst_records, Rose.preorder, List.map_cons, hplaces, List.mem_cons, List.mem_range'_1]
  omega

/-- Fragments that are built from tokens differ in their content if they differ at all. -/
theorem ofTokens_eq_of_content {tokens more : List Markup.Token}
    (h : (ofTokens tokens).content = (ofTokens more).content) :
    ofTokens tokens = ofTokens more := by
  have hsize : (ofTokens tokens).size = (ofTokens more).size := by
    rw [size_ofTokens_eq, size_ofTokens_eq, h]
  have hbuild : build tokens = build more := by
    refine Rose.eq_of_placesAll _ _ ?_ ?_
    · rw [places_build, places_build, hsize]
    · rw [← content_ofTokens, ← content_ofTokens, h]
  have hnode : ∀ id, (ofTokens tokens).node? id = (ofTokens more).node? id := by
    intro id
    by_cases hid : id < (ofTokens tokens).size
    · obtain ⟨e, he, rfl⟩ := List.mem_map.mp (mem_map_fst_records tokens hid)
      have hnode := (stored_ofTokens tokens).held e he
      rw [hbuild] at he
      rw [hnode, (stored_ofTokens more).held e he]
    · have hge := Nat.le_of_not_lt hid
      have hge' := hge
      rw [hsize] at hge'
      exact (Array.getElem?_eq_none hge).trans (Array.getElem?_eq_none hge').symm
  exact congrArg Fragment.mk (Array.ext_getElem? hnode)

end Fragment

end LiveMarkup
