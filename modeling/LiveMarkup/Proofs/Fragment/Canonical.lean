import LiveMarkup.Proofs.Fragment.Order
import LiveMarkup.Proofs.Fragment.Tidy
import Mathlib.Data.List.Forall2

/-!
# What tokens build is canonical

Any tokens build a fragment. The tokens that say what it is, with an end tag for each tag and with
no tag that closes itself, need not be those that it was built from: text comes in pieces, end tags
are missing or go nowhere, attributes are given twice. But they build the same fragment again, down
to the indices.

Two things make this so. No piece of the fragment joins with another one when it is added again,
because the trees are tidy. And the indices are in document order both times, so that fragments with
the same content are the same.
-/

namespace LiveMarkup.Fragment

variable {t : Fragment} {tokens : List Markup.Token}

/-- Adds one token with calls that can be refused. -/
def Draft.addChecked (d : Draft) : Markup.Token → Except AppendError Draft
  | .doctype text => do
    let (_, fragment) ← d.fragment.append d.place (.directive text)
    return ⟨fragment, d.opened⟩
  | .comment text => do
    let (_, fragment) ← d.fragment.append d.place (.comment text)
    return ⟨fragment, d.opened⟩
  | .text content => do
    let (_, fragment) ← d.fragment.appendText d.place content
    return ⟨fragment, d.opened⟩
  | .startTag name attributes selfClosing => do
    let (id, fragment) ← d.fragment.append d.place (.tag name (distinctAttributes attributes))
    return ⟨fragment, if selfClosing then d.opened else (id, name) :: d.opened⟩
  | .endTag name => return ⟨d.fragment, Draft.closeAt name d.opened⟩

/-- The fragment of a list of tokens, if no call on the way is refused. -/
def ofTokensChecked (tokens : List Markup.Token) : Except AppendError Fragment := do
  let d ← tokens.foldlM Draft.addChecked ⟨empty, []⟩
  return d.fragment

theorem exists_appendText_eq_ok {parent : Nat} (hparent : t.isContainerAt parent = true)
    (text : String) : ∃ id, t.appendText parent text = .ok (id, t.attachText parent text) := by
  rw [appendText, attachText]
  split
  · exact ⟨none, rfl⟩
  · obtain ⟨kind, hkind, -⟩ := (Option.any_eq_true _ _).mp hparent
    rw [hkind, append_eq_ok (by simp) hparent]
    cases t.trailingText? parent with
    | none => exact ⟨some t.size, rfl⟩
    | some last => exact ⟨some last.1, rfl⟩

/-- An open element takes any child, so nothing is refused. -/
theorem Draft.Sound.addChecked {d : Draft} (h : d.Sound) (token : Markup.Token) :
    d.addChecked token = .ok (d.add token) := by
  have hplace := h.place
  cases token with
  | doctype text =>
    rw [Draft.addChecked, append_eq_ok (by simp) hplace]
    rfl
  | comment text =>
    rw [Draft.addChecked, append_eq_ok (by simp) hplace]
    rfl
  | text content =>
    obtain ⟨id, hok⟩ := exists_appendText_eq_ok hplace content
    rw [Draft.addChecked, hok]
    rfl
  | startTag name attributes selfClosing =>
    rw [Draft.addChecked, append_eq_ok (by simp) hplace]
    rfl
  | endTag name => rfl

theorem Draft.Sound.foldlM_addChecked {d : Draft} (h : d.Sound) (tokens : List Markup.Token) :
    tokens.foldlM Draft.addChecked d = .ok (tokens.foldl Draft.add d) := by
  induction tokens generalizing d with
  | nil => rfl
  | cons token rest ih =>
    rw [List.foldlM_cons, h.addChecked token, List.foldl_cons]
    exact ih (h.add token)

theorem ofTokensChecked_eq (tokens : List Markup.Token) :
    ofTokensChecked tokens = .ok (ofTokens tokens) := by
  rw [ofTokensChecked, Draft.sound_empty.foldlM_addChecked]
  rfl

/-- A tag is what a start tag says: it has that name, and of the values that are written for an
attribute it has the first one, which is empty if it is left out. The attributes stand in the order
in which their names are first written. -/
structure Keeps (written : String × List (String × Option String))
    (tag : String × List (String × String)) : Prop where
  name : tag.1 = written.1
  value : ∀ key, tag.2.lookup key = (written.2.lookup key).map fun value => value.getD ""
  order : (tag.2.map Prod.fst).Pairwise fun key later =>
    (written.2.map Prod.fst).idxOf key < (written.2.map Prod.fst).idxOf later

theorem lookup_filter_of_ne {key name : String} (hne : key ≠ name) (l : List (String × String)) :
    (l.filter (·.1 ≠ name)).lookup key = l.lookup key := by
  induction l with
  | nil => rfl
  | cons a rest ih =>
    obtain ⟨other, value⟩ := a
    by_cases hother : other = name
    · subst hother
      rw [List.filter_cons_of_neg (by simp), ih, List.lookup_cons, beq_false_of_ne hne]
    · rw [List.filter_cons_of_pos (by simpa using hother), List.lookup_cons, List.lookup_cons, ih]

theorem lookup_distinctAttributes (attributes : List (String × Option String)) (key : String) :
    (distinctAttributes attributes).lookup key =
      (attributes.lookup key).map fun value => value.getD "" := by
  induction attributes with
  | nil => rfl
  | cons a rest ih =>
    obtain ⟨name, value⟩ := a
    rw [distinctAttributes, List.lookup_cons, List.lookup_cons]
    by_cases hkey : key = name
    · subst hkey
      rw [beq_self_eq_true]
      rfl
    · rw [beq_false_of_ne hkey, lookup_filter_of_ne hkey, ih]

theorem pairwise_distinctAttributes (attributes : List (String × Option String)) :
    ((distinctAttributes attributes).map Prod.fst).Pairwise fun key later =>
      (attributes.map Prod.fst).idxOf key < (attributes.map Prod.fst).idxOf later := by
  induction attributes with
  | nil => exact .nil
  | cons a rest ih =>
    obtain ⟨name, value⟩ := a
    -- Behind the first name there are only others, each one place further back than in the rest.
    have hshift : ∀ {key}, key ≠ name → (name :: rest.map Prod.fst).idxOf key =
        (rest.map Prod.fst).idxOf key + 1 := by
      intro key hkey
      rw [List.idxOf_cons, beq_false_of_ne hkey.symm, cond_false]
    have hother : ∀ {key}, key ∈ ((distinctAttributes rest).filter (·.1 ≠ name)).map Prod.fst →
        key ≠ name := by
      intro key hkey
      obtain ⟨b, hb, rfl⟩ := List.mem_map.mp hkey
      simpa using (List.mem_filter.mp hb).2
    rw [distinctAttributes, List.map_cons, List.map_cons, List.pairwise_cons]
    constructor
    · intro key hkey
      rw [hshift (hother hkey), List.idxOf_cons_self]
      omega
    · have hrest := ih.sublist ((List.filter_sublist (p := (·.1 ≠ name))).map Prod.fst)
      refine hrest.imp_of_mem fun hkey hlater hlt => ?_
      rw [hshift (hother hkey), hshift (hother hlater)]
      omega

theorem keeps_built (tag : String × List (String × Option String)) : Keeps tag (built tag) :=
  ⟨rfl, lookup_distinctAttributes tag.2, pairwise_distinctAttributes tag.2⟩

/-- Whether the node at an index is a text. -/
def isTextAt (t : Fragment) (id : Nat) : Bool := (t.kindOf id).isText

/-- No text is empty or stands next to another one, and each attribute of a tag has its own name. -/
structure Tidied (t : Fragment) : Prop where
  text_ne_empty : ∀ {id data}, t.kind? id = some (.text data) → data ≠ ""
  apart : ∀ id, (t.children id).IsChain fun c d => t.isTextAt c = false ∨ t.isTextAt d = false
  nodup_names : ∀ {id name attributes}, t.kind? id = some (.tag name attributes) →
    (attributes.map Prod.fst).Nodup

/-- The tree at a node, given by what its nodes are. -/
def treeAt (t : Fragment) (id : Nat) : Rose Kind :=
  (Rose.unfold t.children t.size id).map t.kindOf

theorem content_eq_map_treeAt (t : Fragment) : t.content = (t.children root).map t.treeAt := by
  rw [content, Rose.mapAll_eq_map, forest, List.map_map]
  rfl

theorem isChain_treeAt_iff (t : Fragment) (ids : List Nat) : (ids.map t.treeAt).IsChain Apart ↔
    ids.IsChain fun c d => t.isTextAt c = false ∨ t.isTextAt d = false := by
  rw [List.isChain_map]
  simp only [Apart, treeAt, Rose.label_map, Rose.label_unfold, isTextAt]

namespace Linked

theorem treeAt_eq (ht : Linked t) (id : Nat) :
    t.treeAt id = .node (t.kindOf id) ((t.children id).map t.treeAt) := by
  rw [treeAt, Rose.unfold_eq (ht.hierarchy.settled id), Rose.map, Rose.mapAll_eq_map, List.map_map]
  rfl

/-- A node is tidy because the tree that it is in below the root is. -/
theorem tidy_treeAt (ht : Linked t) (htidy : ∀ r ∈ t.content, Tidy r) {id : Nat}
    (hid : id < t.size) (hne : id ≠ Fragment.root) : Tidy (t.treeAt id) := by
  induction id using Nat.strongRecOn with
  | ind id ih =>
    cases hparent : t.parent? id with
    | none => exact absurd (ht.parent?_eq_none hid hparent) hne
    | some p =>
      have hmem := List.mem_map_of_mem (f := t.treeAt) (ht.mem_children_iff.mpr hparent)
      have hlt := ht.lt_of_parent? hparent
      by_cases hp : p = Fragment.root
      · rw [hp, ← content_eq_map_treeAt] at hmem
        exact htidy _ hmem
      · have htree := ih p hlt (Nat.lt_trans hlt hid) hp
        rw [ht.treeAt_eq p] at htree
        exact htree.branches.1 _ hmem

theorem tidied (ht : Linked t) (htidy : ∀ r ∈ t.content, Tidy r)
    (hapart : t.content.IsChain Apart) : Tidied t := by
  have hneat : ∀ {id kind}, t.kind? id = some kind → kind ≠ .root →
      kind.Neat ((t.children id).map t.treeAt) := by
    intro id kind hkind hroot
    obtain ⟨n, hn, rfl⟩ := Option.map_eq_some_iff.mp hkind
    have hne : id ≠ Fragment.root := by
      rintro rfl
      obtain ⟨children, hnode⟩ := ht.root
      rw [kind?_of_node? hnode, Option.some_inj] at hkind
      exact hroot hkind.symm
    have htree := ht.tidy_treeAt htidy (lt_size_of_node? hn) hne
    rw [ht.treeAt_eq, kindOf, hkind] at htree
    exact htree.neat
  refine ⟨fun hkind => (hneat hkind (by simp)).1, fun id => ?_, fun hkind => hneat hkind (by simp)⟩
  rw [← isChain_treeAt_iff]
  by_cases hne : id = Fragment.root
  · rw [hne, ← content_eq_map_treeAt]
    exact hapart
  · by_cases hid : id < t.size
    · have htree := ht.tidy_treeAt htidy hid hne
      rw [ht.treeAt_eq] at htree
      exact htree.branches.2
    · have hnone : t.node? id = none := Array.getElem?_eq_none (Nat.le_of_not_lt hid)
      rw [children, hnone]
      exact .nil

end Linked

/-- The tokens in front of what is in a node. -/
def Kind.opening : Kind → List Markup.Token
  | .root => []
  | .tag name attributes => [.startTag name (attributes.map fun a => (a.1, some a.2)) false]
  | .text data => [.text data]
  | .comment data => [.comment data]
  | .directive data => [.doctype data]

/-- The tokens behind what is in a node. -/
def Kind.closing : Kind → List Markup.Token
  | .tag name _ => [.endTag name]
  | _ => []

mutual

/-- The tokens that say what a tree is. -/
def flatten : Rose Kind → List Markup.Token
  | .node kind branches => kind.opening ++ (flattenAll branches ++ kind.closing)

/-- The tokens that say what some trees are. -/
def flattenAll : List (Rose Kind) → List Markup.Token
  | [] => []
  | r :: rest => flatten r ++ flattenAll rest

end

/-- The tokens that say what a fragment is. -/
def toTokens (t : Fragment) : List Markup.Token := flattenAll t.content

theorem foldr_joinTree_of_apart {trees : List (Rose Kind)} (h : trees.IsChain Apart) :
    trees.foldr joinTree [] = trees := by
  induction trees with
  | nil => rfl
  | cons r rest ih =>
    rw [List.isChain_cons] at h
    rw [List.foldr_cons, ih h.2, joinTree_of_apart h.1]

namespace Nest

theorem gains_flattenAll {trees : List (Rose Kind)}
    (h : ∀ r ∈ trees, ∀ n : Nest, n.Gains ((flatten r).foldl add n) (joinTree r)) (n : Nest) :
    n.Gains ((flattenAll trees).foldl add n) fun m => trees.foldr joinTree m := by
  induction trees generalizing n with
  | nil => exact .refl n
  | cons r rest ih =>
    have hfirst := h r List.mem_cons_self n
    have hrest := ih (fun s hs => h s (List.mem_cons_of_mem _ hs)) ((flatten r).foldl add n)
    rw [flattenAll, List.foldl_append]
    exact hfirst.trans hrest

/-- A tag is added by its tokens when each of the trees in it is. -/
theorem gains_tag {name : String} {attributes : List (String × String)}
    {branches : List (Rose Kind)} (htidy : Fragment.Tidy (.node (.tag name attributes) branches))
    (h : ∀ r ∈ branches, ∀ n : Nest, n.Gains ((flatten r).foldl add n) (joinTree r)) (n : Nest) :
    n.Gains ((flatten (.node (.tag name attributes) branches)).foldl add n)
      (joinTree (.node (.tag name attributes) branches)) := by
  have hbody := gains_flattenAll h
    (n.add (.startTag name (attributes.map fun a => (a.1, some a.2)) false))
  have helement := hbody.element
  rw [foldr_joinTree_of_apart htidy.branches.2, distinctAttributes_map_some,
    firstOfEach_eq_self htidy.neat] at helement
  simpa [flatten, Kind.opening, Kind.closing] using helement

end Nest

namespace Linked

/-- The tokens of a node add the tree at that node, in front of whatever comes later. -/
theorem gains_flatten (ht : Linked t) (htidy : ∀ r ∈ t.content, Tidy r) {id : Nat}
    (hid : id < t.size) (hne : id ≠ Fragment.root) (n : Nest) :
    n.Gains ((flatten (t.treeAt id)).foldl Nest.add n) (joinTree (t.treeAt id)) := by
  -- Children have larger indices, so there are fewer nodes behind them.
  induction hbound : t.size - id using Nat.strongRecOn generalizing id n with
  | ind bound ih =>
    have htree := ht.tidy_treeAt htidy hid hne
    have hkind : t.kind? id = some (t.kindOf id) := kind?_of_node? (node?_eq_of_lt hid)
    rw [ht.treeAt_eq] at htree ⊢
    have hleaf : (t.kindOf id).isContainer = false → t.children id = [] := by
      intro hleaf
      refine ht.children_eq_nil ?_
      rw [Fragment.isContainerAt, hkind]
      exact hleaf
    generalize t.kindOf id = kind at *
    cases kind with
    | root => exact absurd (ht.eq_root hkind) hne
    | tag name attributes =>
      refine Nest.gains_tag htree (fun r hr n => ?_) n
      obtain ⟨c, hc, rfl⟩ := List.mem_map.mp hr
      obtain ⟨hlt, hsize, hroot⟩ := ht.of_mem_children hc
      exact ih (t.size - c) (by omega) hsize hroot n rfl
    | text data =>
      rw [hleaf rfl] at htree ⊢
      have hjoin : joinText data = joinTree (.node (.text data) []) :=
        funext fun m => if_neg htree.neat.1
      rw [List.map_nil, ← hjoin]
      exact n.gains_addText data
    | comment data =>
      rw [hleaf rfl]
      exact n.gains_push (n.next + 1) rfl (by simp)
    | directive data =>
      rw [hleaf rfl]
      exact n.gains_push (n.next + 1) rfl (by simp)

/-- The tokens of a tidy fragment build its trees. -/
theorem content_ofTokens_toTokens (ht : Linked t) (htidy : ∀ r ∈ t.content, Tidy r)
    (hapart : t.content.IsChain Apart) : (ofTokens t.toTokens).content = t.content := by
  have heach : ∀ r ∈ t.content, ∀ n : Nest,
      n.Gains ((flatten r).foldl Nest.add n) (joinTree r) := by
    intro r hr n
    rw [content_eq_map_treeAt] at hr
    obtain ⟨c, hc, rfl⟩ := List.mem_map.mp hr
    obtain ⟨-, hsize, hroot⟩ := ht.of_mem_children hc
    exact ht.gains_flatten htidy hsize hroot n
  rw [toTokens, (Nest.gains_flattenAll heach .empty).content_ofTokens,
    foldr_joinTree_of_apart hapart]

end Linked

/-- Any tokens build a fragment, and no call on the way is refused. It has at most one node for each
token, and the root. No text in it is empty or next to another one. Its tags are those of the start
tags, with the first value of each attribute. The indices are in document order. And flattening it
gives tokens that build the same fragment. -/
theorem ofTokens_canonical (tokens : List Markup.Token) :
    ofTokensChecked tokens = .ok (ofTokens tokens) ∧
    (ofTokens tokens).size ≤ tokens.length + 1 ∧
    Tidied (ofTokens tokens) ∧
    List.Forall₂ Keeps (tokens.filterMap Markup.Token.tag?)
      ((ofTokens tokens).preorder.filterMap (ofTokens tokens).tag?) ∧
    (ofTokens tokens).preorder = List.range' 1 ((ofTokens tokens).size - 1) ∧
    ofTokens (ofTokens tokens).toTokens = ofTokens tokens := by
  have ht := (grown_ofTokens tokens).linked
  obtain ⟨htidy, hapart⟩ := tidy_content_ofTokens tokens
  refine ⟨ofTokensChecked_eq tokens, size_ofTokens_le tokens, ht.tidied htidy hapart, ?_,
    preorder_ofTokens tokens, ?_⟩
  · rw [tags_ofTokens, List.forall₂_map_right_iff, List.forall₂_same]
    exact fun tag _ => keeps_built tag
  · exact ofTokens_eq_of_content (ht.content_ofTokens_toTokens htidy hapart)

example : (ofTokens [.startTag "p" [("x", none), ("y", some "1"), ("x", some "2")] false, .text "a",
    .endTag "q", .text "b", .startTag "br" [] true, .endTag "p", .startTag "i" [] false]).toTokens =
    [.startTag "p" [("x", some ""), ("y", some "1")] false, .text "ab", .startTag "br" [] false,
      .endTag "br", .endTag "p", .startTag "i" [] false, .endTag "i"] := by
  decide

end LiveMarkup.Fragment
