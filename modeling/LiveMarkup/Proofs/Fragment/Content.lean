import LiveMarkup.Proofs.Fragment.Playable
import LiveMarkup.Proofs.Markup.Scan

/-!
# The content of a fragment

What a fragment means is the forest below its root, each node given by what it is. For a
fragment that is built from tokens, that is what its nest has in the end.

Text that is added joins the text in front of it. So trees that come one after the other
are not just put together but glued: where texts meet, they become one (`glue`). Gluing is
associative, which makes the content of a nest independent of the pieces it came in.
-/

namespace LiveMarkup.Fragment

/-- What an index names, taken for a root where it names nothing. -/
def kindOf (t : Fragment) (id : Nat) : Kind := (t.kind? id).getD .root

/-- The trees below the root, given by what their nodes are. -/
def content (t : Fragment) : List (Rose Kind) := Rose.mapAll t.kindOf t.forest

theorem children_of_node? {t : Fragment} {id : Nat} {n : Node} (hn : t.node? id = some n) :
    t.children id = n.children := by
  rw [children, hn]
  rfl

theorem reads (t : Fragment) : Reads Node.mk t.node? t.children t.kindOf where
  below hn := children_of_node? hn
  kindOf hn := by rw [kindOf, kind?, hn]; rfl

theorem settled_ofTokens (tokens : List Markup.Token) :
    Rose.Settled (ofTokens tokens).children (ofTokens tokens).size root := by
  have hsize := length_places_build_le tokens
  refine (ofTokens tokens).reads.settled (stored_ofTokens tokens).held ?_
  rw [Rose.places, List.length_map] at hsize
  rw [Rose.preorder, List.length_cons]
  omega

/-- The fragment of some tokens has the trees that the tokens build, and no others. -/
theorem content_ofTokens (tokens : List Markup.Token) :
    (ofTokens tokens).content = Rose.mapAll Prod.snd (build tokens) := by
  have hheld := (stored_ofTokens tokens).held
  have hchildren := children_of_node? (hheld _ List.mem_cons_self)
  rw [content, forest, hchildren]
  refine (ofTokens tokens).reads.mapAll_unfold _ hheld.tail fun b hb => ?_
  exact (settled_ofTokens tokens).of_mem (hchildren ▸ hb)

theorem length_content_ofTokens_le (tokens : List Markup.Token) :
    (Rose.preorderAll (ofTokens tokens).content).length ≤ (ofTokens tokens).size := by
  have hsize := length_places_build_le tokens
  rwa [content_ofTokens, Rose.preorderAll_mapAll, List.length_map, ← List.length_map Prod.fst]

/-- The document order of the nodes is that of the content. -/
theorem map_kindOf_preorder_ofTokens (tokens : List Markup.Token) :
    (ofTokens tokens).preorder.map (ofTokens tokens).kindOf =
      Rose.preorderAll (ofTokens tokens).content := by
  have hsize := length_content_ofTokens_le tokens
  rw [content, Rose.preorderAll_mapAll, List.length_map] at hsize
  have hwalk := walk_eq_preorder (fun id => ([id], (ofTokens tokens).children id))
    (ofTokens tokens).size (ofTokens tokens).size ((ofTokens tokens).children root)
    (fun b hb => (settled_ofTokens tokens).of_mem hb) hsize
  rw [List.flatMap_singleton'] at hwalk
  rw [content, Rose.preorderAll_mapAll, preorder, hwalk, forest]

/-- A tree in front of others. Where it is a text and meets a text, the two become one. -/
def joinTree : Rose Kind → List (Rose Kind) → List (Rose Kind)
  | .node (.text s) below, .node (.text s') _ :: rest => .node (.text (s ++ s')) below :: rest
  | r, l => r :: l

/-- Trees in front of others, with the texts at the seam made one. -/
def glue : List (Rose Kind) → List (Rose Kind) → List (Rose Kind)
  | [], m => m
  | [r], m => joinTree r m
  | r :: s :: l, m => r :: glue (s :: l) m

/-- A text in front of trees; an empty one is none. -/
def joinText (s : String) (l : List (Rose Kind)) : List (Rose Kind) :=
  if s = "" then l else joinTree (.node (.text s) []) l

@[simp] theorem joinTree_nil (r : Rose Kind) : joinTree r [] = [r] := by
  obtain ⟨kind, below⟩ := r
  cases kind <;> rfl

@[simp] theorem glue_nil (l : List (Rose Kind)) : glue l [] = l := by
  induction l with
  | nil => rfl
  | cons r l ih =>
    cases l with
    | nil => exact joinTree_nil r
    | cons s l => rw [glue, ih]

theorem glue_singleton (r : Rose Kind) (m : List (Rose Kind)) : glue [r] m = joinTree r m := rfl

/-- Only the last tree before the seam matters. -/
theorem glue_append {l : List (Rose Kind)} (hl : l ≠ []) (before m : List (Rose Kind)) :
    glue (before ++ l) m = before ++ glue l m := by
  induction before with
  | nil => rfl
  | cons r before ih =>
    have hne := List.append_ne_nil_of_right_ne_nil before hl
    obtain ⟨s, rest, hs⟩ := List.exists_cons_of_ne_nil hne
    rw [List.cons_append, List.cons_append, ← ih, hs, glue]

theorem joinTree_ne_nil (r : Rose Kind) (l : List (Rose Kind)) : joinTree r l ≠ [] := by
  unfold joinTree
  split
  · exact List.cons_ne_nil _ _
  · exact List.cons_ne_nil _ _

/-- A tree other than a text is put in front of others as it is. -/
theorem joinTree_of_ne_text {kind : Kind} (hkind : ∀ s, kind ≠ .text s)
    (below l : List (Rose Kind)) : joinTree (.node kind below) l = .node kind below :: l := by
  cases kind with
  | text s => exact absurd rfl (hkind s)
  | root => rfl
  | tag name attributes => rfl
  | comment data => rfl
  | directive data => rfl

/-- A text meets nothing in front of a tree other than a text. -/
theorem joinTree_cons_of_ne_text (q : Rose Kind) {kind : Kind} (hkind : ∀ s, kind ≠ .text s)
    (below l : List (Rose Kind)) :
    joinTree q (.node kind below :: l) = q :: .node kind below :: l := by
  unfold joinTree
  split
  · next heq =>
    cases heq
    exact absurd rfl (hkind _)
  · rfl

/-- Joining texts in a row is joining their contents in a row. -/
theorem joinTree_text (s s' : String) (below below' l : List (Rose Kind)) :
    joinTree (.node (.text s) below) (joinTree (.node (.text s') below') l) =
      joinTree (.node (.text (s ++ s')) below) l := by
  by_cases hl : ∃ u below rest, l = .node (.text u) below :: rest
  · obtain ⟨u, below, rest, rfl⟩ := hl
    simp only [joinTree, String.append_assoc]
  · have hplain : ∀ s below, joinTree (.node (.text s) below) l = .node (.text s) below :: l := by
      intro s below
      unfold joinTree
      split
      · exact absurd ⟨_, _, _, rfl⟩ hl
      · rfl
    rw [hplain, hplain, joinTree]

private theorem glue_joinTree_joinTree (q r : Rose Kind) (m : List (Rose Kind)) :
    glue (joinTree q [r]) m = joinTree q (joinTree r m) := by
  obtain ⟨kind, below⟩ := r
  obtain ⟨kind', below'⟩ := q
  by_cases hkind : ∃ s, kind = .text s
  · obtain ⟨s, rfl⟩ := hkind
    by_cases hkind' : ∃ s, kind' = .text s
    · obtain ⟨s', rfl⟩ := hkind'
      rw [joinTree_text]
      rfl
    · have hne : ∀ s, kind' ≠ .text s := fun s heq => hkind' ⟨s, heq⟩
      rw [joinTree_of_ne_text hne, joinTree_of_ne_text hne]
      rfl
  · have hne : ∀ s, kind ≠ .text s := fun s heq => hkind ⟨s, heq⟩
    rw [joinTree_cons_of_ne_text _ hne, glue, glue, joinTree_of_ne_text hne,
      joinTree_cons_of_ne_text _ hne]

/-- It does not matter which of two seams is closed first. -/
theorem glue_joinTree (l : List (Rose Kind)) (r : Rose Kind) (m : List (Rose Kind)) :
    glue (glue l [r]) m = glue l (joinTree r m) := by
  rcases l.eq_nil_or_concat' with rfl | ⟨before, q, rfl⟩
  · rfl
  · have hne : [q] ≠ [] := List.cons_ne_nil q []
    rw [glue_append hne, glue_append hne, glue_singleton, glue_singleton,
      glue_append (joinTree_ne_nil q [r]), glue_joinTree_joinTree]

/-- Before a tree other than a text, there is no seam to close. -/
theorem glue_cons_of_ne_text (l : List (Rose Kind)) {kind : Kind} (hkind : ∀ s, kind ≠ .text s)
    (below m : List (Rose Kind)) : glue l (.node kind below :: m) = l ++ .node kind below :: m := by
  rcases l.eq_nil_or_concat' with rfl | ⟨before, q, rfl⟩
  · rfl
  · rw [glue_append (List.cons_ne_nil q []), glue_singleton, joinTree_cons_of_ne_text q hkind,
      List.append_assoc]
    rfl

/-- What the complete trees of an open element are. -/
def Level.content (l : Level) : List (Rose Kind) := Rose.mapAll Prod.snd l.passed

theorem Level.content_push (l : Level) (r : Rose (Nat × Kind)) :
    (l.push r).content = l.content ++ [r.map Prod.snd] := by
  rw [content, push, Rose.mapAll_append]
  rfl

namespace Nest

/-- The second nest has the same open elements as the first and more in the innermost of
them: what `gain` puts in front of whatever comes later. -/
structure Gains (n n' : Nest) (gain : List (Rose Kind) → List (Rose Kind)) : Prop where
  id : n'.inner.id = n.inner.id
  kind : n'.inner.kind = n.inner.kind
  outer : n'.outer = n.outer
  content : ∀ m, glue n'.inner.content m = glue n.inner.content (gain m)

variable {n n' k : Nest} {gain gain' : List (Rose Kind) → List (Rose Kind)}

theorem Gains.refl (n : Nest) : Gains n n fun m => m := ⟨rfl, rfl, rfl, fun _ => rfl⟩

theorem Gains.trans (h : Gains n n' gain) (h' : Gains n' k gain') :
    Gains n k fun m => gain (gain' m) where
  id := h'.id.trans h.id
  kind := h'.kind.trans h.kind
  outer := h'.outer.trans h.outer
  content m := (h'.content m).trans (h.content _)

/-- What an element has that was empty before. -/
theorem Gains.content_eq (h : Gains n n' gain) (hempty : n.inner.passed = []) :
    n'.inner.content = gain [] := by
  have hnone : n.inner.content = [] := by rw [Level.content, hempty]; rfl
  have hcontent := h.content []
  rwa [glue_nil, hnone, glue] at hcontent

/-- A tree that is glued to those before is joined to those that come later. -/
theorem gains_of_glue {r : Rose Kind} (hid : n'.inner.id = n.inner.id)
    (hkind : n'.inner.kind = n.inner.kind) (houter : n'.outer = n.outer)
    (hcontent : n'.inner.content = glue n.inner.content [r]) : Gains n n' (joinTree r) :=
  ⟨hid, hkind, houter, fun m => by rw [hcontent, glue_joinTree]⟩

/-- A tree that is no text is put behind the others. -/
theorem gains_push (n : Nest) (next : Nat) {r : Rose (Nat × Kind)} {kind : Kind}
    {below : List (Rose Kind)} (hr : r.map Prod.snd = .node kind below)
    (hkind : ∀ s, kind ≠ .text s) :
    Gains n ⟨next, n.inner.push r, n.outer⟩ (joinTree (.node kind below)) := by
  refine gains_of_glue rfl rfl rfl ?_
  rw [Level.content_push, hr, glue_cons_of_ne_text _ hkind]

/-- Text is glued to what the innermost element has. -/
theorem content_addText (n : Nest) {s : String} (hs : s ≠ "") :
    (n.addText s).inner.content = glue n.inner.content [.node (.text s) []] := by
  have hne : ∀ r : Rose Kind, [r] ≠ [] := fun r => List.cons_ne_nil r []
  rw [addText, if_neg hs]
  split
  · next id data below hlast =>
    obtain ⟨before, hpassed⟩ := List.getLast?_eq_some_iff.mp hlast
    simp only [Level.content, hpassed, List.dropLast_concat, Rose.mapAll_append, Rose.mapAll,
      Rose.map]
    rw [glue_append (hne _)]
    rfl
  · next hlast =>
    rw [grow, Level.content_push]
    rcases n.inner.passed.eq_nil_or_concat' with hpassed | ⟨before, ⟨⟨id, kind⟩, below⟩, hpassed⟩
    · rw [Level.content, hpassed]
      rfl
    · have hkind : ∀ data, kind ≠ .text data := by
        rintro data rfl
        exact hlast id data below (by rw [hpassed, List.getLast?_concat])
      simp only [Level.content, hpassed, Rose.mapAll_append, Rose.mapAll, Rose.map]
      rw [glue_append (hne _), glue_singleton, joinTree_of_ne_text hkind, List.append_assoc]
      rfl

theorem gains_addText (n : Nest) (s : String) : Gains n (n.addText s) (joinText s) := by
  by_cases hs : s = ""
  · subst hs
    exact .refl n
  · have hjoin : joinText s = joinTree (.node (.text s) []) := funext fun m => if_neg hs
    rw [hjoin]
    refine gains_of_glue ?_ ?_ ?_ (content_addText n hs)
    all_goals rw [addText, if_neg hs]; split <;> rfl

/-- An element without content. -/
theorem gains_hollow (n : Nest) (name : String) (attributes : List (String × Option String)) :
    Gains n (n.add (.startTag name attributes true))
      (joinTree (.node (.tag name (distinctAttributes attributes)) [])) :=
  gains_push n (n.next + 1) rfl (by simp)

/-- An element with what was added between its tags. -/
theorem Gains.element {name : String} {attributes : List (String × Option String)}
    (h : Gains (n.add (.startTag name attributes false)) n' gain) :
    Gains n (n'.add (.endTag name))
      (joinTree (.node (.tag name (distinctAttributes attributes)) (gain []))) := by
  have hcontent := h.content_eq rfl
  obtain ⟨next, ⟨id, kind, passed⟩, outer⟩ := n'
  have hkind : kind = .tag name (distinctAttributes attributes) := h.kind
  have houter : outer = n.inner :: n.outer := h.outer
  subst hkind houter
  have hend := add_endTag next ⟨id, .tag name (distinctAttributes attributes), passed⟩ n.inner
    n.outer
  rw [Kind.name] at hend
  rw [hend]
  refine gains_push n next ?_ (by simp)
  rw [Level.closed, Rose.map, ← hcontent]
  rfl

/-- Tokens that add to nothing make up a whole fragment. -/
theorem Gains.content_ofTokens {tokens : List Markup.Token}
    (h : Gains .empty (tokens.foldl add .empty) gain) : (ofTokens tokens).content = gain [] := by
  have houter : (tokens.foldl add .empty).outer = [] := h.outer
  rw [Fragment.content_ofTokens, build, finished, houter, closeAll]
  exact h.content_eq rfl

/-- Text that is added ends up at the end of a text that is the last tree. -/
theorem exists_addText (n : Nest) : ∃ next before id data below, ∀ s, s ≠ "" →
    n.addText s = ⟨next, { n.inner with
      passed := before ++ [.node (id, .text (data ++ s)) below] }, n.outer⟩ := by
  by_cases hlast : ∃ id data below, n.inner.passed.getLast? = some (.node (id, .text data) below)
  · obtain ⟨id, data, below, hlast⟩ := hlast
    refine ⟨n.next, n.inner.passed.dropLast, id, data, below, fun s hs => ?_⟩
    simp only [addText, if_neg hs, hlast]
  · refine ⟨n.next + 1, n.inner.passed, n.next, "", [], fun s hs => ?_⟩
    rw [addText, if_neg hs, String.empty_append]
    split
    · next id data below h => exact absurd ⟨id, data, below, h⟩ hlast
    · rfl

theorem addText_addText (n : Nest) (s s' : String) :
    (n.addText s).addText s' = n.addText (s ++ s') := by
  by_cases hs : s = ""
  · subst hs
    rw [String.empty_append]
    rfl
  · by_cases hs' : s' = ""
    · subst hs'
      rw [String.append_empty]
      rfl
    · obtain ⟨next, before, id, data, below, hadd⟩ := n.exists_addText
      have hne : s ++ s' ≠ "" := by simp [hs]
      rw [hadd s hs, hadd _ hne, addText, if_neg hs', List.getLast?_concat]
      simp [String.append_assoc]

/-- Text is added in the same way whether or not it has become one token with what follows. -/
theorem foldl_addText (n : Nest) (s : String) (tokens : List Markup.Token) :
    (Markup.Token.addText s tokens).foldl add n = tokens.foldl add (n.addText s) := by
  rw [Markup.Token.addText]
  by_cases hs : s = ""
  · subst hs
    rfl
  · rw [if_neg hs]
    unfold Markup.Token.prepend
    split
    · next u rest heq =>
      cases heq
      rw [List.foldl_cons, List.foldl_cons, add, add, addText_addText]
    · rfl

end Nest

/-- The first attribute of each name. -/
def firstOfEach : List (String × String) → List (String × String)
  | [] => []
  | a :: rest => a :: (firstOfEach rest).filter (·.1 ≠ a.1)

theorem distinctAttributes_map_some (l : List (String × String)) :
    distinctAttributes (l.map fun a => (a.1, some a.2)) = firstOfEach l := by
  induction l with
  | nil => rfl
  | cons a rest ih => rw [List.map_cons, distinctAttributes, ih, firstOfEach]; rfl

end LiveMarkup.Fragment
