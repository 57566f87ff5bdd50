import LiveMarkup.Proofs.Fragment.Content
import LiveMarkup.Proofs.Patch.Accepted
import LiveMarkup.Proofs.Patch.Keys
import LiveMarkup.Proofs.Walk

/-!
# Compiling as a recursion

Compiling walks the arena of a fragment; what comes out is a recursion over its trees
(`Config.gives`). Since the trees that markup builds are playable, every program that is
compiled from markup is accepted, whatever keys are chosen for it.
-/

namespace LiveMarkup.Patch

open Fragment (Branches Playable)
open Rose (place places recordsAll)

namespace Config

variable (config : Config)

mutual

/-- What a tree gives where texts are not dropped. -/
def gives : Rose (Nat × Fragment.Kind) → List (Except CompileError Sketch)
  | .node (_, .text data) _ => [.ok (.text data)]
  | .node (_, .tag name attributes) branches =>
    let kind : Fragment.Kind := .tag name attributes
    .ok (.openTag name (config.explicitKey? kind) attributes) ::
      ((if config.isOpaque kind then [.ok .skip] else givesAll branches) ++
        [.ok (.closeTag name)])
  | .node (id, kind) _ => [.error (.unrecognized kind id)]

/-- What some trees give, in order. -/
def givesAll : Branches → List (Except CompileError Sketch)
  | [] => []
  | r :: rest => gives r ++ givesAll rest

end

end Config

variable {config : Config} {t : Fragment}

/-- Whether a tree is a text. -/
def isText (r : Rose (Nat × Fragment.Kind)) : Bool :=
  match r.label.2 with
  | .text _ => true
  | _ => false

theorem exists_of_isText {r : Rose (Nat × Fragment.Kind)} (h : isText r = true) :
    ∃ id data branches, r = .node (id, .text data) branches := by
  obtain ⟨⟨id, kind⟩, branches⟩ := r
  cases kind with
  | text data => exact ⟨id, data, branches, rfl⟩
  | root => cases h
  | tag name attributes => cases h
  | comment data => cases h
  | directive data => cases h

/-- A walk of at most two steps for each node gives what the recursion gives. -/
def Walks (config : Config) (t : Fragment) (l : Branches)
    (out : List (Except CompileError Sketch)) : Prop :=
  ∃ n, n ≤ 2 * (places l).length ∧ Emits (config.visit t) ((l.map place).map Stop.node) n out

theorem walks_nil : Walks config t [] [] := ⟨0, Nat.le_refl _, .nil⟩

theorem Walks.cons {r : Rose (Nat × Fragment.Kind)} {l : Branches}
    {out out' : List (Except CompileError Sketch)} (h : Walks config t [r] out)
    (hl : Walks config t l out') : Walks config t (r :: l) (out ++ out') := by
  obtain ⟨n, hn, hemits⟩ := h
  obtain ⟨m, hm, hrest⟩ := hl
  refine ⟨n + m, ?_, hemits.append hrest⟩
  have hlength := Rose.length_places_cons r l
  omega

/-- A node below which nothing is looked at. -/
theorem walks_leaf {id : Nat} {kind : Fragment.Kind} {branches : Branches}
    {out : List (Except CompileError Sketch)} (hvisit : config.visit t (.node id) = (out, [])) :
    Walks config t [.node (id, kind) branches] out := by
  refine ⟨1, ?_, ?_⟩
  · rw [Rose.length_places_node]
    omega
  · exact Emits.leaf hvisit

/-- A tag gives its open, what is inside it and its close. -/
theorem walks_tag {id : Nat} {name : String} {attributes : List (String × String)}
    {branches : Branches} {parent : Option Nat} {inside : List (Except CompileError Sketch)}
    (hnode : t.node? id = some ⟨.tag name attributes, parent, branches.map place⟩)
    (hinside : config.isOpaque (.tag name attributes) = false → Walks config t branches inside) :
    Walks config t [.node (id, .tag name attributes) branches]
      (.ok (.openTag name (config.explicitKey? (.tag name attributes)) attributes) ::
        ((if config.isOpaque (.tag name attributes) then [.ok .skip] else inside) ++
          [.ok (.closeTag name)])) := by
  have hclose : Emits (config.visit t) [.close name] 1 [.ok (.closeTag name)] :=
    Emits.leaf rfl
  cases hkept : config.isOpaque (.tag name attributes) with
  | true =>
    have hvisit : config.visit t (.node id) = ([.ok (.openTag name
        (config.explicitKey? (.tag name attributes)) attributes), .ok .skip], [.close name]) := by
      simp [Config.visit, hnode, hkept]
    refine ⟨2, ?_, ?_⟩
    · rw [Rose.length_places_node]
      omega
    · exact Emits.single hvisit hclose
  | false =>
    obtain ⟨n, hn, hbranches⟩ := hinside hkept
    have hvisit : config.visit t (.node id) = ([.ok (.openTag name
        (config.explicitKey? (.tag name attributes)) attributes)],
          (branches.map place).map Stop.node ++ [.close name]) := by
      simp [Config.visit, hnode, hkept]
    refine ⟨n + 1 + 1, ?_, ?_⟩
    · rw [Rose.length_places_node]
      omega
    · exact Emits.single hvisit (hbranches.append hclose)

mutual

theorem walks_gives : ∀ (r : Rose (Nat × Fragment.Kind)) (parent : Option Nat),
    Held t.node? (Rose.records Fragment.Node.mk parent r) → Fragment.root ∉ places [r] →
    (isText r = true → parent ≠ some Fragment.root) → Walks config t [r] (config.gives r)
  | .node (id, kind) branches, parent => by
    intro hheld hroot htext
    have hnode := hheld _ List.mem_cons_self
    rw [Rose.places_node, List.mem_cons, not_or] at hroot
    cases kind with
    | tag name attributes =>
      refine walks_tag hnode fun _ => ?_
      refine walks_givesAll branches (some id) hheld.tail
        (fun hmem => hroot.2 (List.mem_append_left _ hmem)) ?_
      rw [ne_eq, Option.some_inj]
      exact Ne.symm hroot.1
    | text data =>
      refine walks_leaf ?_
      simp [Config.visit, Config.gives, hnode, htext rfl]
    | root =>
      refine walks_leaf ?_
      simp [Config.visit, Config.gives, hnode]
    | comment data =>
      refine walks_leaf ?_
      simp [Config.visit, Config.gives, hnode]
    | directive data =>
      refine walks_leaf ?_
      simp [Config.visit, Config.gives, hnode]

theorem walks_givesAll : ∀ (l : Branches) (parent : Option Nat),
    Held t.node? (recordsAll Fragment.Node.mk parent l) → Fragment.root ∉ places l →
    parent ≠ some Fragment.root → Walks config t l (config.givesAll l)
  | [], _ => fun _ _ _ => walks_nil
  | r :: rest, parent => by
    intro hheld hroot hparent
    rw [recordsAll] at hheld
    rw [← List.singleton_append, Rose.places_append, List.mem_append, not_or] at hroot
    refine Walks.cons ?_ ?_
    · exact walks_gives r parent hheld.left hroot.1 fun _ => hparent
    · exact walks_givesAll rest parent hheld.right hroot.2 hparent

end

/-- Right below the root, texts are dropped. -/
theorem walks_top (l : Branches)
    (hheld : Held t.node? (recordsAll Fragment.Node.mk (some Fragment.root) l))
    (hroot : Fragment.root ∉ places l) :
    Walks config t l (config.givesAll (l.filter fun r => !isText r)) := by
  induction l with
  | nil => exact walks_nil
  | cons r rest ih =>
    rw [recordsAll] at hheld
    rw [← List.singleton_append, Rose.places_append, List.mem_append, not_or] at hroot
    have hfront := hheld.left
    have hrest := ih hheld.right hroot.2
    cases htext : isText r with
    | false =>
      rw [List.filter_cons_of_pos (by simp [htext]), Config.givesAll]
      exact (walks_gives r _ hfront hroot.1 (by simp [htext])).cons hrest
    | true =>
      rw [List.filter_cons_of_neg (by simp [htext])]
      obtain ⟨id, data, branches, rfl⟩ := exists_of_isText htext
      have hnode := hfront _ List.mem_cons_self
      have hleaf : Walks config t [.node (id, .text data) branches] [] := by
        refine walks_leaf ?_
        simp [Config.visit, hnode]
      exact hleaf.cons hrest

/-- The instructions of a fragment are what its trees give. -/
theorem sketch_of_stored (config : Config) {l : Branches}
    (h : Stored t.node? (Rose.records Fragment.Node.mk none (.node (Fragment.root, .root) l)))
    (hlength : (places l).length ≤ t.size) :
    sketch config t = collect (config.givesAll (l.filter fun r => !isText r)) := by
  have hnodup := h.nodup
  rw [Rose.records, List.map_cons, Rose.map_fst_recordsAll] at hnodup
  obtain ⟨n, hn, hwalk⟩ : Walks config t l _ := walks_top l
    h.held.tail (List.nodup_cons.mp hnodup).1
  have hchildren : t.children Fragment.root = l.map place :=
    Fragment.children_of_node? (h.look_eq List.mem_cons_self)
  rw [sketch, hchildren, hwalk.walk_eq]
  omega

/-- The instructions of markup are what its trees give. -/
theorem sketch_ofTokens (config : Config) (tokens : List Markup.Token) :
    sketch config (Fragment.ofTokens tokens) =
      collect (config.givesAll ((Fragment.build tokens).filter fun r => !isText r)) :=
  sketch_of_stored config (Fragment.stored_ofTokens tokens)
    (Fragment.length_places_build_le tokens)

/-- The key that a node brings, if there is such a node. -/
theorem bind_explicitKey? (config : Config) (t : Fragment) (id : Nat) :
    (t.kind? id).bind config.explicitKey? = config.explicitKey? (t.kindOf id) := by
  rw [Fragment.kindOf]
  cases t.kind? id <;> rfl

theorem collect_append {ε α : Type} {l m : List (Except ε α)} {p : List α}
    (h : collect (l ++ m) = .ok p) :
    ∃ first last, collect l = .ok first ∧ collect m = .ok last ∧ p = first ++ last := by
  induction l generalizing p with
  | nil => exact ⟨[], p, rfl, h, rfl⟩
  | cons e l ih =>
    cases e with
    | error e => cases h
    | ok a =>
      rw [List.cons_append, collect] at h
      cases hrest : collect (l ++ m) with
      | error e =>
        rw [hrest] at h
        cases h
      | ok tail =>
        rw [hrest] at h
        cases h
        obtain ⟨first, last, hfirst, hlast, rfl⟩ := ih hrest
        exact ⟨a :: first, last, by rw [collect, hfirst]; rfl, hlast, rfl⟩

/-- An element is accepted around what its playable branches give. -/
theorem accepted_tag {name : String} {attributes : List (String × String)} {branches : Branches}
    {p : List Sketch} (hholds : (Fragment.Kind.tag name attributes).Holds branches)
    (hbranches : ∀ body, collect (config.givesAll branches) = .ok body → Accepted body)
    {id : Nat} (h : collect (config.gives (.node (id, .tag name attributes) branches)) = .ok p) :
    Accepted p := by
  obtain ⟨hname, hattributes, hvoid, hraw⟩ := hholds
  rw [Config.gives, ← List.singleton_append] at h
  obtain ⟨opening, tail, hopening, htail, rfl⟩ := collect_append h
  obtain ⟨body, closing, hbody, hclosing, rfl⟩ := collect_append htail
  cases hopening
  cases hclosing
  cases hkept : config.isOpaque (.tag name attributes) with
  | true =>
    rw [hkept] at hbody
    cases hbody
    exact .hollow name _ attributes hname hattributes (.inr rfl) .nil
  | false =>
    rw [hkept] at hbody
    have hempty : branches = [] → Accepted ([.openTag name (config.explicitKey?
        (.tag name attributes)) attributes] ++ (body ++ [.closeTag name])) := by
      rintro rfl
      cases hbody
      exact .hollow name _ attributes hname hattributes (.inl rfl) .nil
    cases hv : Markup.isVoid name with
    | true => exact hempty (hvoid hv)
    | false =>
      cases hr : Markup.isRawText name with
      | false => exact .element name _ attributes hname hattributes hv hr (hbranches _ hbody) .nil
      | true =>
        rcases hraw hr with hnone | ⟨child, text, below, rfl, hends⟩
        · exact hempty hnone
        · cases hbody
          exact .rawText name _ attributes text hname hattributes hr hends .nil

mutual

theorem accepted_gives : ∀ (r : Rose (Nat × Fragment.Kind)) (p : List Sketch), Playable r →
    collect (config.gives r) = .ok p → Accepted p
  | .node (id, kind) branches, p => by
    intro hr h
    cases kind with
    | tag name attributes =>
      exact accepted_tag hr.holds (fun body => accepted_givesAll branches body hr.branches) h
    | text data =>
      cases h
      exact .text data .nil
    | root => cases h
    | comment data => cases h
    | directive data => cases h

theorem accepted_givesAll : ∀ (l : Branches) (p : List Sketch), (∀ r ∈ l, Playable r) →
    collect (config.givesAll l) = .ok p → Accepted p
  | [], p => by
    intro _ h
    cases h
    exact .nil
  | r :: rest, p => by
    intro hl h
    obtain ⟨first, last, hfirst, hlast, rfl⟩ := collect_append h
    exact (accepted_gives r first (hl r List.mem_cons_self) hfirst).append
      (accepted_givesAll rest last (fun s hs => hl s (List.mem_cons_of_mem _ hs)) hlast)

end

/-- Whatever the markup and the configuration, a compiled program is accepted. -/
theorem accepted_compile {config : Config} {source : Source} {p : Patch}
    (h : compile config source = .ok p) : Accepted p.instructions := by
  rw [compile, Fragment.ofMarkup, ofFragment, sketch_ofTokens] at h
  split at h
  · cases h
  · next program hprogram =>
    obtain ⟨q, hq, rfl⟩ := map_eq_ok h
    have hregular := Markup.Token.regular_scanList source.toMarkup.toList
    have haccepted := accepted_givesAll _ program (fun r hr =>
      Fragment.playable_build hregular r (List.mem_of_mem_filter hr)) hprogram
    exact (haccepted.map _).of_map (map_mapKey_of_chooseKeys hq)

end LiveMarkup.Patch
