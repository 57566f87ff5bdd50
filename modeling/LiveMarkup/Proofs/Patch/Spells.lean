import LiveMarkup.Proofs.Fragment.Tidy
import LiveMarkup.Proofs.Patch.Compile

/-!
# How a forest is spelled

Without opaque elements, what a fragment compiles to is decided by its content alone, and
only tags and texts compile: `Spells` is the relation between the two. So fragments with
the same content compile to the same instructions up to the choice of keys, wherever their
nodes are stored.

The instructions also tell what the choice of keys depends on: they have all the keys that
the fragment reserves, and no more opens than the fragment has nodes.
-/

namespace LiveMarkup.Patch

open Fragment (Branches Tidy)

/-- The program that a forest of tags and texts is spelled as. The attribute that gives keys
is all that it depends on besides. -/
inductive Spells (idAttribute : String) : List (Rose Fragment.Kind) → List Sketch → Prop
  | nil : Spells idAttribute [] []
  | text (data : String) {below rest : List (Rose Fragment.Kind)} {program : List Sketch} :
      Spells idAttribute rest program →
      Spells idAttribute (.node (.text data) below :: rest) (.text data :: program)
  | tag (name : String) (attributes : List (String × String))
      {below rest : List (Rose Fragment.Kind)} {body program : List Sketch} :
      Spells idAttribute below body → Spells idAttribute rest program →
      Spells idAttribute (.node (.tag name attributes) below :: rest)
        (.openTag name (attributes.lookup idAttribute) attributes ::
          (body ++ .closeTag name :: program))

variable {idAttribute : String} {config : Config} {forest : List (Rose Fragment.Kind)}
  {p q : List Sketch}

theorem Spells.append {forest' : List (Rose Fragment.Kind)} (h : Spells idAttribute forest p)
    (h' : Spells idAttribute forest' q) : Spells idAttribute (forest ++ forest') (p ++ q) := by
  induction h with
  | nil => exact h'
  | text data _ ih => exact .text data ih
  | tag name attributes hbelow _ _ ih =>
    rw [List.cons_append, List.cons_append, List.append_assoc, List.cons_append]
    exact .tag name attributes hbelow ih

theorem collect_append_ok {ε α : Type} {l m : List (Except ε α)} {first last : List α}
    (hl : collect l = .ok first) (hm : collect m = .ok last) :
    collect (l ++ m) = .ok (first ++ last) := by
  induction l generalizing first with
  | nil =>
    cases hl
    exact hm
  | cons e l ih =>
    cases e with
    | error e => cases hl
    | ok a =>
      obtain ⟨rest, hrest, rfl⟩ := map_eq_ok hl
      rw [List.cons_append, collect, ih hrest]
      rfl

theorem isOpaque_eq_false (hconfig : config.opaqueAttribute = none) (kind : Fragment.Kind) :
    config.isOpaque kind = false := by
  rw [Config.isOpaque, hconfig]
  rfl

mutual

theorem spells_of_gives (hconfig : config.opaqueAttribute = none) :
    ∀ (r : Rose (Nat × Fragment.Kind)) (p : List Sketch), collect (config.gives r) = .ok p →
      Spells config.idAttribute [r.map Prod.snd] p
  | .node (id, kind) branches, p => by
    intro h
    cases kind with
    | tag name attributes =>
      rw [Config.gives, ← List.singleton_append, isOpaque_eq_false hconfig] at h
      obtain ⟨opening, tail, hopening, htail, rfl⟩ := collect_append h
      obtain ⟨body, closing, hbody, hclosing, rfl⟩ := collect_append htail
      cases hopening
      cases hclosing
      exact .tag name attributes (spells_of_givesAll hconfig branches body hbody) .nil
    | text data =>
      cases h
      exact .text data .nil
    | root => cases h
    | comment data => cases h
    | directive data => cases h

theorem spells_of_givesAll (hconfig : config.opaqueAttribute = none) :
    ∀ (l : Branches) (p : List Sketch), collect (config.givesAll l) = .ok p →
      Spells config.idAttribute (Rose.mapAll Prod.snd l) p
  | [], p => by
    intro h
    cases h
    exact .nil
  | r :: rest, p => by
    intro h
    obtain ⟨first, last, hfirst, hlast, rfl⟩ := collect_append h
    exact (spells_of_gives hconfig r first hfirst).append
      (spells_of_givesAll hconfig rest last hlast)

end

theorem Spells.givesAll (h : Spells config.idAttribute forest p)
    (hconfig : config.opaqueAttribute = none) :
    ∀ l : Branches, Rose.mapAll Prod.snd l = forest → collect (config.givesAll l) = .ok p := by
  induction h with
  | nil =>
    rintro (_ | ⟨r, rest⟩) hl
    · rfl
    · cases hl
  | text data _ ih =>
    rintro (_ | ⟨⟨⟨id, kind⟩, branches⟩, rest⟩) hl
    · cases hl
    · obtain ⟨hr, hrest⟩ := List.cons.inj hl
      cases hr
      have htext : collect (config.gives (.node (id, .text data) branches)) = .ok [.text data] :=
        rfl
      exact collect_append_ok htext (ih rest hrest)
  | tag name attributes _ _ ihb ih =>
    rintro (_ | ⟨⟨⟨id, kind⟩, branches⟩, rest⟩) hl
    · cases hl
    · obtain ⟨hr, hrest⟩ := List.cons.inj hl
      rw [Rose.map, Rose.node.injEq] at hr
      obtain ⟨rfl, hbelow⟩ := hr
      have hopen : collect [(.ok (.openTag name (config.explicitKey? (.tag name attributes))
          attributes) : Except CompileError Sketch)] =
          .ok [.openTag name (attributes.lookup config.idAttribute) attributes] := rfl
      have hclose : collect [(.ok (.closeTag name) : Except CompileError Sketch)] =
          .ok [.closeTag name] := rfl
      have hinside := collect_append_ok (ihb branches hbelow) hclose
      rw [Config.givesAll, Config.gives, isOpaque_eq_false hconfig]
      simpa using collect_append_ok (collect_append_ok hopen hinside) (ih rest hrest)

/-- The content of a fragment without the texts right below its root. -/
def elements (t : Fragment) : List (Rose Fragment.Kind) :=
  t.content.filter fun r => !r.label.isText

theorem elements_ofTokens (tokens : List Markup.Token) :
    elements (Fragment.ofTokens tokens) =
      Rose.mapAll Prod.snd ((Fragment.build tokens).filter fun r => !isText r) := by
  rw [elements, Fragment.content_ofTokens, Rose.mapAll_eq_map, Rose.mapAll_eq_map,
    List.filter_map]
  congr 1
  refine List.filter_congr fun r _ => ?_
  obtain ⟨⟨id, kind⟩, branches⟩ := r
  cases kind <;> rfl

/-- The instructions of markup are the spelling of its elements. -/
theorem sketch_eq_ok_iff (hconfig : config.opaqueAttribute = none) (tokens : List Markup.Token) :
    sketch config (Fragment.ofTokens tokens) = .ok p ↔
      Spells config.idAttribute (elements (Fragment.ofTokens tokens)) p := by
  rw [sketch_ofTokens, elements_ofTokens]
  exact ⟨spells_of_givesAll hconfig _ p, fun h => h.givesAll hconfig _ rfl⟩

/-- The texts below the root have no part in the keys that are reserved. -/
theorem reservedKeys_ofTokens (config : Config) (tokens : List Markup.Token) :
    reservedKeys config (Fragment.ofTokens tokens) =
      (Rose.preorderAll (elements (Fragment.ofTokens tokens))).filterMap config.explicitKey? := by
  have hcontent : reservedKeys config (Fragment.ofTokens tokens) =
      (Rose.preorderAll (Fragment.ofTokens tokens).content).filterMap config.explicitKey? := by
    rw [← Fragment.map_kindOf_preorder_ofTokens, List.filterMap_map, reservedKeys]
    exact List.filterMap_congr fun id _ => bind_explicitKey? config _ id
  have htidy := (Fragment.tidy_content_ofTokens tokens).1
  rw [hcontent, elements]
  generalize (Fragment.ofTokens tokens).content = trees at htidy
  induction trees with
  | nil => rfl
  | cons r rest ih =>
    have hrest := ih fun s hs => htidy s (List.mem_cons_of_mem _ hs)
    cases htext : r.label.isText with
    | false =>
      rw [List.filter_cons_of_pos (by simp [htext]), Rose.preorderAll, Rose.preorderAll,
        List.filterMap_append, List.filterMap_append, hrest]
    | true =>
      obtain ⟨kind, below⟩ := r
      cases kind with
      | text data =>
        obtain ⟨_, rfl⟩ := (htidy _ List.mem_cons_self).neat
        exact hrest
      | root => cases htext
      | tag name attributes => cases htext
      | comment data => cases htext
      | directive data => cases htext

/-- There is a node for each of the elements and of what is below them. -/
theorem length_elements_le (tokens : List Markup.Token) :
    (Rose.preorderAll (elements (Fragment.ofTokens tokens))).length ≤
      (Fragment.ofTokens tokens).size := by
  refine Nat.le_trans (List.Sublist.length_le ?_) (Fragment.length_content_ofTokens_le tokens)
  rw [Rose.preorderAll_eq_flatMap, Rose.preorderAll_eq_flatMap, elements]
  exact List.filter_sublist.flatMap _

/-- All keys that tidy trees bring are in their spelling, in document order. -/
theorem Spells.filterMap_givenKey? (h : Spells idAttribute forest p)
    (hf : ∀ r ∈ forest, Tidy r) :
    (Rose.preorderAll forest).filterMap (Fragment.Kind.attribute? idAttribute) =
      p.filterMap givenKey? := by
  induction h with
  | nil => rfl
  | text data _ ih =>
    obtain ⟨_, rfl⟩ := (hf _ List.mem_cons_self).neat
    exact ih fun r hr => hf r (List.mem_cons_of_mem _ hr)
  | tag name attributes _ _ ihb ih =>
    have hbelow := ihb (hf _ List.mem_cons_self).branches.1
    have hrest := ih fun r hr => hf r (List.mem_cons_of_mem _ hr)
    rw [Rose.preorderAll, Rose.preorder, List.cons_append, List.filterMap_cons,
      List.filterMap_append, hbelow, hrest, List.filterMap_cons, List.filterMap_append,
      List.filterMap_cons]
    rfl

theorem Spells.countP_isOpen_le (h : Spells idAttribute forest p) :
    p.countP Instruction.isOpen ≤ (Rose.preorderAll forest).length := by
  induction h with
  | nil => exact Nat.le_refl _
  | text data _ ih =>
    rw [List.countP_cons_of_neg (by simp [Instruction.isOpen]), Rose.preorderAll,
      List.length_append]
    omega
  | tag name attributes _ _ ihb ih =>
    rw [List.countP_cons_of_pos rfl, List.countP_append,
      List.countP_cons_of_neg (by simp [Instruction.isOpen]), Rose.preorderAll, Rose.preorder,
      List.length_append, List.length_cons]
    omega

/-- The elements that are read from a source. -/
abbrev Source.elements (source : Source) : List (Rose Fragment.Kind) :=
  Patch.elements (Fragment.ofMarkup source.toMarkup)

variable {source : Source}

/-- What a source compiles to depends on its elements, and on the number of its nodes as far
as candidates are concerned. -/
theorem compile_of_spells (hconfig : config.opaqueAttribute = none)
    (h : Spells config.idAttribute source.elements p) :
    compile config source = (chooseKeys (p.filterMap givenKey?)
      (config.keys.candidates (Fragment.ofMarkup source.toMarkup).size) p).map Patch.mk := by
  have hsketch : sketch config (Fragment.ofMarkup source.toMarkup) = .ok p :=
    (sketch_eq_ok_iff hconfig _).mpr h
  have htidy : ∀ r ∈ source.elements, Tidy r := fun r hr =>
    (Fragment.tidy_content_ofTokens _).1 r (List.mem_of_mem_filter hr)
  have hreserved : reservedKeys config (Fragment.ofMarkup source.toMarkup) =
      p.filterMap givenKey? :=
    (reservedKeys_ofTokens config _).trans (h.filterMap_givenKey? htidy)
  rw [compile, ofFragment, hsketch, hreserved]

theorem exists_spells_of_compile (hconfig : config.opaqueAttribute = none) {patch : Patch}
    (h : compile config source = .ok patch) :
    ∃ p, Spells config.idAttribute source.elements p := by
  rw [compile, ofFragment] at h
  split at h
  · cases h
  · next p hsketch => exact ⟨p, (sketch_eq_ok_iff hconfig _).mp hsketch⟩

theorem Spells.countP_isOpen_le_size (h : Spells idAttribute source.elements p) :
    p.countP Instruction.isOpen ≤ (Fragment.ofMarkup source.toMarkup).size :=
  Nat.le_trans h.countP_isOpen_le (length_elements_le _)

end LiveMarkup.Patch
