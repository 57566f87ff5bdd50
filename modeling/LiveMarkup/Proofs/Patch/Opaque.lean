import LiveMarkup.Proofs.Patch.Exposed

/-!
# Opaque elements in a compiled program

A compiled program leaves the content of an opaque element to the live tree: it opens the
element, skips over all that is there and closes it again, whatever the fragment has below
the tag.
-/

namespace LiveMarkup.Patch

open Fragment (Branches Linked)

variable {κ ι : Type} {config : Config}

/-- The open of an opaque element is followed by a skip and its close. -/
def SkipsOpaque (config : Config) : List (Instruction κ) → Prop
  | [] => True
  | i :: rest =>
    (∀ name key attributes, i = .openTag name key attributes →
      config.isOpaque (.tag name attributes) = true → [.skip, .closeTag name] <+: rest) ∧
    SkipsOpaque config rest

namespace SkipsOpaque

variable {p q : List (Instruction κ)}

theorem nil : SkipsOpaque config ([] : List (Instruction κ)) := trivial

/-- What opens nothing may stand anywhere. -/
theorem cons {i : Instruction κ} (hi : i.isOpen = false) (h : SkipsOpaque config p) :
    SkipsOpaque config (i :: p) := by
  refine ⟨fun name key attributes heq => ?_, h⟩
  subst heq
  cases hi

theorem append (h : SkipsOpaque config p) (hq : SkipsOpaque config q) :
    SkipsOpaque config (p ++ q) := by
  induction p with
  | nil => exact hq
  | cons i p ih =>
    refine ⟨fun name key attributes heq hkept => ?_, ih h.2⟩
    exact (h.1 name key attributes heq hkept).trans (List.prefix_append p q)

theorem exists_of_append {before after : List (Instruction κ)} {name : String} {key : κ}
    {attributes : List (String × String)}
    (h : SkipsOpaque config (before ++ .openTag name key attributes :: after))
    (hkept : config.isOpaque (.tag name attributes) = true) :
    ∃ rest, after = .skip :: .closeTag name :: rest := by
  induction before with
  | nil =>
    obtain ⟨rest, hrest⟩ := h.1 name key attributes rfl hkept
    exact ⟨rest, hrest.symm⟩
  | cons i before ih => exact ih h.2

/-- Keys play no part in it. -/
theorem of_map {f : κ → ι} (h : SkipsOpaque config (p.map (·.mapKey f))) :
    SkipsOpaque config p := by
  induction p with
  | nil => exact nil
  | cons i p ih =>
    refine ⟨fun name key attributes heq hkept => ?_, ih h.2⟩
    subst heq
    obtain ⟨rest, hrest⟩ := h.1 name (f key) attributes rfl hkept
    obtain ⟨j, tail, rfl, hj, htail⟩ := List.map_eq_cons_iff.mp hrest.symm
    obtain ⟨k, last, rfl, hk, -⟩ := List.map_eq_cons_iff.mp htail
    rw [Instruction.mapKey_eq_skip hj, Instruction.mapKey_eq_closeTag hk]
    exact List.prefix_append [.skip, .closeTag name] last

/-- Choosing keys leaves the skips where they are. -/
theorem map {f : κ → ι} (h : SkipsOpaque config p) : SkipsOpaque config (p.map (·.mapKey f)) := by
  induction p with
  | nil => exact nil
  | cons i p ih =>
    refine ⟨fun name key attributes heq hkept => ?_, ih h.2⟩
    obtain ⟨k, rfl⟩ := Instruction.mapKey_eq_openTag heq
    exact (h.1 name k attributes rfl hkept).map (·.mapKey f)

end SkipsOpaque

/-- A tag that is not opaque goes around what its branches give. -/
theorem skipsOpaque_tag {id : Nat} {name : String} {attributes : List (String × String)}
    {branches : Branches} {p : List Sketch}
    (hbranches : ∀ body, collect (config.givesAll branches) = .ok body → SkipsOpaque config body)
    (h : collect (config.gives (.node (id, .tag name attributes) branches)) = .ok p) :
    SkipsOpaque config p := by
  rw [Config.gives, ← List.singleton_append] at h
  obtain ⟨opening, tail, hopening, htail, rfl⟩ := collect_append h
  obtain ⟨body, closing, hbody, hclosing, rfl⟩ := collect_append htail
  cases hopening
  cases hclosing
  cases htag : config.isOpaque (.tag name attributes) with
  | true =>
    rw [htag] at hbody
    cases hbody
    refine ⟨fun n key as heq _ => ?_, .cons rfl (.cons rfl .nil)⟩
    cases heq
    exact List.prefix_refl _
  | false =>
    rw [htag] at hbody
    refine ⟨fun n key as heq hkept => ?_, (hbranches body hbody).append (.cons rfl .nil)⟩
    cases heq
    rw [htag] at hkept
    cases hkept

mutual

theorem skipsOpaque_gives : ∀ (r : Rose (Nat × Fragment.Kind)) (p : List Sketch),
    collect (config.gives r) = .ok p → SkipsOpaque config p
  | .node (id, kind) branches, p => by
    intro h
    cases kind with
    | tag name attributes => exact skipsOpaque_tag (skipsOpaque_givesAll branches) h
    | text data =>
      cases h
      exact .cons rfl .nil
    | root => cases h
    | comment data => cases h
    | directive data => cases h

theorem skipsOpaque_givesAll : ∀ (l : Branches) (p : List Sketch),
    collect (config.givesAll l) = .ok p → SkipsOpaque config p
  | [], p => by
    intro h
    cases h
    exact .nil
  | r :: rest, p => by
    intro h
    obtain ⟨first, last, hfirst, hlast, rfl⟩ := collect_append h
    exact (skipsOpaque_gives r first hfirst).append (skipsOpaque_givesAll rest last hlast)

end

/-- A compiled program skips over the content of its opaque elements. -/
theorem skipsOpaque_ofFragment {t : Fragment} (ht : Linked t) {p : Patch}
    (h : ofFragment config t = .ok p) : SkipsOpaque config p.instructions := by
  rw [ofFragment, sketch_eq config ht] at h
  split at h
  · cases h
  · next program hprogram =>
    obtain ⟨q, hq, rfl⟩ := map_eq_ok h
    have hmasked := map_mapKey_of_chooseKeys hq
    exact .of_map (hmasked ▸ (skipsOpaque_givesAll _ program hprogram).map)

end LiveMarkup.Patch
