import LiveMarkup.Proofs.Fragment.Linked
import LiveMarkup.Proofs.Patch.Compile

/-!
# Nodes that a compile refuses

Comments and directives do not compile. What lies below an opaque tag is never looked at,
so a compile meets only the exposed ones: those without an opaque tag above them. `Exposed`
says so by the links of the fragment, without following the walk. The errors of the
recursion are one for each exposed node, in document order, and a compile fails with the
first of them.
-/

namespace LiveMarkup.Patch

open Fragment (Branches Linked Grown)
open Rose (place places recordsAll)

/-- A comment or a directive that lies outside of all opaque tags. -/
structure Exposed (config : Config) (t : Fragment) (id : Nat) : Prop where
  kind : ∃ data, t.kind? id = some (.comment data) ∨ t.kind? id = some (.directive data)
  outside : ∀ a, Under t.parent? id a → config.isOpaque (t.kindOf a) = false

/-- The first exposed one of some nodes. -/
def FirstExposed (config : Config) (t : Fragment) (ids : List Nat) (id : Nat) : Prop :=
  ∃ before after, ids = before ++ id :: after ∧ Exposed config t id ∧
    ∀ x ∈ before, ¬ Exposed config t x

/-- The errors for the exposed ones of some nodes. -/
inductive Refuses (config : Config) (t : Fragment) : List Nat → List CompileError → Prop
  | nil : Refuses config t [] []
  | exposed {id : Nat} {kind : Fragment.Kind} {ids : List Nat} {errors : List CompileError} :
      Exposed config t id → t.kind? id = some kind → Refuses config t ids errors →
      Refuses config t (id :: ids) (.unrecognized kind id :: errors)
  | passed {id : Nat} {ids : List Nat} {errors : List CompileError} :
      ¬ Exposed config t id → Refuses config t ids errors → Refuses config t (id :: ids) errors

variable {config : Config} {t : Fragment} {ids ids' : List Nat} {errors errors' : List CompileError}

namespace Refuses

theorem append (h : Refuses config t ids errors) (h' : Refuses config t ids' errors') :
    Refuses config t (ids ++ ids') (errors ++ errors') := by
  induction h with
  | nil => exact h'
  | exposed hid hkind _ ih => exact .exposed hid hkind ih
  | passed hid _ ih => exact .passed hid ih

theorem of_forall_not (h : ∀ id ∈ ids, ¬ Exposed config t id) : Refuses config t ids [] := by
  induction ids with
  | nil => exact .nil
  | cons id ids ih =>
    exact .passed (h id List.mem_cons_self) (ih fun x hx => h x (List.mem_cons_of_mem _ hx))

theorem eq_nil_iff (h : Refuses config t ids errors) :
    errors = [] ↔ ∀ id ∈ ids, ¬ Exposed config t id := by
  induction h with
  | nil => simp
  | exposed hid hkind _ ih => simp [hid]
  | passed hid _ ih => simp [hid, ih]

/-- The first error tells of the first exposed node. -/
theorem head?_eq_some_iff (h : Refuses config t ids errors) {e : CompileError} :
    errors.head? = some e ↔ ∃ kind id, e = .unrecognized kind id ∧ t.kind? id = some kind ∧
      FirstExposed config t ids id := by
  induction h with
  | nil => simp [FirstExposed]
  | @exposed id kind ids errors hid hkind _ _ =>
    rw [List.head?_cons, Option.some_inj]
    constructor
    · rintro rfl
      exact ⟨kind, id, rfl, hkind, [], ids, rfl, hid, nofun⟩
    · rintro ⟨kind', x, rfl, hkind', before, after, heq, hx, hbefore⟩
      cases before with
      | nil =>
        obtain ⟨rfl, rfl⟩ := List.cons.inj heq
        rw [hkind, Option.some_inj] at hkind'
        rw [hkind']
      | cons b before =>
        obtain ⟨rfl, rfl⟩ := List.cons.inj heq
        exact absurd hid (hbefore id List.mem_cons_self)
  | @passed id ids errors hid _ ih =>
    rw [ih]
    refine exists_congr fun kind => exists_congr fun x => and_congr_right fun _ =>
      and_congr_right fun _ => ?_
    constructor
    · rintro ⟨before, after, rfl, hx, hbefore⟩
      refine ⟨id :: before, after, rfl, hx, fun y hy => ?_⟩
      rcases List.mem_cons.mp hy with rfl | hy
      · exact hid
      · exact hbefore y hy
    · rintro ⟨before, after, heq, hx, hbefore⟩
      cases before with
      | nil =>
        obtain ⟨rfl, rfl⟩ := List.cons.inj heq
        exact absurd hx hid
      | cons b before =>
        obtain ⟨rfl, rfl⟩ := List.cons.inj heq
        exact ⟨before, after, rfl, hx, fun y hy => hbefore y (List.mem_cons_of_mem _ hy)⟩

end Refuses

/-- The errors in a list of results. -/
def errorsOf {ε α : Type} (l : List (Except ε α)) : List ε :=
  l.filterMap fun
    | .error e => some e
    | .ok _ => none

@[simp] theorem errorsOf_nil {ε α : Type} : errorsOf ([] : List (Except ε α)) = [] := rfl

@[simp] theorem errorsOf_cons_ok {ε α : Type} (a : α) (l : List (Except ε α)) :
    errorsOf (.ok a :: l) = errorsOf l := rfl

@[simp] theorem errorsOf_cons_error {ε α : Type} (e : ε) (l : List (Except ε α)) :
    errorsOf (.error e :: l) = e :: errorsOf l := rfl

@[simp] theorem errorsOf_append {ε α : Type} (l m : List (Except ε α)) :
    errorsOf (l ++ m) = errorsOf l ++ errorsOf m :=
  List.filterMap_append

/-- Collecting fails with the first error. -/
theorem collect_eq_error_iff {ε α : Type} {l : List (Except ε α)} {e : ε} :
    collect l = .error e ↔ (errorsOf l).head? = some e := by
  induction l with
  | nil => simp [collect]
  | cons r l ih =>
    cases r with
    | error e' => simp [collect]
    | ok a =>
      rw [errorsOf_cons_ok, ← ih, collect]
      cases collect l with
      | error e' => rfl
      | ok rest => simp [Except.map]

/-- Texts give no errors. -/
theorem errorsOf_givesAll_filter (l : Branches) :
    errorsOf (config.givesAll (l.filter fun r => !isText r)) = errorsOf (config.givesAll l) := by
  induction l with
  | nil => rfl
  | cons r rest ih =>
    cases htext : isText r with
    | false =>
      rw [List.filter_cons_of_pos (by simp [htext]), Config.givesAll, Config.givesAll,
        errorsOf_append, errorsOf_append, ih]
    | true =>
      rw [List.filter_cons_of_neg (by simp [htext]), ih, Config.givesAll, errorsOf_append]
      obtain ⟨id, data, branches, rfl⟩ := exists_of_isText htext
      rfl

theorem not_exposed_of_kind {id : Nat} {kind : Fragment.Kind} (hkind : t.kind? id = some kind)
    (hcomment : ∀ data, kind ≠ .comment data) (hdirective : ∀ data, kind ≠ .directive data) :
    ¬ Exposed config t id := by
  rintro ⟨⟨data, h | h⟩, -⟩
  · exact hcomment data (Option.some_inj.mp (hkind.symm.trans h))
  · exact hdirective data (Option.some_inj.mp (hkind.symm.trans h))

/-- A comment or a directive outside of all opaque tags gives its error and has nothing
below it. -/
theorem refuses_leaf (ht : Linked t) {id : Nat} {kind : Fragment.Kind} {parent : Option Nat}
    {branches : Branches} (hnode : t.node? id = some ⟨kind, parent, branches.map place⟩)
    (hleaf : kind.isContainer = false) (herrors : Refuses config t [id] errors) :
    Refuses config t (id :: places branches) errors := by
  have hcontainer : t.isContainerAt id = false := by
    rw [Fragment.isContainerAt, Fragment.kind?_of_node? hnode]
    exact hleaf
  have hnil : branches = [] := by
    have hchildren := ht.children_eq_nil hcontainer
    rw [Fragment.children_of_node? hnode] at hchildren
    exact List.map_eq_nil_iff.mp hchildren
  rw [hnil]
  exact herrors

mutual

/-- A tree without an opaque tag above it gives the errors of its exposed nodes. -/
theorem refuses_gives (ht : Linked t) : ∀ (r : Rose (Nat × Fragment.Kind)) (parent : Option Nat),
    Held t.node? (Rose.records Fragment.Node.mk parent r) → Fragment.root ∉ places [r] →
    (∀ a, Under t.parent? r.place a → config.isOpaque (t.kindOf a) = false) →
    Refuses config t (places [r]) (errorsOf (config.gives r))
  | .node (id, kind) branches, parent => by
    intro hheld hroot habove
    have hnode := hheld _ List.mem_cons_self
    have hkind := Fragment.kind?_of_node? hnode
    have hbranches := hheld.tail
    have hkindOf : t.kindOf id = kind := by
      rw [Fragment.kindOf, hkind]
      rfl
    rw [Rose.places_node, Rose.places_nil, List.append_nil] at hroot ⊢
    rw [List.mem_cons, not_or] at hroot
    cases kind with
    | tag name attributes =>
      refine .passed (not_exposed_of_kind hkind nofun nofun) ?_
      cases hkept : config.isOpaque (.tag name attributes) with
      | true =>
        have hnone : errorsOf (config.gives (.node (id, .tag name attributes) branches)) = [] := by
          simp [Config.gives, hkept]
        rw [hnone]
        refine .of_forall_not fun x hx hexposed => ?_
        have houtside := hexposed.outside id
          (Held.under_of_mem_places Fragment.parent?_of_node? branches hbranches hx)
        rw [hkindOf, hkept] at houtside
        cases houtside
      | false =>
        have hsame : errorsOf (config.gives (.node (id, .tag name attributes) branches)) =
            errorsOf (config.givesAll branches) := by
          simp [Config.gives, hkept]
        rw [hsame]
        refine refuses_givesAll ht branches id hbranches hroot.2 fun a ha => ?_
        rcases Relation.reflTransGen_iff_eq_or_transGen.mp ha with rfl | ha
        · rw [hkindOf]
          exact hkept
        · exact habove a ha
    | text data =>
      exact refuses_leaf ht hnode rfl (.passed (not_exposed_of_kind hkind nofun nofun) .nil)
    | root => exact absurd (ht.eq_root hkind).symm hroot.1
    | comment data =>
      exact refuses_leaf ht hnode rfl (.exposed ⟨⟨data, .inl hkind⟩, habove⟩ hkind .nil)
    | directive data =>
      exact refuses_leaf ht hnode rfl (.exposed ⟨⟨data, .inr hkind⟩, habove⟩ hkind .nil)

theorem refuses_givesAll (ht : Linked t) : ∀ (l : Branches) (id : Nat),
    Held t.node? (recordsAll Fragment.Node.mk (some id) l) → Fragment.root ∉ places l →
    (∀ a, Within t.parent? id a → config.isOpaque (t.kindOf a) = false) →
    Refuses config t (places l) (errorsOf (config.givesAll l))
  | [], _ => fun _ _ _ => .nil
  | r :: rest, id => by
    intro hheld hroot hwithin
    rw [recordsAll] at hheld
    rw [← List.singleton_append, Rose.places_append, List.mem_append, not_or] at hroot
    rw [Config.givesAll, errorsOf_append, ← List.singleton_append, Rose.places_append]
    have hfirst := hheld.left
    refine Refuses.append ?_ ?_
    · refine refuses_gives ht r (some id) hfirst hroot.1 fun a ha => ?_
      obtain ⟨p, hp, hpa⟩ := Relation.TransGen.head'_iff.mp ha
      have hparent : t.parent? r.place = some id := by
        obtain ⟨⟨x, kind⟩, branches⟩ := r
        exact Fragment.parent?_of_node? (hfirst _ List.mem_cons_self)
      rw [hparent, Option.some_inj] at hp
      exact hwithin a (hp ▸ hpa)
    · exact refuses_givesAll ht rest id hheld.right hroot.2 hwithin

end

/-- The errors of a fragment are those for its exposed nodes, in document order. -/
theorem refuses_region (ht : Linked t) :
    Refuses config t t.preorder (errorsOf (config.givesAll t.region)) := by
  rw [ht.preorder_eq]
  refine refuses_givesAll ht t.region Fragment.root ht.held_region ht.root_not_mem_region ?_
  intro a ha
  obtain ⟨children, hroot⟩ := ht.root
  rw [← ha.eq_of_top (Fragment.parent?_of_node? hroot), Fragment.kindOf,
    Fragment.kind?_of_node? hroot]
  rw [Config.isOpaque]
  cases config.opaqueAttribute <;> rfl

/-- What a fragment gives, node by node. -/
def Config.givesRegion (config : Config) (t : Fragment) : List (Except CompileError Sketch) :=
  config.givesAll (t.region.filter fun r => !isText r)

theorem sketch_eq (config : Config) (ht : Linked t) :
    sketch config t = collect (config.givesRegion t) :=
  sketch_of_stored config ht.stored_region (Nat.le_of_lt ht.length_places_region_lt)

/-- A compile is refused for the first exposed node. -/
theorem sketch_eq_error_iff (ht : Linked t) {e : CompileError} :
    sketch config t = .error e ↔ ∃ kind id, e = .unrecognized kind id ∧ t.kind? id = some kind ∧
      FirstExposed config t t.preorder id := by
  rw [sketch_eq config ht, collect_eq_error_iff, Config.givesRegion, errorsOf_givesAll_filter]
  exact (refuses_region ht).head?_eq_some_iff

theorem Exposed.mem_preorder (ht : Linked t) {id : Nat} (h : Exposed config t id) :
    id ∈ t.preorder := by
  have hkind : ∃ kind, t.kind? id = some kind ∧ kind ≠ .root := by
    obtain ⟨data, hdata | hdata⟩ := h.kind
    · exact ⟨_, hdata, nofun⟩
    · exact ⟨_, hdata, nofun⟩
  obtain ⟨kind, hkind, hne⟩ := hkind
  obtain ⟨n, hn, rfl⟩ := Option.map_eq_some_iff.mp hkind
  refine ht.mem_preorder_iff.mpr ⟨Fragment.lt_size_of_node? hn, ?_⟩
  rintro rfl
  obtain ⟨children, hroot⟩ := ht.root
  rw [hroot, Option.some_inj] at hn
  exact hne (congrArg Fragment.Node.kind hn).symm

/-- A compile is refused for nothing but exposed nodes. -/
theorem exists_sketch_error_iff (ht : Linked t) :
    (∃ e, sketch config t = .error e) ↔ ∃ id, Exposed config t id := by
  have herrors : Refuses config t _ _ := refuses_region ht
  constructor
  · rintro ⟨e, he⟩
    obtain ⟨kind, id, -, -, before, after, -, hid, -⟩ := (sketch_eq_error_iff ht).mp he
    exact ⟨id, hid⟩
  · rintro ⟨id, hid⟩
    have hsome : errorsOf (config.givesAll t.region) ≠ [] := fun hnil =>
      herrors.eq_nil_iff.mp hnil id (hid.mem_preorder ht) hid
    obtain ⟨e, rest, hcons⟩ := List.exists_cons_of_ne_nil hsome
    refine ⟨e, ?_⟩
    rw [sketch_eq config ht, collect_eq_error_iff, Config.givesRegion,
      errorsOf_givesAll_filter, hcons]
    rfl

end LiveMarkup.Patch
