import LiveMarkup.Proofs.Patch.Exposed

/-!
# Compiling by recursion

A compile walks over an arena and chooses keys afterwards. `ofRegion` says the same as one
would write it down for trees: a recursion that takes a key from a supply where it comes
to a tag without one, and that stops at the first node it does not know. The two agree on
every fragment that appending leads to, as long as the supply does not run out, which only
drawn keys can do.

So the program is balanced, and two ways to choose keys give programs that differ in the
values of the chosen keys alone.
-/

namespace LiveMarkup.Patch

open Fragment (Branches Linked Grown)

/-- The keys that are taken, and the candidates that are left. -/
structure Supply where
  taken : List String
  candidates : List String

/-- A compile that takes keys from a supply. -/
abbrev Drawing := StateT Supply (Except CompileError)

/-- The key of a tag: the one that it brings, or else the first candidate that is not
taken. -/
def keyFor : Option String → Drawing Key
  | some value => pure (.explicit value)
  | none => do
    let supply ← get
    match supply.candidates.dropWhile supply.taken.contains with
    | [] => throw .outOfDraws
    | key :: candidates =>
      set (Supply.mk (key :: supply.taken) candidates)
      return .generated key

namespace Config

variable (config : Config)

mutual

/-- The instructions of a tree that is not a text below the root. -/
def compileTree : Rose (Nat × Fragment.Kind) → Drawing (List (Instruction Key))
  | .node (_, .text data) _ => return [.text data]
  | .node (_, .tag name attributes) branches => do
    let key ← keyFor (config.explicitKey? (.tag name attributes))
    let inside ←
      if config.isOpaque (.tag name attributes) then pure [.skip] else compileTrees branches
    return .openTag name key attributes :: (inside ++ [.closeTag name])
  | .node (id, kind) _ => throw (.unrecognized kind id)

/-- The instructions of some trees, one tree after the other. -/
def compileTrees : Branches → Drawing (List (Instruction Key))
  | [] => return []
  | r :: rest => do
    let first ← compileTree r
    let others ← compileTrees rest
    return first ++ others

end

end Config

/-- The patch of a fragment by recursion on its trees. They show all that the arena stores
below the root (`Fragment.Linked.stored_region`). -/
def ofRegion (config : Config) (t : Fragment) : Except CompileError Patch :=
  ((config.compileTrees (t.region.filter fun r => !isText r)).run'
    ⟨reservedKeys config t, config.keys.candidates t.size⟩).map Patch.mk

variable {config : Config} {t : Fragment}

/-- What a place gives, with its key. -/
def withKey : Except CompileError Sketch → Drawing (Instruction Key)
  | .ok (.openTag name key? attributes) => do return .openTag name (← keyFor key?) attributes
  | .ok (.closeTag name) => return .closeTag name
  | .ok (.text content) => return .text content
  | .ok .skip => return .skip
  | .error e => throw e

mutual

/-- The recursion goes through what a tree gives and takes the keys for it. -/
theorem compileTree_eq :
    ∀ r : Rose (Nat × Fragment.Kind), config.compileTree r = (config.gives r).mapM withKey
  | .node (id, kind) branches => by
    cases kind with
    | tag name attributes =>
      rw [Config.compileTree, Config.gives, compileTrees_eq branches]
      cases config.isOpaque (.tag name attributes) with
      | true => simp [withKey]
      | false => simp [withKey]
    | text data => rfl
    | root => rfl
    | comment data => rfl
    | directive data => rfl

theorem compileTrees_eq :
    ∀ l : Branches, config.compileTrees l = (config.givesAll l).mapM withKey
  | [] => by simp [Config.compileTrees, Config.givesAll]
  | r :: rest => by
    rw [Config.compileTrees, Config.givesAll, compileTree_eq r, compileTrees_eq rest,
      List.mapM_append]

end

/-- The values in front of the first error. -/
def untilError {ε α : Type} : List (Except ε α) → List α
  | .ok a :: rest => a :: untilError rest
  | _ => []

theorem untilError_of_collect {ε α : Type} {l : List (Except ε α)} {p : List α}
    (h : collect l = .ok p) : untilError l = p := by
  induction l generalizing p with
  | nil =>
    cases h
    rfl
  | cons e l ih =>
    cases e with
    | error e => cases h
    | ok a =>
      obtain ⟨rest, hrest, rfl⟩ := map_eq_ok h
      rw [untilError, ih hrest]

/-- A key that a tag does not bring is the next one of the supply. -/
theorem run_keyFor_none (s : Supply) : (keyFor none).run s =
    match s.candidates.dropWhile s.taken.contains with
    | [] => .error .outOfDraws
    | key :: rest => .ok (.generated key, ⟨key :: s.taken, rest⟩) := by
  show (match s.candidates.dropWhile s.taken.contains with
    | [] => throw .outOfDraws
    | key :: rest => do
      set (Supply.mk (key :: s.taken) rest)
      return .generated key : Drawing Key).run s = _
  cases s.candidates.dropWhile s.taken.contains <;> rfl

theorem run_withKey_openTag (name : String) (key? : Option String)
    (attributes : List (String × String)) (s : Supply) :
    (withKey (.ok (.openTag name key? attributes))).run s =
      ((keyFor key?).run s).map fun (key, s') => (.openTag name key attributes, s') := by
  rw [withKey, StateT.run_bind]
  cases (keyFor key?).run s <;> rfl

theorem run'_mapM_cons {e : Except CompileError Sketch} {l : List (Except CompileError Sketch)}
    {i : Instruction Key} {s s' : Supply} (h : (withKey e).run s = .ok (i, s')) :
    ((e :: l).mapM withKey).run' s = ((l.mapM withKey).run' s').map (i :: ·) := by
  rw [List.mapM_cons, StateT.run'_eq, StateT.run'_eq, StateT.run_bind, h]
  show Prod.fst <$> StateT.run (l.mapM withKey >>= fun p => pure (i :: p)) s' = _
  rw [StateT.run_bind]
  cases (l.mapM withKey).run s' <;> rfl

theorem run'_mapM_cons_error {e : Except CompileError Sketch}
    {l : List (Except CompileError Sketch)} {err : CompileError} {s : Supply}
    (h : (withKey e).run s = .error err) : ((e :: l).mapM withKey).run' s = .error err := by
  rw [List.mapM_cons, StateT.run'_eq, StateT.run_bind, h]
  rfl

/-- Keys that are taken on the way are those that are chosen afterwards, up to the first
error. -/
theorem run'_mapM_withKey (l : List (Except CompileError Sketch)) (s : Supply) :
    (l.mapM withKey).run' s = (chooseKeys s.taken s.candidates (untilError l)).bind fun p =>
      (collect l).map fun _ => p := by
  -- Both ways of choosing keys put an instruction in front of the rest alike.
  have hcons : ∀ (i : Instruction Key) (a : Sketch)
      (x : Except CompileError (List (Instruction Key))) (l : List (Except CompileError Sketch)),
      ((x.map (i :: ·)).bind fun p => (collect (.ok a :: l)).map fun _ => p) =
        (x.bind fun p => (collect l).map fun _ => p).map (i :: ·) := by
    intro i a x l
    rw [collect]
    cases x with
    | error e => rfl
    | ok p => cases collect l <;> rfl
  induction l generalizing s with
  | nil => rfl
  | cons e l ih =>
    cases e with
    | error e => rfl
    | ok i =>
      cases i with
      | closeTag name => rw [run'_mapM_cons rfl, ih, untilError, chooseKeys, hcons]
      | text content => rw [run'_mapM_cons rfl, ih, untilError, chooseKeys, hcons]
      | skip => rw [run'_mapM_cons rfl, ih, untilError, chooseKeys, hcons]
      | openTag name key attributes =>
        cases key with
        | some value => rw [run'_mapM_cons rfl, ih, untilError, chooseKeys, hcons]
        | none =>
          have hrun := run_withKey_openTag name none attributes s
          rw [run_keyFor_none] at hrun
          rw [untilError, chooseKeys]
          cases hcandidates : s.candidates.dropWhile s.taken.contains with
          | nil =>
            rw [hcandidates] at hrun
            exact run'_mapM_cons_error hrun
          | cons key rest =>
            rw [hcandidates] at hrun
            rw [run'_mapM_cons hrun, ih, hcons]

theorem ofRegion_eq (config : Config) (t : Fragment) :
    ofRegion config t = ((chooseKeys (reservedKeys config t) (config.keys.candidates t.size)
      (untilError (config.givesRegion t))).bind fun p =>
        (collect (config.givesRegion t)).map fun _ => p).map Patch.mk := by
  rw [ofRegion, compileTrees_eq, run'_mapM_withKey, Config.givesRegion]

/-- Whether a place asks for a key. -/
def asksForKey : Except CompileError Sketch → Bool
  | .ok i => isUnkeyed i
  | .error _ => false

theorem countP_untilError_le (l : List (Except CompileError Sketch)) :
    (untilError l).countP isUnkeyed ≤ l.countP asksForKey := by
  induction l with
  | nil => exact Nat.le_refl _
  | cons e l ih =>
    cases e with
    | error e => exact Nat.zero_le _
    | ok i =>
      rw [untilError, List.countP_cons, List.countP_cons]
      exact Nat.add_le_add_right ih _

/-- The keys that the nodes of some trees bring. -/
def broughtKeys (config : Config) (nodes : List (Nat × Fragment.Kind)) : List String :=
  nodes.filterMap fun n => config.explicitKey? n.2

mutual

/-- Each node brings a key or asks for one at most. -/
theorem countP_gives_le : ∀ r : Rose (Nat × Fragment.Kind),
    (config.gives r).countP asksForKey + (broughtKeys config (Rose.preorder r)).length ≤
      (Rose.preorder r).length
  | .node (id, kind) branches => by
    have hbranches := countP_givesAll_le branches
    have hlength : (broughtKeys config (Rose.preorderAll branches)).length ≤
        (Rose.preorderAll branches).length := List.length_filterMap_le _ _
    rw [broughtKeys] at hbranches hlength ⊢
    rw [Rose.preorder, List.filterMap_cons, List.length_cons]
    cases kind with
    | tag name attributes =>
      have hinside : (if config.isOpaque (.tag name attributes) then [.ok .skip]
          else config.givesAll branches).countP asksForKey ≤
            (config.givesAll branches).countP asksForKey := by
        split
        · exact Nat.zero_le _
        · exact Nat.le_refl _
      rw [Config.gives, List.countP_cons, List.countP_append]
      cases config.explicitKey? (.tag name attributes) with
      | none => simp [asksForKey, isUnkeyed]; omega
      | some key => simp [asksForKey, isUnkeyed]; omega
    | text data => exact (Nat.zero_add _).trans_le (Nat.le_succ_of_le hlength)
    | root => exact (Nat.zero_add _).trans_le (Nat.le_succ_of_le hlength)
    | comment data => exact (Nat.zero_add _).trans_le (Nat.le_succ_of_le hlength)
    | directive data => exact (Nat.zero_add _).trans_le (Nat.le_succ_of_le hlength)

theorem countP_givesAll_le : ∀ l : Branches,
    (config.givesAll l).countP asksForKey + (broughtKeys config (Rose.preorderAll l)).length ≤
      (Rose.preorderAll l).length
  | [] => Nat.le_refl _
  | r :: rest => by
    have hfirst := countP_gives_le r
    have hrest := countP_givesAll_le rest
    rw [broughtKeys] at hfirst hrest ⊢
    rw [Config.givesAll, Rose.preorderAll, List.countP_append, List.filterMap_append,
      List.length_append, List.length_append]
    omega

end

/-- Dropping the texts below the root asks for no more keys. -/
theorem countP_givesAll_filter_le (l : Branches) :
    (config.givesAll (l.filter fun r => !isText r)).countP asksForKey ≤
      (config.givesAll l).countP asksForKey := by
  induction l with
  | nil => exact Nat.le_refl _
  | cons r rest ih =>
    rw [List.filter_cons]
    split
    · rw [Config.givesAll, Config.givesAll, List.countP_append, List.countP_append]
      omega
    · rw [Config.givesAll, List.countP_append]
      omega

theorem reservedKeys_eq (ht : Linked t) :
    reservedKeys config t = broughtKeys config (Rose.preorderAll t.region) := by
  rw [reservedKeys, ht.preorder_eq, Rose.places, broughtKeys, Fragment.region,
    Rose.preorderAll_mapAll, List.map_map, List.filterMap_map, List.filterMap_map]
  exact List.filterMap_congr fun id _ => bind_explicitKey? config t id

/-- As many different candidates as there are nodes are enough for all that ask. -/
theorem ofRegion_ne_of_size_le (ht : Linked t)
    (hsize : t.size ≤ (config.keys.candidates t.size).toFinset.card) :
    ofRegion config t ≠ .error .outOfDraws := by
  have hasked := countP_untilError_le (config.givesRegion t)
  have hfilter : (config.givesRegion t).countP asksForKey ≤
      (config.givesAll t.region).countP asksForKey := countP_givesAll_filter_le t.region
  have hnodes : (config.givesAll t.region).countP asksForKey + _ ≤ _ :=
    countP_givesAll_le t.region
  have hlength := ht.length_places_region_lt
  have htaken := List.toFinset_card_le (reservedKeys config t)
  have hcard := Finset.le_card_sdiff (reservedKeys config t).toFinset
    (config.keys.candidates t.size).toFinset
  rw [← reservedKeys_eq ht] at hnodes
  rw [Rose.places, List.length_map] at hlength
  obtain ⟨p, hp⟩ := exists_chooseKeys (reservedKeys config t) (config.keys.candidates t.size)
    (untilError (config.givesRegion t)) (by omega)
  rw [ofRegion_eq, hp]
  cases hcollect : collect (config.givesRegion t) with
  | ok program => exact nofun
  | error e =>
    have hsketch : sketch config t = .error e := (sketch_eq config ht).trans hcollect
    obtain ⟨kind, id, rfl, -⟩ := (sketch_eq_error_iff ht).mp hsketch
    exact nofun

/-- The keys do not run out before the recursion is done. Only drawn keys can: there may be
too few draws that differ. -/
def KeysSuffice (config : Config) (t : Fragment) : Prop :=
  ∀ draws, config.keys = .drawn draws → ofRegion config t ≠ .error .outOfDraws

/-- As many different draws as there are nodes always suffice. -/
theorem keysSuffice_of_size_le (ht : Linked t)
    (hdraws : ∀ draws, config.keys = .drawn draws → t.size ≤ draws.dedup.length) :
    KeysSuffice config t := by
  intro draws hscheme
  refine ofRegion_ne_of_size_le ht ?_
  rw [hscheme, card_candidates_drawn]
  exact hdraws draws hscheme

theorem ofRegion_ne_outOfDraws (ht : Linked t) (h : KeysSuffice config t) :
    ofRegion config t ≠ .error .outOfDraws := by
  cases hscheme : config.keys with
  | drawn draws => exact h draws hscheme
  | numbered stem =>
    refine ofRegion_ne_of_size_le ht ?_
    rw [hscheme, card_candidates_numbered]

/-- The walk and the recursion compile a fragment to the same patch, and fail alike. -/
theorem ofFragment_eq_ofRegion (ht : Linked t) (h : KeysSuffice config t) :
    ofFragment config t = ofRegion config t := by
  have hne := ofRegion_ne_outOfDraws ht h
  have hsketch : sketch config t = collect (config.givesRegion t) := sketch_eq config ht
  rw [ofRegion_eq] at hne ⊢
  rw [ofFragment, hsketch]
  cases hcollect : collect (config.givesRegion t) with
  | ok program =>
    rw [untilError_of_collect hcollect]
    show (chooseKeys (reservedKeys config t) (config.keys.candidates t.size) program).map _ = _
    cases chooseKeys (reservedKeys config t) (config.keys.candidates t.size) program <;> rfl
  | error e =>
    -- The recursion may have failed before it came to the node, but then of the keys only.
    rw [hcollect] at hne
    cases hchoice : chooseKeys (reservedKeys config t) (config.keys.candidates t.size)
        (untilError (config.givesRegion t)) with
    | ok p => rfl
    | error e' =>
      rw [hchoice, chooseKeys_eq_error hchoice] at hne
      exact absurd rfl hne

/-- Opens and closes come in pairs of the same name, one inside the other or one after the
other, and texts and skips stand inside of elements. -/
inductive Balanced {κ : Type} : (inside : Bool) → List (Instruction κ) → Prop
  | nil {inside : Bool} : Balanced inside []
  | text (content : String) {program : List (Instruction κ)} :
      Balanced true program → Balanced true (.text content :: program)
  | skip {program : List (Instruction κ)} :
      Balanced true program → Balanced true (.skip :: program)
  | element {inside : Bool} (name : String) (key : κ) (attributes : List (String × String))
      {body program : List (Instruction κ)} : Balanced true body → Balanced inside program →
      Balanced inside (.openTag name key attributes :: (body ++ .closeTag name :: program))

variable {inside : Bool}

theorem Balanced.append {κ : Type} {p q : List (Instruction κ)} (h : Balanced inside p)
    (hq : Balanced inside q) : Balanced inside (p ++ q) := by
  induction h with
  | nil => exact hq
  | text content _ ih => exact .text content (ih hq)
  | skip _ ih => exact .skip (ih hq)
  | element name key attributes hbody _ _ ih =>
    rw [List.cons_append, List.append_assoc, List.cons_append]
    exact .element name key attributes hbody (ih hq)

/-- A compile in two parts goes through both. -/
theorem run_bind_eq_ok {α β : Type} {x : Drawing α} {f : α → Drawing β} {s s' : Supply} {b : β}
    (h : (x >>= f).run s = .ok (b, s')) :
    ∃ a between, x.run s = .ok (a, between) ∧ (f a).run between = .ok (b, s') := by
  rw [StateT.run_bind] at h
  cases hx : x.run s with
  | error e =>
    rw [hx] at h
    cases h
  | ok r =>
    rw [hx] at h
    exact ⟨r.1, r.2, rfl, h⟩

/-- An element is balanced around what its branches give, wherever it stands. -/
theorem balanced_tag {id : Nat} {name : String} {attributes : List (String × String)}
    {branches : Branches} {p : List (Instruction Key)} {s s' : Supply}
    (hbranches : ∀ s s' body, (config.compileTrees branches).run s = .ok (body, s') →
      Balanced true body)
    (h : (config.compileTree (.node (id, .tag name attributes) branches)).run s = .ok (p, s')) :
    Balanced inside p := by
  rw [Config.compileTree] at h
  obtain ⟨key, s₁, -, h⟩ := run_bind_eq_ok h
  dsimp only at h
  split at h
  · cases h
    exact .element name key attributes (.skip .nil) .nil
  · obtain ⟨body, s₂, hbody, h⟩ := run_bind_eq_ok h
    cases h
    exact .element name key attributes (hbranches s₁ s' body hbody) .nil

mutual

theorem balanced_compileTree : ∀ (r : Rose (Nat × Fragment.Kind)) (s s' : Supply)
    (p : List (Instruction Key)), (config.compileTree r).run s = .ok (p, s') → Balanced true p
  | .node (id, kind) branches, s, s', p => by
    intro h
    cases kind with
    | tag name attributes => exact balanced_tag (balanced_compileTrees branches) h
    | text data =>
      cases h
      exact .text data .nil
    | root => cases h
    | comment data => cases h
    | directive data => cases h

theorem balanced_compileTrees : ∀ (l : Branches) (s s' : Supply) (p : List (Instruction Key)),
    (config.compileTrees l).run s = .ok (p, s') → Balanced true p
  | [], s, s', p => by
    intro h
    cases h
    exact .nil
  | r :: rest, s, s', p => by
    intro h
    rw [Config.compileTrees] at h
    obtain ⟨first, s₁, hfirst, h⟩ := run_bind_eq_ok h
    obtain ⟨others, s₂, hothers, h⟩ := run_bind_eq_ok h
    cases h
    exact (balanced_compileTree r s s₁ first hfirst).append
      (balanced_compileTrees rest s₁ s' others hothers)

end

/-- Without its texts, the top of a fragment gives elements only. -/
theorem balanced_top {l : Branches} {s s' : Supply} {p : List (Instruction Key)}
    (h : (config.compileTrees (l.filter fun r => !isText r)).run s = .ok (p, s')) :
    Balanced false p := by
  induction l generalizing s p with
  | nil =>
    cases h
    exact .nil
  | cons r rest ih =>
    cases htext : isText r with
    | true =>
      rw [List.filter_cons_of_neg (by simp [htext])] at h
      exact ih h
    | false =>
      rw [List.filter_cons_of_pos (by simp [htext]), Config.compileTrees] at h
      obtain ⟨first, s₁, hfirst, h⟩ := run_bind_eq_ok h
      obtain ⟨others, s₂, hothers, h⟩ := run_bind_eq_ok h
      cases h
      refine Balanced.append ?_ (ih hothers)
      obtain ⟨⟨id, kind⟩, branches⟩ := r
      cases kind with
      | tag name attributes => exact balanced_tag (balanced_compileTrees branches) hfirst
      | text data => cases htext
      | root => cases hfirst
      | comment data => cases hfirst
      | directive data => cases hfirst

theorem balanced_ofRegion {p : Patch} (h : ofRegion config t = .ok p) :
    Balanced false p.instructions := by
  obtain ⟨q, hq, rfl⟩ := map_eq_ok h
  obtain ⟨r, hr, rfl⟩ := map_eq_ok hq
  exact balanced_top hr

/-- If the keys suffice, a compile fails only of what the walk refuses. -/
theorem ofFragment_eq_error_iff (ht : Linked t) (h : KeysSuffice config t) {e : CompileError} :
    ofFragment config t = .error e ↔ sketch config t = .error e := by
  have hne := ofFragment_eq_ofRegion ht h ▸ ofRegion_ne_outOfDraws ht h
  rw [ofFragment] at hne ⊢
  cases hsketch : sketch config t with
  | error e' =>
    constructor
    · rintro ⟨⟩
      rfl
    · rintro ⟨⟩
      rfl
  | ok program =>
    rw [hsketch] at hne
    constructor
    · intro herror
      have hchoice := map_eq_error herror
      rw [chooseKeys_eq_error hchoice] at herror
      exact absurd herror hne
    · rintro ⟨⟩

/-- Without the values of the chosen keys, a patch does not depend on how keys are chosen. -/
theorem map_masked_ofFragment (ht : Linked t) (h : KeysSuffice config t) :
    (ofFragment config t).map masked =
      (sketch config t).map fun program => ⟨program.map (·.mapKey Key.ofGiven)⟩ := by
  cases hcompiled : ofFragment config t with
  | error e =>
    rw [(ofFragment_eq_error_iff ht h).mp hcompiled]
    rfl
  | ok p =>
    rw [ofFragment] at hcompiled
    split at hcompiled
    · cases hcompiled
    · next program hsketch =>
      obtain ⟨q, hq, rfl⟩ := map_eq_ok hcompiled
      rw [hsketch]
      exact congrArg Except.ok (chooses_of_chooseKeys hq).masked_eq

/-- A refused compile names the first exposed node. -/
theorem ofFragment_eq_unrecognized_iff (ht : Linked t) (h : KeysSuffice config t)
    {kind : Fragment.Kind} {id : Nat} :
    ofFragment config t = .error (.unrecognized kind id) ↔
      t.kind? id = some kind ∧ FirstExposed config t t.preorder id := by
  rw [ofFragment_eq_error_iff ht h, sketch_eq_error_iff ht]
  constructor
  · rintro ⟨kind', id', heq, hkind, hfirst⟩
    cases heq
    exact ⟨hkind, hfirst⟩
  · rintro ⟨hkind, hfirst⟩
    exact ⟨kind, id, rfl, hkind, hfirst⟩

theorem exists_unrecognized_iff (ht : Linked t) (h : KeysSuffice config t) :
    (∃ kind id, ofFragment config t = .error (.unrecognized kind id)) ↔
      ∃ id, Exposed config t id := by
  rw [← exists_sketch_error_iff ht]
  constructor
  · rintro ⟨kind, id, herror⟩
    exact ⟨_, (ofFragment_eq_error_iff ht h).mp herror⟩
  · rintro ⟨e, herror⟩
    obtain ⟨kind, id, rfl, -⟩ := (sketch_eq_error_iff ht).mp herror
    exact ⟨kind, id, (ofFragment_eq_error_iff ht h).mpr herror⟩

/-- Without exposed nodes there is a patch. -/
theorem exists_ofFragment_iff (ht : Linked t) (h : KeysSuffice config t) :
    (∃ p, ofFragment config t = .ok p) ↔ ∀ id, ¬ Exposed config t id := by
  rw [← not_exists, ← exists_sketch_error_iff ht]
  have herror : ∀ e, ofFragment config t = .error e ↔ sketch config t = .error e :=
    fun e => ofFragment_eq_error_iff ht h
  simp only [← herror]
  cases ofFragment config t with
  | error e => simp
  | ok p => simp

/-- Compiling a fragment is the recursion on its trees. It fails of nothing but comments and
directives outside of opaque tags, and names the first of them in document order. What it
gives is balanced, and depends on the choice of keys in the values of the chosen keys only. -/
theorem ofFragment_grown (ht : Grown t) (hkeys : KeysSuffice config t) :
    ofFragment config t = ofRegion config t ∧
    (∀ kind id, ofFragment config t = .error (.unrecognized kind id) ↔
      t.kind? id = some kind ∧ FirstExposed config t t.preorder id) ∧
    ((∃ kind id, ofFragment config t = .error (.unrecognized kind id)) ↔
      ∃ id, Exposed config t id) ∧
    ((∃ p, ofFragment config t = .ok p) ↔ ∀ id, ¬ Exposed config t id) ∧
    (∀ p, ofFragment config t = .ok p → Balanced false p.instructions) ∧
    ∀ keys, KeysSuffice { config with keys } t →
      (ofFragment { config with keys } t).map masked = (ofFragment config t).map masked := by
  have hlinked := ht.linked
  have heq := ofFragment_eq_ofRegion hlinked hkeys
  refine ⟨heq, fun _ _ => ofFragment_eq_unrecognized_iff hlinked hkeys,
    exists_unrecognized_iff hlinked hkeys, exists_ofFragment_iff hlinked hkeys,
    fun p hp => balanced_ofRegion (heq ▸ hp), fun keys hother => ?_⟩
  -- The walk does not look at the scheme of keys.
  rw [map_masked_ofFragment hlinked hkeys, map_masked_ofFragment hlinked hother]
  rfl

/-- A drawn number that a later tag has as its id is passed over, and a comment below an
opaque tag does no harm. -/
theorem ofFragment_grown_drawn :
    let config : Config := ⟨"id", .drawn [31, 255, 255, 10], some "keep"⟩
    let t := Fragment.ofTokens [.startTag "div" [] false, .text "hi",
      .startTag "i" [("keep", none)] false, .comment "c", .endTag "i", .endTag "div",
      .text " ", .startTag "b" [("id", some "1f")] false]
    let p : Patch := ⟨[.openTag "div" (.generated "ff") [], .text "hi",
      .openTag "i" (.generated "a") [("keep", "")], .skip, .closeTag "i", .closeTag "div",
      .openTag "b" (.explicit "1f") [("id", "1f")], .closeTag "b"]⟩
    ofRegion config t = .ok p ∧ ofFragment config t = .ok p ∧ (∀ id, ¬ Exposed config t id) ∧
      (ofFragment { config with keys := .numbered "k" } t).map masked = .ok (masked p) := by
  intro config t p
  have hrecursion : ofRegion config t = .ok p := by decide +kernel +zetaReduce
  have hkeys : KeysSuffice config t := by
    intro draws hdraws
    rw [hrecursion]
    exact nofun
  obtain ⟨heq, -, -, hok, -, hmasked⟩ := ofFragment_grown (Fragment.grown_ofTokens _) hkeys
  have hwalk := heq.trans hrecursion
  refine ⟨hrecursion, hwalk, hok.mp ⟨p, hwalk⟩, ?_⟩
  rw [hmasked (.numbered "k") nofun, hwalk]
  rfl

end LiveMarkup.Patch
