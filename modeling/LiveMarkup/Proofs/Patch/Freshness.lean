import LiveMarkup.Proofs.Patch.Recursion
import Mathlib.Data.Nat.Nth

/-!
# Keys that a compile chooses

A chosen key is none of the values that the id attribute has anywhere in the fragment, be it
further on or below an opaque tag, and no key is chosen twice. This holds for every list of
candidates: a choice passes over what is taken, and takes what it has chosen.

Numbered candidates are all different. So nothing but the values of the id attribute is passed
over, and the keys are the free numbers in their order. Since only finitely many numbers are
not free, they do not run out.
-/

namespace LiveMarkup.Patch

open Fragment (Branches Linked Grown)

variable {config : Config} {t : Fragment} {taken candidates : List String}
  {program : List Sketch} {p : List (Instruction Key)}

theorem generatedKeys_cons_generated (name key : String) (attributes : List (String × String))
    (p : List (Instruction Key)) :
    (Patch.mk (.openTag name (.generated key) attributes :: p)).generatedKeys =
      key :: (Patch.mk p).generatedKeys := rfl

theorem generatedKeys_cons_explicit (name key : String) (attributes : List (String × String))
    (p : List (Instruction Key)) :
    (Patch.mk (.openTag name (.explicit key) attributes :: p)).generatedKeys =
      (Patch.mk p).generatedKeys := rfl

theorem generatedKeys_cons_of_isOpen_eq_false {i : Sketch} (hi : i.isOpen = false)
    (p : List (Instruction Key)) :
    (Patch.mk (i.mapKey Key.ofGiven :: p)).generatedKeys = (Patch.mk p).generatedKeys := by
  cases i with
  | openTag name key attributes => cases hi
  | closeTag name => rfl
  | text content => rfl
  | skip => rfl

/-- A choice takes nothing that is taken, and nothing twice. -/
theorem Chooses.generatedKeys_fresh (h : Chooses taken candidates program p) :
    (Patch.mk p).generatedKeys.Nodup ∧ ∀ key ∈ (Patch.mk p).generatedKeys, key ∉ taken := by
  induction h with
  | nil => exact ⟨List.nodup_nil, nofun⟩
  | given name key attributes _ ih =>
    rw [generatedKeys_cons_explicit]
    exact ih
  | chosen name key attributes hrest _ ih =>
    obtain ⟨hnodup, hfresh⟩ := ih
    rw [generatedKeys_cons_generated]
    refine ⟨List.nodup_cons.mpr ⟨fun hmem => ?_, hnodup⟩, List.forall_mem_cons.mpr ⟨?_, ?_⟩⟩
    · exact hfresh key hmem List.mem_cons_self
    · exact (candidates_split hrest).1
    · exact fun c hc htaken => hfresh c hc (List.mem_cons_of_mem key htaken)
  | other hi _ ih =>
    rw [generatedKeys_cons_of_isOpen_eq_false hi]
    exact ih

/-- From candidates that are all different, a choice takes the free ones in their order. -/
theorem Chooses.generatedKeys_prefix (h : Chooses taken candidates program p)
    (hnodup : candidates.Nodup) :
    (Patch.mk p).generatedKeys <+: candidates.filter (· ∉ taken) := by
  induction h with
  | nil => exact List.nil_prefix
  | given name key attributes _ ih =>
    rw [generatedKeys_cons_explicit]
    exact ih hnodup
  | @chosen name key attributes taken candidates rest program p hrest _ ih =>
    obtain ⟨hkey, front, rfl, hfront⟩ := candidates_split hrest
    obtain ⟨hnew, hlater⟩ := List.nodup_cons.mp hnodup.of_append_right
    have hnone : front.filter (· ∉ taken) = [] :=
      List.filter_eq_nil_iff.mpr fun c hc => by simpa using hfront c hc
    have hsame : rest.filter (· ∉ key :: taken) = rest.filter (· ∉ taken) := by
      refine List.filter_congr fun c hc => ?_
      have hne : c ≠ key := fun heq => hnew (heq ▸ hc)
      simp [hne]
    rw [List.filter_append, hnone, List.nil_append, List.filter_cons_of_pos (by simpa using hkey),
      generatedKeys_cons_generated, ← hsame]
    exact (List.prefix_cons_inj key).mpr (ih hlater)
  | other hi _ ih =>
    rw [generatedKeys_cons_of_isOpen_eq_false hi]
    exact ih hnodup

/-- Each open has the key that it was given, or one that was chosen. -/
theorem Chooses.exists_of_mem (h : Chooses taken candidates program p) {name : String} {key : Key}
    {attributes : List (String × String)} (hmem : .openTag name key attributes ∈ p) :
    ∃ given, .openTag name given attributes ∈ program ∧
      (key.origin = .explicit → given = some key.value) ∧
      (key.origin = .generated → given = none) := by
  induction h with
  | nil => cases hmem
  | given n k as _ ih =>
    rcases List.mem_cons.mp hmem with heq | hmem
    · cases heq
      exact ⟨some k, List.mem_cons_self, fun _ => rfl, nofun⟩
    · obtain ⟨given, hgiven, hkey⟩ := ih hmem
      exact ⟨given, List.mem_cons_of_mem _ hgiven, hkey⟩
  | chosen n k as _ _ ih =>
    rcases List.mem_cons.mp hmem with heq | hmem
    · cases heq
      exact ⟨none, List.mem_cons_self, nofun, fun _ => rfl⟩
    · obtain ⟨given, hgiven, hkey⟩ := ih hmem
      exact ⟨given, List.mem_cons_of_mem _ hgiven, hkey⟩
  | other hi _ ih =>
    rcases List.mem_cons.mp hmem with heq | hmem
    · obtain ⟨k, rfl⟩ := Instruction.mapKey_eq_openTag heq.symm
      cases hi
    · obtain ⟨given, hgiven, hkey⟩ := ih hmem
      exact ⟨given, List.mem_cons_of_mem _ hgiven, hkey⟩

theorem mem_of_collect {ε α : Type} {l : List (Except ε α)} {q : List α} {a : α}
    (h : collect l = .ok q) (ha : a ∈ q) : .ok a ∈ l := by
  induction l generalizing q with
  | nil =>
    cases h
    cases ha
  | cons e l ih =>
    cases e with
    | error e => cases h
    | ok b =>
      obtain ⟨rest, hrest, rfl⟩ := map_eq_ok h
      rcases List.mem_cons.mp ha with rfl | ha
      · exact List.mem_cons_self
      · exact List.mem_cons_of_mem _ (ih hrest ha)

mutual

/-- A tree opens its tags, each with the key that it brings. -/
theorem mem_gives {name : String} {given : Option String} {attributes : List (String × String)} :
    ∀ r : Rose (Nat × Fragment.Kind), .ok (.openTag name given attributes) ∈ config.gives r →
      given = attributes.lookup config.idAttribute ∧
        ∃ n ∈ Rose.preorder r, n.2 = .tag name attributes
  | .node (id, kind) branches => by
    intro hmem
    cases kind with
    | tag n as =>
      rw [Config.gives, List.mem_cons, List.mem_append] at hmem
      rcases hmem with heq | hmem | hmem
      · cases heq
        exact ⟨rfl, _, List.mem_cons_self, rfl⟩
      · split at hmem
        · simp at hmem
        · obtain ⟨hgiven, node, hnode, hkind⟩ := mem_givesAll branches hmem
          exact ⟨hgiven, node, List.mem_cons_of_mem _ hnode, hkind⟩
      · simp at hmem
    | text data => simp [Config.gives] at hmem
    | root => simp [Config.gives] at hmem
    | comment data => simp [Config.gives] at hmem
    | directive data => simp [Config.gives] at hmem

theorem mem_givesAll {name : String} {given : Option String}
    {attributes : List (String × String)} :
    ∀ l : Branches, .ok (.openTag name given attributes) ∈ config.givesAll l →
      given = attributes.lookup config.idAttribute ∧
        ∃ n ∈ Rose.preorderAll l, n.2 = .tag name attributes
  | [] => by
    intro hmem
    cases hmem
  | r :: rest => by
    intro hmem
    rw [Config.givesAll, List.mem_append] at hmem
    rw [Rose.preorderAll]
    rcases hmem with hmem | hmem
    · obtain ⟨hgiven, node, hnode, hkind⟩ := mem_gives r hmem
      exact ⟨hgiven, node, List.mem_append_left _ hnode, hkind⟩
    · obtain ⟨hgiven, node, hnode, hkind⟩ := mem_givesAll rest hmem
      exact ⟨hgiven, node, List.mem_append_right _ hnode, hkind⟩

end

/-- Each open of a program is that of a tag, with the key that the tag brings. -/
theorem exists_tag_of_mem (ht : Linked t) (hprogram : collect (config.givesRegion t) = .ok program)
    {name : String} {given : Option String} {attributes : List (String × String)}
    (hmem : .openTag name given attributes ∈ program) :
    given = attributes.lookup config.idAttribute ∧
      ∃ id, t.kind? id = some (.tag name attributes) := by
  obtain ⟨hgiven, ⟨id, kind⟩, hnode, rfl⟩ := mem_givesAll _ (mem_of_collect hprogram hmem)
  refine ⟨hgiven, id, ht.kind?_of_mem_region ?_⟩
  rw [Rose.preorderAll_eq_flatMap, List.mem_flatMap] at hnode ⊢
  obtain ⟨r, hr, hnode⟩ := hnode
  exact ⟨r, List.mem_of_mem_filter hr, hnode⟩

/-- Some tag of the fragment has this value as its id, wherever the tag stands. -/
def IsIdValue (config : Config) (t : Fragment) (value : String) : Prop :=
  ∃ id kind, t.kind? id = some kind ∧ config.explicitKey? kind = some value

/-- A positive number that gives a value which no tag has as its id. -/
def FreeNumber (config : Config) (t : Fragment) (stem : String) (n : Nat) : Prop :=
  0 < n ∧ ¬ IsIdValue config t (stem ++ toString n)

/-- All values of the id attribute are taken from the start. -/
theorem mem_reservedKeys_iff (ht : Linked t) {value : String} :
    value ∈ reservedKeys config t ↔ IsIdValue config t value := by
  simp only [reservedKeys, List.mem_filterMap, Option.bind_eq_some_iff]
  constructor
  · rintro ⟨id, -, kind, hkind, hvalue⟩
    exact ⟨id, kind, hkind, hvalue⟩
  · rintro ⟨id, kind, hkind, hvalue⟩
    obtain ⟨n, hn, rfl⟩ := Option.map_eq_some_iff.mp hkind
    refine ⟨id, ht.mem_preorder_iff.mpr ⟨Fragment.lt_size_of_node? hn, ?_⟩, n.kind, hkind, hvalue⟩
    rintro rfl
    obtain ⟨children, hroot⟩ := ht.root
    rw [hroot, Option.some_inj] at hn
    subst hn
    cases hvalue

/-- Only finitely many numbers are not free. -/
theorem infinite_freeNumber (ht : Linked t) (stem : String) :
    {n | FreeNumber config t stem n}.Infinite := by
  have hinj : Function.Injective fun i : Nat => stem ++ toString (i + 1) :=
    candidates_numbered_injective stem
  have htaken : {i : Nat | stem ++ toString (i + 1) ∈ reservedKeys config t}.Finite :=
    (reservedKeys config t).finite_toSet.preimage hinj.injOn
  have hfree := (htaken.infinite_compl).image (Nat.succ_injective.injOn)
  refine hfree.mono ?_
  rintro _ ⟨i, hi, rfl⟩
  exact ⟨Nat.succ_pos i, fun hid => hi ((mem_reservedKeys_iff ht).mpr hid)⟩

/-- The members of a set of numbers below a bound are the first of its members. -/
theorem filter_range_eq_map_nth (q : Nat → Prop) [DecidablePred q] (n : Nat) :
    (List.range n).filter q = (List.range (Nat.count q n)).map (Nat.nth q) := by
  induction n with
  | zero => simp
  | succ n ih =>
    rw [List.range_succ, List.filter_append, ih, Nat.count_succ]
    by_cases hn : q n
    · simp [hn, List.range_succ, Nat.nth_count hn]
    · simp [hn]

open Classical in
/-- The numbered candidates that are not taken are those of the free numbers. -/
theorem filter_candidates_numbered (ht : Linked t) (stem : String) (size : Nat) :
    ((KeyScheme.numbered stem).candidates size).filter (· ∉ reservedKeys config t) =
      ((List.range (size + 1)).filter (FreeNumber config t stem)).map
        fun n => stem ++ toString n := by
  have hzero : ¬ FreeNumber config t stem 0 := fun hfree => Nat.lt_irrefl 0 hfree.1
  rw [KeyScheme.candidates, List.filter_map, List.range_succ_eq_map,
    List.filter_cons_of_neg (by simpa using hzero), List.filter_map, List.map_map]
  have hsame : (List.range size).filter ((fun c => decide (c ∉ reservedKeys config t)) ∘
      fun i => stem ++ toString (i + 1)) =
        (List.range size).filter ((fun n => decide (FreeNumber config t stem n)) ∘ Nat.succ) := by
    refine List.filter_congr fun i _ => ?_
    simp [FreeNumber, mem_reservedKeys_iff ht]
  rw [hsame]
  rfl

theorem nodup_candidates_numbered (stem : String) (size : Nat) :
    ((KeyScheme.numbered stem).candidates size).Nodup :=
  List.nodup_range.map (candidates_numbered_injective stem)

/-- The `i`-th chosen key has the `i`-th free number. -/
theorem Chooses.generatedKeys_numbered (ht : Linked t) {stem : String} {size : Nat}
    (h : Chooses (reservedKeys config t) ((KeyScheme.numbered stem).candidates size) program p)
    {i : Nat} {key : String} (hkey : (Patch.mk p).generatedKeys[i]? = some key) :
    key = stem ++ toString (Nat.nth (FreeNumber config t stem) i) := by
  classical
  obtain ⟨more, hmore⟩ := h.generatedKeys_prefix (nodup_candidates_numbered stem size)
  rw [filter_candidates_numbered ht, filter_range_eq_map_nth, List.map_map] at hmore
  have hlt := (List.getElem?_eq_some_iff.mp hkey).1
  have hfound : ((Patch.mk p).generatedKeys ++ more)[i]? = some key := by
    rw [List.getElem?_append_left hlt, hkey]
  rw [hmore, List.getElem?_map] at hfound
  obtain ⟨j, hj, rfl⟩ := Option.map_eq_some_iff.mp hfound
  have hji : j = i := by
    obtain ⟨hlt, hj⟩ := List.getElem?_eq_some_iff.mp hj
    simpa using hj.symm
  rw [hji]
  rfl

/-- The keys of a compile. Those that it chooses differ from each other and from all values of
the id attribute, and those that it does not choose are such values. Numbered keys never run
out, and they have the free numbers in their order. -/
theorem ofFragment_keys (ht : Grown t) :
    (∀ p, ofFragment config t = .ok p →
      p.generatedKeys.Nodup ∧ (∀ key ∈ p.generatedKeys, ¬ IsIdValue config t key) ∧
      ∀ name key attributes, .openTag name key attributes ∈ p.instructions →
        (∃ id, t.kind? id = some (.tag name attributes)) ∧
        (key.origin = .explicit → attributes.lookup config.idAttribute = some key.value) ∧
        (key.origin = .generated → attributes.lookup config.idAttribute = none)) ∧
    ∀ stem, config.keys = .numbered stem →
      ofFragment config t ≠ .error .outOfDraws ∧
      {n | FreeNumber config t stem n}.Infinite ∧
      ∀ p, ofFragment config t = .ok p → ∀ i key, p.generatedKeys[i]? = some key →
        key = stem ++ toString (Nat.nth (FreeNumber config t stem) i) := by
  have hlinked := ht.linked
  have hchooses : ∀ p, ofFragment config t = .ok p → ∃ program,
      collect (config.givesRegion t) = .ok program ∧
      Chooses (reservedKeys config t) (config.keys.candidates t.size) program p.instructions := by
    intro p hp
    rw [ofFragment, sketch_eq config hlinked] at hp
    split at hp
    · cases hp
    · next program hprogram =>
      obtain ⟨q, hq, rfl⟩ := map_eq_ok hp
      exact ⟨program, hprogram, chooses_of_chooseKeys hq⟩
  refine ⟨fun p hp => ?_, fun stem hstem => ⟨?_, infinite_freeNumber hlinked stem, ?_⟩⟩
  · obtain ⟨program, hprogram, hchoice⟩ := hchooses p hp
    obtain ⟨hnodup, hfresh⟩ := hchoice.generatedKeys_fresh
    refine ⟨hnodup, fun key hkey hid => ?_, fun name key attributes hmem => ?_⟩
    · exact hfresh key hkey ((mem_reservedKeys_iff hlinked).mpr hid)
    · obtain ⟨given, hgiven, hexplicit, hgenerated⟩ := hchoice.exists_of_mem hmem
      obtain ⟨hbrought, htag⟩ := exists_tag_of_mem hlinked hprogram hgiven
      exact ⟨htag, fun h => hbrought ▸ hexplicit h, fun h => hbrought ▸ hgenerated h⟩
  · have hsuffice : KeysSuffice config t := by
      intro draws hdraws
      rw [hstem] at hdraws
      cases hdraws
    rw [ofFragment_eq_ofRegion hlinked hsuffice]
    exact ofRegion_ne_outOfDraws hlinked hsuffice
  · intro p hp i key hkey
    obtain ⟨program, -, hchoice⟩ := hchooses p hp
    rw [hstem] at hchoice
    exact hchoice.generatedKeys_numbered hlinked hkey

/-- The stem ends in a digit. One of the numbers is not free because of a tag below an opaque
one, and another one because of a tag further on. -/
theorem ofFragment_keys_taken :
    let config : Config := ⟨"id", .numbered "1", some "keep"⟩
    let t := Fragment.ofTokens [.startTag "p" [("keep", none)] false,
      .startTag "b" [("id", some "11")] false, .endTag "b", .endTag "p", .startTag "p" [] false,
      .endTag "p", .startTag "b" [("id", some "13")] false, .endTag "b"]
    let p : Patch := ⟨[.openTag "p" (.generated "12") [("keep", "")], .skip, .closeTag "p",
      .openTag "p" (.generated "14") [], .closeTag "p",
      .openTag "b" (.explicit "13") [("id", "13")], .closeTag "b"]⟩
    ofFragment config t = .ok p ∧ (∀ key ∈ ["12", "14"], ¬ IsIdValue config t key) ∧
      "14" = "1" ++ toString (Nat.nth (FreeNumber config t "1") 1) := by
  intro config t p
  have hcompile : ofFragment config t = .ok p := by decide +kernel +zetaReduce
  obtain ⟨hkeys, hnumbered⟩ := @ofFragment_keys config t (Fragment.grown_ofTokens _)
  refine ⟨hcompile, (hkeys p hcompile).2.1, ?_⟩
  exact (hnumbered "1" rfl).2.2 p hcompile 1 "14" rfl

end LiveMarkup.Patch
