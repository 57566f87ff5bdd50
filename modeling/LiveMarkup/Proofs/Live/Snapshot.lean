import LiveMarkup.Live.Snapshot
import LiveMarkup.Proofs.Leveled
import LiveMarkup.Proofs.Live.Keyed
import LiveMarkup.Proofs.Live.ReadBack
import LiveMarkup.Proofs.Markup.Fields

/-!
# Snapshots tell trees apart

A snapshot shows a node on each line, and the line tells what the node is: the first character tells
texts from elements, names end where a character comes that is in no name, and values and texts are
between quotes with all quotes inside escaped. The indentation tells where the node is. So the
snapshots of two roots are equal exactly if the trees below them are, without the keys if these are
not shown.

A key that is shown looks like an attribute. It can be told from one if every element has a key,
which is so for the elements that replays make.
-/

namespace LiveMarkup.Live

open Markup (enclosed fields isAttributeName isTagName)

namespace Kind

/-- A node without its key. -/
def unkeyed : Kind → Kind
  | .element name _ attributes => .element name none attributes
  | kind => kind

/-- A node as a snapshot shows it: a key is shown as an attribute in front of the others. -/
def shown (includeKeys : Bool) : Kind → Kind
  | .element name key attributes =>
    .element name none
      ((if includeKeys then key.toList.map fun k => ("key", k) else []) ++ attributes)
  | kind => kind

theorem shown_false (kind : Kind) : kind.shown false = kind.unkeyed := by
  cases kind <;> rfl

theorem Named.shown {kind : Kind} (h : kind.Named) (includeKeys : Bool) :
    (kind.shown includeKeys).Named := by
  cases kind with
  | root => trivial
  | text content => trivial
  | element name key attributes =>
    refine ⟨h.1, fun a ha => ?_⟩
    rcases List.mem_append.mp ha with ha | ha
    · cases includeKeys with
      | false => cases ha
      | true =>
        obtain ⟨k, -, rfl⟩ := List.mem_map.mp ha
        exact (by decide : isAttributeName "key" = true)
    · exact h.2 a ha

/-- Where every element has a key, the keys that are shown can be told from the attributes. -/
theorem shown_true_inj {kind kind' : Kind} (h : kind.Keyed) (h' : kind'.Keyed) :
    kind.shown true = kind'.shown true ↔ kind = kind' := by
  refine ⟨fun heq => ?_, congrArg (Kind.shown true)⟩
  cases kind <;> cases kind'
  case element.element name key attributes name' key' attributes' =>
    obtain ⟨k, rfl⟩ := Option.isSome_iff_exists.mp h
    obtain ⟨k', rfl⟩ := Option.isSome_iff_exists.mp h'
    simpa [Kind.shown, and_assoc] using heq
  -- All other nodes are shown as they are.
  all_goals simp_all [Kind.shown]

end Kind

namespace Tree

variable {t u : Tree}

theorem toList_snapshotFields (attributes : List (String × String)) :
    (String.join (attributes.map fun (name, value) => snapshotField name value)).toList =
      fields Text.foreignEscape attributes := by
  rw [String.toList_join, List.flatMap_map, fields]
  refine List.flatMap_congr fun a _ => ?_
  simp [snapshotField, Text.escapeForeign, enclosed]

/-- The characters of a node's line, when its key is not shown. -/
def entryOf : Kind → List Char
  | .root => ['#', 'r', 'o', 'o', 't']
  | .element name _ attributes =>
    '<' :: (name.toList ++ (fields Text.foreignEscape attributes ++ ['>']))
  | .text content => enclosed Text.foreignEscape content

theorem toList_snapshotEntry (includeKeys : Bool) (kind : Kind) :
    (snapshotEntry includeKeys kind).toList = entryOf (kind.shown includeKeys) := by
  cases kind with
  | root => simp [snapshotEntry, Kind.shown, entryOf]
  | text content => simp [snapshotEntry, Kind.shown, entryOf, enclosed, Text.escapeForeign]
  | element name key attributes =>
    cases includeKeys <;> cases key <;>
      simp [snapshotEntry, Kind.shown, entryOf, ← toList_snapshotFields]

theorem exists_entryOf_eq_cons (kind : Kind) : ∃ c more, entryOf kind = c :: more ∧ c ≠ ' ' := by
  cases kind <;> exact ⟨_, _, rfl, by decide⟩

/-- A line tells what its node is, except for the key. -/
theorem entryOf_inj {kind kind' : Kind} (hnamed : kind.Named) (hnamed' : kind'.Named) :
    entryOf kind = entryOf kind' ↔ kind.unkeyed = kind'.unkeyed := by
  constructor
  · intro h
    cases kind <;> cases kind'
    case root.root => rfl
    case text.text content content' =>
      have hcontent := congrArg (· ++ []) h
      rw [(Markup.enclosed_cancel Text.escapes_foreignEscape hcontent).1]
    case element.element name key attributes name' key' attributes' =>
      obtain ⟨rfl, rfl, -⟩ := Markup.name_fields_cancel Text.escapes_foreignEscape
        (Markup.isAttributeName_of_isTagName hnamed.1)
        (Markup.isAttributeName_of_isTagName hnamed'.1) hnamed.2 hnamed'.2 (by decide) (by decide)
        (List.cons.inj h).2
      rfl
    -- The other nodes differ in the first character of their lines.
    all_goals simp [entryOf, enclosed] at h
  · intro h
    cases kind <;> cases kind' <;> simp_all [Kind.unkeyed, entryOf]

theorem snapshotEntry_inj {includeKeys : Bool} {kind kind' : Kind} (hnamed : kind.Named)
    (hnamed' : kind'.Named) :
    snapshotEntry includeKeys kind = snapshotEntry includeKeys kind' ↔
      kind.shown includeKeys = kind'.shown includeKeys := by
  have hunkeyed : ∀ kind : Kind, (kind.shown includeKeys).unkeyed = kind.shown includeKeys := by
    intro kind
    cases kind <;> rfl
  rw [← String.toList_inj, toList_snapshotEntry, toList_snapshotEntry,
    entryOf_inj (hnamed.shown _) (hnamed'.shown _), hunkeyed, hunkeyed]

/-- The line of a node at a depth. -/
def snapshotLine (includeKeys : Bool) (place : Kind × Nat) : String :=
  String.ofList (List.replicate (2 * place.2) ' ') ++ snapshotEntry includeKeys place.1

theorem snapshotLine_inj {includeKeys : Bool} {place place' : Kind × Nat}
    (hnamed : place.1.Named) (hnamed' : place'.1.Named) :
    snapshotLine includeKeys place = snapshotLine includeKeys place' ↔
      (place.1.shown includeKeys, place.2) = (place'.1.shown includeKeys, place'.2) := by
  rw [Prod.mk.injEq, ← snapshotEntry_inj hnamed hnamed']
  constructor
  · intro h
    have hstart : ∀ kind, ∃ c more, (snapshotEntry includeKeys kind).toList = c :: more ∧ c ≠ ' ' :=
      fun kind => toList_snapshotEntry includeKeys kind ▸ exists_entryOf_eq_cons _
    obtain ⟨hdepth, hentry⟩ := Markup.margin_cancel (hstart _) (hstart _) h
    exact ⟨hentry, by omega⟩
  · rintro ⟨hentry, hdepth⟩
    rw [snapshotLine, snapshotLine, hentry, hdepth]

/-- The nodes at the top of a snapshot: the node itself, or what is right below the root. -/
def tops (t : Tree) (h : Handle) : List Handle := if h = .root then t.children .root else [h]

theorem outerContent_eq (ht : WellLinked t) (h : Handle) :
    t.outerContent h =
      Rose.mapAll t.kindOf ((t.tops h).map (Rose.unfold t.children t.capacity)) := by
  rw [outerContent, tops]
  split_ifs with hroot
  · rw [hroot, content, forest]
  · rw [List.map_singleton, Rose.unfold_eq (ht.hierarchy.settled h)]
    rfl

/-- A visit shows a node that is there, and hands its depth down. -/
theorem visitSnapshot_eq (t : Tree) (includeKeys : Bool) :
    t.visitSnapshot includeKeys = fun place =>
      (((t.node? place.1).map fun n => snapshotLine includeKeys (n.kind, place.2)).toList,
        Rose.deeper t.children place) := by
  funext ⟨h, depth⟩
  cases hn : t.node? h with
  | none => simp [visitSnapshot, hn, Rose.deeper, children]
  | some n => simp [visitSnapshot, hn, Rose.deeper, children, snapshotLine]

theorem snapshot_eq_walk (t : Tree) (h : Handle) (includeKeys : Bool) :
    t.snapshot h includeKeys =
      walk (t.visitSnapshot includeKeys) t.capacity ((t.tops h).map (·, 0)) := by
  rw [snapshot, tops]
  split_ifs with hroot
  · rw [hroot]
  · rfl

/-- The nodes at the top are live siblings. -/
theorem siblings_tops (ht : WellLinked t) {h : Handle} (hlive : t.isLive h = true) :
    ∃ o, (t.tops h).Nodup ∧ (∀ a ∈ t.tops h, t.parent? a = o) ∧
      ∀ a ∈ t.tops h, t.isLive a = true := by
  unfold tops
  split_ifs with hroot
  · exact ⟨some .root, ht.nodup_children .root, fun a ha => ht.mem_children_iff.mp ha,
      fun a ha => isLive_of_parent? (ht.mem_children_iff.mp ha)⟩
  · exact ⟨t.parent? h, by simp, by simp, by simpa using hlive⟩

/-- A snapshot shows its trees line by line. -/
theorem snapshot_eq (ht : WellLinked t) {h : Handle} (hlive : t.isLive h = true)
    (includeKeys : Bool) :
    t.snapshot h includeKeys =
      (Rose.leveledAll 0 (t.outerContent h)).map (snapshotLine includeKeys) := by
  obtain ⟨o, hnodup, hsame, hpresent⟩ := siblings_tops ht hlive
  rw [snapshot_eq_walk, visitSnapshot_eq, ht.hierarchy.walk_deeper hnodup hsame hpresent,
    outerContent_eq ht, Rose.leveledAll_mapAll, List.map_map]
  conv_rhs => rw [List.map_eq_flatMap]
  refine List.flatMap_congr fun place hplace => ?_
  obtain ⟨n, hn⟩ := node?_of_isLive (ht.hierarchy.present_of_mem_preorderAll hpresent
    (Rose.fst_mem_of_mem_leveledAll hplace))
  rw [hn, Function.comp_apply, kindOf_of_node? hn]
  rfl

mutual

theorem named_of_mem_preorder : ∀ r : Rose Kind, Writable r → ∀ kind ∈ Rose.preorder r, kind.Named
  | .node kind branches, .node _ hnamed _ hbranches => by
    intro k hk
    rw [Rose.preorder, List.mem_cons] at hk
    rcases hk with rfl | hk
    · exact hnamed
    · exact named_of_mem_preorderAll branches hbranches k hk

theorem named_of_mem_preorderAll : ∀ l : List (Rose Kind), (∀ r ∈ l, Writable r) →
    ∀ kind ∈ Rose.preorderAll l, kind.Named
  | [], _ => nofun
  | r :: rest, h => by
    intro kind hkind
    rw [Rose.preorderAll, List.mem_append] at hkind
    rcases hkind with hkind | hkind
    · exact named_of_mem_preorder r (h r List.mem_cons_self) kind hkind
    · exact named_of_mem_preorderAll rest (fun s hs => h s (List.mem_cons_of_mem _ hs)) kind hkind

end

/-- The snapshots of two roots are equal exactly if what is below the roots is the same to them. -/
theorem snapshot_root_inj (h : Reachable t) (h' : Reachable u) {includeKeys : Bool} :
    t.snapshot .root includeKeys = u.snapshot .root includeKeys ↔
      Rose.mapAll (Kind.shown includeKeys) (t.content .root) =
        Rose.mapAll (Kind.shown includeKeys) (u.content .root) := by
  have hnamed : ∀ {t : Tree}, Reachable t → ∀ place ∈ Rose.leveledAll 0 (t.content .root),
      place.1.Named := fun h place hplace =>
    named_of_mem_preorderAll _ (writable_outerContent h (.inl rfl)) _
      (Rose.fst_mem_of_mem_leveledAll hplace)
  have hlines : ∀ {t : Tree}, Reachable t → t.snapshot .root includeKeys =
      (Rose.leveledAll 0 (t.content .root)).map (snapshotLine includeKeys) := by
    intro t h
    obtain ⟨children, hroot⟩ := h.wellLinked.root
    exact snapshot_eq h.wellLinked (isLive_of_node? hroot) includeKeys
  rw [hlines h, hlines h', map_eq_map_congr fun a ha b hb =>
    snapshotLine_inj (hnamed h a ha) (hnamed h' b hb), ← Rose.leveledAll_mapAll,
    ← Rose.leveledAll_mapAll, Rose.leveledAll_inj]

/-- The keyless snapshots of two roots are equal exactly if the trees below the roots are, up to
keys. If all elements below both roots have keys, the snapshots with keys are equal exactly if the
trees are. Every element that a replay makes has a key. -/
theorem Reachable.snapshot_inj (h : Reachable t) (h' : Reachable u) :
    (t.snapshot .root false = u.snapshot .root false ↔
      Rose.mapAll Kind.unkeyed (t.content .root) = Rose.mapAll Kind.unkeyed (u.content .root)) ∧
    ((∀ kind ∈ Rose.preorderAll (t.content .root), kind.Keyed) →
      (∀ kind ∈ Rose.preorderAll (u.content .root), kind.Keyed) →
      (t.snapshot .root true = u.snapshot .root true ↔ t.content .root = u.content .root)) ∧
    ∀ (p : Patch) (target x : Handle) (n : Node), (p.apply target t).state.node? x = some n →
      t.isLive x = false → n.kind.Keyed := by
  refine ⟨?_, fun hkeyed hkeyed' => ?_, fun p target x n hn hnew => h.keyed_of_apply hn hnew⟩
  · rw [snapshot_root_inj h h', funext Kind.shown_false]
  · rw [snapshot_root_inj h h', Rose.mapAll_inj_of_labels fun a ha b hb =>
      Kind.shown_true_inj (hkeyed a ha) (hkeyed' b hb)]

/-- A value that reads like two fields and a text that reads like two lines. Another key is shown
only where keys are. -/
theorem snapshot_inj_other_key :
    let build (key : Patch.Key) : Tree := Tree.new.run [.begin .root,
      .perform (.openTag "p" key [("x", "1\" y=\"2")]), .perform (.text "a\"\n  \"é"),
      .perform (.closeTag "p"), .finish none]
    (build (.explicit "k")).snapshot .root false = (build (.generated "j")).snapshot .root false ∧
      (build (.explicit "k")).snapshot .root true ≠
        (build (.generated "j")).snapshot .root true := by
  intro build
  have hgiven : Rose.leveledAll 0 ((build (.explicit "k")).content .root) =
      [(.element "p" (some "k") [("x", "1\" y=\"2")], 0), (.text "a\"\n  \"é", 1)] := by decide
  have hchosen : Rose.leveledAll 0 ((build (.generated "j")).content .root) =
      [(.element "p" (some "j") [("x", "1\" y=\"2")], 0), (.text "a\"\n  \"é", 1)] := by decide
  obtain ⟨hplain, hkeyed, -⟩ := Reachable.snapshot_inj (t := build (.explicit "k"))
    (u := build (.generated "j")) (Reachable.new.run _) (Reachable.new.run _)
  refine ⟨hplain.mpr ?_, fun heq => ?_⟩
  · rw [← @Rose.leveledAll_inj _ 0, Rose.leveledAll_mapAll, Rose.leveledAll_mapAll, hgiven,
      hchosen]
    rfl
  · rw [hkeyed, ← @Rose.leveledAll_inj _ 0, hgiven, hchosen] at heq
    · exact absurd heq (by decide)
    · rw [← Rose.map_fst_leveledAll _ 0, hgiven]
      simp [Kind.Keyed]
    · rw [← Rose.map_fst_leveledAll _ 0, hchosen]
      simp [Kind.Keyed]

-- An attribute with the name `key` is taken for a key where not every element has one.
example :
    let build (c : Call) : Tree :=
      Tree.new.run [.createElement "p", c, .appendChild .root ⟨1, 0⟩]
    (build (.setKey ⟨1, 0⟩ "k")).snapshot .root true =
      (build (.setAttribute ⟨1, 0⟩ "key" "k")).snapshot .root true := by
  decide

end Tree

end LiveMarkup.Live
