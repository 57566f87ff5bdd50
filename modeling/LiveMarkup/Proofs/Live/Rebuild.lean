import LiveMarkup.Proofs.Live.Confined
import LiveMarkup.Proofs.Live.Renaming
import LiveMarkup.Proofs.Live.Success

/-!
# Replays as changes of trees

Whether or not a replay succeeds, all that it does in an arena is what it does to the trees below
its target (`apply_site`): the arena holds other trees there afterwards, and it fails of the same.
The handles of new nodes come from a supply of handles that were never given out.

The levels of a transaction make up one tree, and the records of the levels are those of the tree.
-/

namespace LiveMarkup.Live

open Patch (Outcome)
open Rose (place places recordsAll)

namespace Zipper

variable {supply : Nat → Handle} {fresh x a : Handle} {kind : Kind} {z : List Level}
  {above : Option Handle} {program : List (Patch.Instruction Patch.Key)} {e : Error}

/-- What the arena holds of some levels is what it holds of the tree that they make up. -/
theorem perm_records_below (inner : Branches) (hbase : base z = some (a, kind)) :
    (records above (inner.map place) z ++ recordsAll Node.mk (up above z) inner).Perm
      (recordsAll Node.mk above [.node (a, kind) (below inner z)]) := by
  induction z generalizing inner with
  | nil => cases hbase
  | cons l outer ih =>
    cases outer with
    | nil =>
      simp only [base_singleton, Option.some_inj, Prod.mk.injEq] at hbase
      obtain ⟨rfl, rfl⟩ := hbase
      refine List.perm_iff_count.mpr fun y => ?_
      simp only [records, up, below, Rose.recordsAll_node, Rose.recordsAll_append,
        Rose.recordsAll_nil, List.map_append, List.count_append, List.count_cons,
        List.append_nil]
      omega
    | cons m outer =>
      rw [base_cons_cons] at hbase
      refine .trans (List.perm_iff_count.mpr fun y => ?_)
        (ih [.node (l.node, l.kind) (l.passed ++ (inner ++ l.ahead))] hbase)
      simp only [records, up, Rose.recordsAll_node, Rose.recordsAll_append, Rose.recordsAll_nil,
        List.map_append, List.map_cons, List.map_nil, Rose.place_node, List.count_append,
        List.count_cons, List.append_nil]
      omega

theorem mem_records_of_mem {hole : List Handle} {l : Level} (hl : l ∈ z) :
    l.node ∈ (records above hole z).map Prod.fst := by
  induction z generalizing hole with
  | nil => cases hl
  | cons m outer ih =>
    rw [records, List.map_cons, List.map_append, List.map_append]
    rcases List.mem_cons.mp hl with rfl | hl
    · exact List.mem_cons_self
    · exact List.mem_cons_of_mem _ (List.mem_append_right _ (List.mem_append_right _ (ih hl)))

/-- The open containers are in the tree. -/
theorem node_mem_places {l : Level} (hbase : base z = some (a, kind)) (hl : l ∈ z) :
    l.node ∈ places [.node (a, kind) (below [] z)] := by
  have hrecord : l.node ∈ (records none [] z).map Prod.fst := mem_records_of_mem hl
  rw [← Rose.map_fst_recordsAll none]
  refine ((perm_records_below [] hbase).map Prod.fst).mem_iff.mp ?_
  rw [List.map_append]
  exact List.mem_append_left _ hrecord

theorem base_replay (supply : Nat → Handle) (program : List (Patch.Instruction Patch.Key))
    (z : List Level) : base (replay supply program z).state = base z := by
  induction program generalizing supply z with
  | nil => rfl
  | cons i program ih =>
    have hperform := base_perform (supply 0) i z
    simp only [replay]
    split
    · next z' hz' =>
      rw [hz'] at hperform
      exact (ih _ z').trans hperform
    · exact hperform

theorem base_finish (raised : Option Error) (z : List Level) :
    base (finish raised z).state = base z := by
  cases raised with
  | some e => rfl
  | none =>
    cases z with
    | nil => rfl
    | cons l outer => cases outer <;> rfl

theorem node_of_check {l : Level} {child : Option String} (h : l.check child = .error e)
    (hx : x ∈ e.nodes) : x = l.node := by
  simp only [Level.check] at h
  split at h
  · cases h
    simpa [Error.nodes] using hx
  · split at h
    · cases h
    · cases h
      simpa [Error.nodes] using hx

theorem node_of_claim {l : Level} {name key : String} (h : l.claim fresh name key = .error e)
    (hx : x ∈ e.nodes) : x = l.node := by
  simp only [Level.claim] at h
  split at h
  · next hcheck =>
    cases h
    exact node_of_check hcheck hx
  · split at h
    · cases h
    · split at h
      · cases h
        simp [Error.nodes] at hx
      · cases h

/-- An instruction that is refused names open containers only. -/
theorem exists_level_of_perform {i : Patch.Instruction Patch.Key}
    (h : (perform fresh i z).failure = some e) (hx : x ∈ e.nodes) :
    ∃ l ∈ (perform fresh i z).state, l.node = x := by
  cases i with
  | openTag name key attributes =>
    cases z with
    | nil =>
      cases h
      cases hx
    | cons l outer =>
      simp only [perform, openElement] at h ⊢
      cases hclaim : l.claim fresh name key.value with
      | error e' =>
        rw [hclaim] at h
        cases h
        exact ⟨l, List.mem_cons_self, (node_of_claim hclaim hx).symm⟩
      | ok claimed =>
        rw [hclaim] at h
        split at h
        · next hclaimed => cases hclaimed
        · split at h
          · cases h
            cases hx
          · cases h
  | closeTag name =>
    cases z with
    | nil =>
      cases h
      cases hx
    | cons l outer =>
      cases outer with
      | nil =>
        cases h
        cases hx
      | cons m outer =>
        simp only [perform, closeElement] at h
        split at h
        · split at h
          · cases h
          · cases h
            cases hx
        · cases h
  | text content =>
    cases z with
    | nil =>
      cases h
      cases hx
    | cons l outer =>
      simp only [perform, putText] at h ⊢
      cases hcheck : l.check (some content) with
      | error e' =>
        rw [hcheck] at h
        cases h
        exact ⟨l, List.mem_cons_self, (node_of_check hcheck hx).symm⟩
      | ok _ =>
        rw [hcheck] at h
        split at h
        · next hchecked => cases hchecked
        · split at h <;> cases h
  | skip =>
    cases z with
    | nil =>
      cases h
      cases hx
    | cons l outer => cases h

theorem exists_level_of_replay (h : (replay supply program z).failure = some e)
    (hx : x ∈ e.nodes) : ∃ l ∈ (replay supply program z).state, l.node = x := by
  induction program generalizing supply z with
  | nil => cases h
  | cons i program ih =>
    simp only [replay] at h ⊢
    split at h
    · exact ih h
    · exact exists_level_of_perform h hx

theorem exists_level_of_finish {raised : Option Error}
    (hraised : ∀ e, raised = some e → ∀ x ∈ e.nodes, ∃ l ∈ z, l.node = x)
    (h : (finish raised z).failure = some e) (hx : x ∈ e.nodes) :
    ∃ l ∈ (finish raised z).state, l.node = x := by
  cases raised with
  | some e' =>
    cases h
    exact hraised e rfl x hx
  | none =>
    cases z with
    | nil =>
      cases h
      cases hx
    | cons l outer =>
      cases outer with
      | nil => cases h
      | cons m outer =>
        cases h
        cases hx

end Zipper

/-- A replay that fails names nodes that it leaves in its target. -/
theorem Site.mem_places_of_replay {supply : Nat → Handle} {p : Patch} {s : Site} {x : Handle}
    {e : Error} (h : (s.replay supply p).failure = some e) (hx : x ∈ e.nodes) :
    x ∈ (s.replay supply p).state.places := by
  simp only [replay] at h ⊢
  split at h
  · next hcontainer =>
    rw [if_pos hcontainer]
    obtain ⟨l, hl, rfl⟩ := Zipper.exists_level_of_finish
      (fun e he x hx => Zipper.exists_level_of_replay he hx) h hx
    refine Zipper.node_mem_places ?_ hl
    rw [Zipper.base_finish, Zipper.base_replay, Zipper.base_singleton]
  · next hcontainer =>
    rw [if_neg hcontainer]
    cases h
    rw [List.mem_singleton.mp hx]
    exact s.node_mem_places

/-- A supply with one more handle in front. -/
def oneMore (fresh : Handle) (supply : Nat → Handle) : Nat → Handle
  | 0 => fresh
  | k + 1 => supply k

namespace Tree

variable {t u : Tree} {s : Site} {above : Option Handle} {z : List Level}

/-- A replay in the arena is one on the trees, with handles that were never given out. -/
theorem Tracks.exists_supply (hz : Tracks t above z) (h : Reachable t)
    (program : List (Patch.Instruction Patch.Key)) :
    ∃ supply : Nat → Handle, (∀ k, ¬ t.Issued (supply k)) ∧
      Follow (Patch.replay program t) above (Zipper.replay supply program z) := by
  induction program generalizing t z with
  | nil => exact ⟨fun _ => t.fresh, fun _ => not_issued_fresh, rfl, hz⟩
  | cons i program ih =>
    have hfollow := hz.perform h.wellLinked h.serializable i
    have hreach : Reachable (t.perform i).state := h.call (.perform i)
    have hstays := Stays.perform h.wellLinked i
    generalize hlevels : Zipper.perform t.fresh i z = levels at hfollow
    obtain ⟨failure, z'⟩ := levels
    simp only [Patch.replay]
    split
    · next u hu =>
      have hperform : t.perform i = ⟨none, u⟩ := hu
      rw [hperform] at hfollow hreach hstays
      obtain ⟨hnone, hz'⟩ := hfollow
      cases hnone
      obtain ⟨supply, hsupply, hreplay⟩ := ih hz' hreach
      refine ⟨oneMore t.fresh supply, fun k => ?_, ?_⟩
      · cases k with
        | zero => exact not_issued_fresh
        | succ k => exact fun hissued => hsupply k (hstays.issued hissued)
      · simp only [Zipper.replay, oneMore, hlevels]
        exact hreplay
    · next hfails =>
      cases failure with
      | none => exact absurd (congrArg (Outcome.mk · _) hfollow.1) (hfails _)
      | some e =>
        refine ⟨fun _ => t.fresh, fun _ => not_issued_fresh, ?_⟩
        simp only [Zipper.replay, hlevels]
        exact hfollow

theorem tracks_of_stored (hframes : t.frames = []) (hstored : Stored t.node? s.records) :
    Tracks { t with frames := ⟨s.node, 0⟩ :: t.frames, running := true } s.above
      [⟨s.node, s.kind, [], s.region⟩] := by
  refine ⟨rfl, by simp [Zipper.frames, hframes], ?_⟩
  show Stored t.node? _
  simpa [Site.records, Site.tree, Zipper.records, Zipper.up] using hstored

/-- Replaying a patch changes the trees below its target and fails of what it fails on them. -/
theorem apply_site (h : Reachable t) (hidle : t.running = false)
    (hstored : Stored t.node? s.records) (p : Patch) :
    ∃ supply : Nat → Handle, (∀ k, ¬ t.Issued (supply k)) ∧
      (p.apply s.node t).failure = (s.replay supply p).failure ∧
      Stored (p.apply s.node t).state.node? (s.replay supply p).state.records := by
  have hnode : t.node? s.node = some ⟨s.kind, s.above, s.region.map place⟩ :=
    hstored.held _ (Rose.mem_recordsAll_of_mem List.mem_cons_self)
  cases hcontainer : s.kind.isContainer with
  | false =>
    have hbegin : t.begin s.node = ⟨some (.notContainer s.node), t⟩ := by
      simp [Tree.begin, hidle, hnode, hcontainer]
    rw [apply_of_begin_error hbegin]
    refine ⟨fun _ => t.fresh, fun _ => not_issued_fresh, ?_, ?_⟩
    · simp [Site.replay, hcontainer]
    · simpa [Site.replay, hcontainer] using hstored
  | true =>
    have hbegin := begin_eq_ok_iff.mpr ⟨hidle, ⟨_, hnode, hcontainer⟩, rfl⟩
    have hu := h.begin hbegin
    obtain ⟨supply, hsupply, hfailure, hend⟩ :=
      (tracks_of_stored (h.frames_eq_nil_iff.mpr hidle) hstored).exists_supply hu p.instructions
    refine ⟨supply, hsupply, ?_⟩
    have hbase := Zipper.base_replay supply p.instructions [⟨s.node, s.kind, [], s.region⟩]
    simp only [Site.replay, hcontainer, if_true]
    generalize Zipper.replay supply p.instructions [⟨s.node, s.kind, [], s.region⟩] = replayed at *
    rw [apply_of_begin hbegin, hfailure]
    obtain ⟨hended, hrecords⟩ :=
      hend.finish (hu.replay p.instructions).wellLinked replayed.failure
    rw [Zipper.base_singleton, ← Zipper.base_finish replayed.failure] at hbase
    refine ⟨hended, hrecords.perm ?_⟩
    simpa [Site.records, Site.tree] using Zipper.perm_records_below [] hbase

end Tree

end LiveMarkup.Live
