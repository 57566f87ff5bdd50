import LiveMarkup.Proofs.Live.Issued
import LiveMarkup.Proofs.Live.Replay

/-!
# Replays that succeed

A replay that succeeds is a run on the trees below its target, and what the cursor of the
target has passed in the end is what the arena holds below it. The run tells more than its
result: the handles of the nodes that it makes are new, each of them one that the tree had
never given out when the replay began (`Zipper.Makes`).
-/

namespace LiveMarkup.Live

open Patch (Outcome Denotes)

namespace Zipper

variable {new : Handle → Prop} {p q : List (Patch.Instruction Patch.Key)} {z z' : List Level}

/-- A run that succeeds, in which the handles of new nodes have some property. -/
inductive Makes (new : Handle → Prop) :
    List (Patch.Instruction Patch.Key) → List Level → List Level → Prop
  | nil {z : List Level} : Makes new [] z z
  | step {i : Patch.Instruction Patch.Key} {program : List (Patch.Instruction Patch.Key)}
      {z z' z'' : List Level} (fresh : Handle) : new fresh →
      perform fresh i z = ⟨none, z'⟩ → Makes new program z' z'' → Makes new (i :: program) z z''

theorem Makes.runs (h : Makes new p z z') : Runs p z ⟨none, z'⟩ := by
  induction h with
  | nil => exact .nil
  | step fresh _ hperform _ ih => exact .step fresh hperform ih

/-- A run that starts with nothing passed has passed what its program denotes. -/
theorem Runs.denotes {l l' : Level} (h : Runs p [l] ⟨none, [l']⟩) (hpassed : l.passed = [])
    (hskip : ∀ i ∈ p, i.isSkip = false) : Denotes p (Rose.mapAll Prod.snd l'.passed) := by
  obtain ⟨_, hcompletes⟩ := h.completes hskip
  rw [List.map_cons, List.map_nil, made, hpassed, Rose.mapAll] at hcompletes
  generalize Rose.mapAll Prod.snd l'.passed = forest at hcompletes ⊢
  cases hcompletes with
  | last _ _ hdenotes => exact hdenotes

theorem Makes.of_append {z'' : List Level} (h : Makes new (p ++ q) z z'') :
    ∃ z', Makes new p z z' ∧ Makes new q z' z'' := by
  induction p generalizing z with
  | nil => exact ⟨z, .nil, h⟩
  | cons i p ih =>
    cases h with
    | step fresh hnew hperform hrest =>
      obtain ⟨z', hp, hq⟩ := ih hrest
      exact ⟨z', .step fresh hnew hperform hp, hq⟩

end Zipper

namespace Tree

variable {t u : Tree} {target : Handle} {above : Option Handle} {z : List Level}
  {program : List (Patch.Instruction Patch.Key)}

/-- Nodes that a replay leaves stay where they were. -/
theorem Stays.apply (h : Reachable t) (p : Patch) (target : Handle) :
    Stays t (p.apply target t).state := by
  obtain ⟨s, hbegin⟩ | ⟨e, hbegin⟩ := begin_cases t target
  · rw [apply_of_begin hbegin]
    have hs := h.begin hbegin
    obtain ⟨_, _, rfl⟩ := begin_eq_ok_iff.mp hbegin
    exact ((setFrames t _ _).trans (Stays.replay hs p.instructions)).trans
      (Stays.finish (hs.replay p.instructions).wellLinked _)
  · rw [apply_of_begin_error hbegin]
    exact .refl t

/-- A replay that goes through makes nodes only under handles that were never given out. -/
theorem Tracks.makes (hz : Tracks u above z) (hu : Reachable u) (hstays : Stays t u)
    (hok : (Patch.replay program u : Outcome Error Tree).failure = none) :
    ∃ z', Zipper.Makes (fun c => ¬ t.Issued c) program z z' ∧
      Tracks (Patch.replay program u : Outcome Error Tree).state above z' := by
  induction program generalizing u z with
  | nil => exact ⟨z, .nil, hz⟩
  | cons i program ih =>
    have hfollow := hz.perform hu.wellLinked hu.serializable i
    have hreach : Reachable (u.perform i).state := hu.call (.perform i)
    have hstep := hstays.trans (Stays.perform hu.wellLinked i)
    have hfresh : ¬ t.Issued u.fresh := fun hissued => not_issued_fresh (hstays.issued hissued)
    simp only [Patch.replay] at hok ⊢
    split at hok
    · next s hs =>
      have hperform : u.perform i = ⟨none, s⟩ := hs
      rw [hperform] at hfollow hreach hstep
      generalize hlevels : Zipper.perform u.fresh i z = levels at hfollow
      obtain ⟨failure, z₁⟩ := levels
      obtain ⟨hnone, hz₁⟩ := hfollow
      cases hnone
      obtain ⟨z', hmakes, hz'⟩ := ih hz₁ hreach hstep hok
      exact ⟨z', .step u.fresh hfresh hlevels hmakes, hz'⟩
    · next hfails => exact absurd (congrArg (Outcome.mk · _) hok) (hfails _)

/-- A replay that succeeds is a run on the trees below its target, and the arena holds what
the cursor of the target has passed. -/
theorem apply_makes (h : Reachable t) {p : Patch} (hok : (p.apply target t).failure = none) :
    ∃ s passed ahead, t.begin target = ⟨none, s⟩ ∧
      Zipper.Makes (fun c => ¬ t.Issued c) p.instructions
        [⟨target, t.kindOf target, [], t.region target⟩]
        [⟨target, t.kindOf target, passed, ahead⟩] ∧
      Stored (p.apply target t).state.node? (Rose.records Node.mk (t.parent? target)
        (.node (target, t.kindOf target) passed)) := by
  obtain ⟨s, hbegin, hreplay⟩ := exists_begin_of_apply hok
  rw [apply_of_begin hbegin, hreplay] at hok ⊢
  have hs := h.begin hbegin
  have hz := tracks_begin h hbegin
  have hstays : Stays t s := by
    obtain ⟨_, _, rfl⟩ := begin_eq_ok_iff.mp hbegin
    exact .setFrames t _ _
  obtain ⟨z', hmakes, hz'⟩ := hz.makes hs hstays hreplay
  have hend := hz'.finish (hs.replay p.instructions).wellLinked none
  obtain ⟨_, l, rfl⟩ := Zipper.finish_failure_eq_none_iff.mp (hend.1.symm.trans hok)
  obtain ⟨node, kind, passed, ahead⟩ := l
  have hbase := hmakes.runs.base_eq rfl
  simp only [Zipper.base_singleton, Option.some_inj, Prod.mk.injEq] at hbase
  obtain ⟨rfl, rfl⟩ := hbase
  refine ⟨s, passed, ahead, hbegin, hmakes, ?_⟩
  simpa [Zipper.finish, Zipper.complete, Zipper.records, Zipper.up, Rose.records] using hend.2

/-- After a replay without skips, the target holds what the program denotes. -/
theorem denotes_content (h : Reachable t) {p : Patch}
    (hskip : ∀ i ∈ p.instructions, i.isSkip = false)
    (hok : (p.apply target t).failure = none) :
    Denotes p.instructions ((p.apply target t).state.content target) := by
  obtain ⟨_, passed, ahead, _, hmakes, hstored⟩ := apply_makes h hok
  rw [content_of_held (h.apply p target).wellLinked hstored.held]
  exact hmakes.runs.denotes rfl hskip

end Tree

end LiveMarkup.Live
