import LiveMarkup.Proofs.Live.Content
import LiveMarkup.Proofs.Patch.Denotation

/-!
# What a replay leaves

A replay that succeeds leaves below its target the forest that its program denotes, and
nothing else, whatever was there before. The proof never looks at the old content: it goes
through the program on the side of the trees, where the part that a cursor has passed is
what the performed instructions denote, and the end of each container drops the rest.

The arena comes in at both ends only. Its links describe the trees that a transaction
starts from, and what it holds at the end determines the content of the target.
-/

namespace LiveMarkup.Live

open Patch (Outcome Denotes Completes)
open Rose (place recordsAll)

namespace Zipper

/-- What a level is and what was made in it so far. -/
def made (l : Level) : Kind × List (Rose Kind) := (l.kind, Rose.mapAll Prod.snd l.passed)

/-- The last level is always the same container. -/
def base (z : List Level) : Option (Handle × Kind) := z.getLast?.map fun l => (l.node, l.kind)

@[simp] theorem base_singleton (l : Level) : base [l] = some (l.node, l.kind) := rfl

@[simp] theorem base_cons_cons (l m : Level) (outer : List Level) :
    base (l :: m :: outer) = base (m :: outer) := by
  rw [base, List.getLast?_cons_cons, base]

theorem base_cons_congr {l m : Level} (outer : List Level) (hnode : l.node = m.node)
    (hkind : l.kind = m.kind) : base (l :: outer) = base (m :: outer) := by
  cases outer with
  | nil => simp [hnode, hkind]
  | cons k outer => simp

variable {fresh : Handle} {i : Patch.Instruction Patch.Key} {z z' : List Level}

theorem base_openElement {name key : String} {attributes : List (String × String)} :
    base (openElement fresh name key attributes z).state = base z := by
  cases z with
  | nil => rfl
  | cons l outer =>
    simp only [openElement]
    split
    · rfl
    · split
      · exact base_cons_congr outer rfl rfl
      · rw [base_cons_cons]
        exact base_cons_congr outer rfl rfl

theorem base_closeElement {name : String} : base (closeElement name z).state = base z := by
  match z with
  | [] => rfl
  | [l] => rfl
  | l :: m :: outer =>
    have hleft : base ({ m with passed := m.passed ++ [l.closed] } :: outer) =
        base (l :: m :: outer) := by
      rw [base_cons_cons]
      exact base_cons_congr outer rfl rfl
    simp only [closeElement]
    split
    · split
      · exact hleft
      · rfl
    · exact hleft

theorem base_putText {content : String} : base (putText fresh content z).state = base z := by
  cases z with
  | nil => rfl
  | cons l outer =>
    simp only [putText]
    split
    · rfl
    · split
      · exact base_cons_congr outer rfl rfl
      · exact base_cons_congr outer rfl rfl

theorem base_skip : base (skip z).state = base z := by
  cases z with
  | nil => rfl
  | cons l outer => exact base_cons_congr outer rfl rfl

/-- No instruction gets out of the last level, whether or not it fails. -/
theorem base_perform (fresh : Handle) (i : Patch.Instruction Patch.Key) (z : List Level) :
    base (perform fresh i z).state = base z := by
  cases i with
  | openTag name key attributes => exact base_openElement
  | closeTag name => exact base_closeElement
  | text content => exact base_putText
  | skip => exact base_skip

theorem base_of_perform (h : perform fresh i z = ⟨none, z'⟩) : base z' = base z := by
  rw [← base_perform fresh i z, h]

theorem Runs.base_eq {program : List (Patch.Instruction Patch.Key)}
    {o : Outcome Error (List Level)} (h : Runs program z o) (hok : o.failure = none) :
    base o.state = base z := by
  induction h with
  | nil => rfl
  | step fresh hperform _ ih => exact (ih hok).trans (base_of_perform hperform)
  | fail => cases hok

/-- An instruction that succeeds does its part of the program. -/
theorem completes_perform (h : perform fresh i z = ⟨none, z'⟩) (hskip : i.isSkip = false)
    {forest : List (Rose Kind)} {program : List (Patch.Instruction Patch.Key)}
    (hrest : Completes forest (z'.map made) program) :
    Completes forest (z.map made) (i :: program) := by
  cases i with
  | openTag name key attributes =>
    obtain ⟨l, outer, element, old, branches, ahead, rfl, _, _, rfl⟩ := openElement_cases h
    exact hrest.element
  | closeTag name =>
    obtain ⟨l, m, outer, rfl, hname, rfl⟩ := closeElement_cases h
    refine .close hname ?_
    simpa [made, Rose.mapAll_append, Rose.mapAll, Level.closed, Rose.map] using hrest
  | text content =>
    obtain ⟨l, outer, text, ahead, rfl, _, rfl⟩ := putText_cases h
    refine .text ?_
    simpa [made, Rose.mapAll_append, Rose.mapAll, Rose.map] using hrest
  | skip => cases hskip

/-- A run that succeeds and ends in its last container has made what its program denotes. -/
theorem Runs.completes {program : List (Patch.Instruction Patch.Key)} {l : Level}
    (h : Runs program z ⟨none, [l]⟩) (hskip : ∀ i ∈ program, i.isSkip = false) :
    base z = some (l.node, l.kind) ∧
      Completes (Rose.mapAll Prod.snd l.passed) (z.map made) program := by
  generalize ho : (⟨none, [l]⟩ : Outcome Error (List Level)) = o at h
  induction h with
  | nil =>
    cases ho
    exact ⟨rfl, .nil _ _⟩
  | step fresh hperform _ ih =>
    obtain ⟨hbase, hrest⟩ := ih (fun j hj => hskip j (List.mem_cons_of_mem _ hj)) ho
    exact ⟨(base_of_perform hperform).symm.trans hbase,
      completes_perform hperform (hskip _ List.mem_cons_self) hrest⟩
  | fail => cases ho

end Zipper

namespace Tree

variable {t u : Tree} {target : Handle} {above : Option Handle} {z : List Level}

/-- A transaction begins in front of all that its target holds. -/
theorem tracks_begin (h : Reachable t) (hbegin : t.begin target = ⟨none, u⟩) :
    Tracks u (t.parent? target) [⟨target, t.kindOf target, [], t.region target⟩] := by
  obtain ⟨hidle, ⟨n, hn, _⟩, rfl⟩ := begin_eq_ok_iff.mp hbegin
  refine ⟨rfl, by simp [Zipper.frames, h.frames_eq_nil_iff.mpr hidle], ?_⟩
  change Stored t.node? _
  simpa [Zipper.records, Zipper.up, Rose.records] using
    stored_region h.wellLinked (isLive_of_node? hn)

/-- A replay in the arena is a run on the trees. -/
theorem Tracks.replay (hz : Tracks t above z) (h : Reachable t)
    (program : List (Patch.Instruction Patch.Key)) :
    ∃ o, Zipper.Runs program z o ∧ Follow (Patch.replay program t) above o := by
  induction program generalizing t z with
  | nil => exact ⟨⟨none, z⟩, .nil, rfl, hz⟩
  | cons i program ih =>
    have hfollow := hz.perform h.wellLinked h.serializable i
    have hreach : Reachable (t.perform i).state := h.call (.perform i)
    generalize hlevels : Zipper.perform t.fresh i z = levels at hfollow
    obtain ⟨failure, z'⟩ := levels
    simp only [Patch.replay]
    split
    · next u hu =>
      have hperform : t.perform i = ⟨none, u⟩ := hu
      rw [hperform] at hfollow hreach
      obtain ⟨hnone, hz'⟩ := hfollow
      cases hnone
      obtain ⟨o, hruns, ho⟩ := ih hz' hreach
      exact ⟨o, .step t.fresh hlevels hruns, ho⟩
    · next hfails =>
      cases failure with
      | none => exact absurd (congrArg (Outcome.mk · _) hfollow.1) (hfails _)
      | some e => exact ⟨⟨some e, z'⟩, .fail t.fresh hlevels, hfollow⟩

theorem applyWith_of_begin_error {ω : Type} {p : Patch} {e : Error}
    (hbegin : t.begin target = ⟨some e, u⟩) (onDone : ω → ω) (world : ω) :
    p.applyWith target onDone t world = (⟨some e, u⟩, world) := by
  have hhost : Patch.Host.begin target t = (⟨some e, u⟩ : Outcome Error Tree) := hbegin
  simp only [Patch.applyWith, hhost]

theorem applyWith_of_begin {ω : Type} {p : Patch} (hbegin : t.begin target = ⟨none, u⟩)
    (onDone : ω → ω) (world : ω) : p.applyWith target onDone t world =
      ((Patch.replay p.instructions u : Outcome Error Tree).state.finish
          (Patch.replay p.instructions u : Outcome Error Tree).failure,
        if (Patch.replay p.instructions u : Outcome Error Tree).isOk then onDone world
        else world) := by
  have hhost : Patch.Host.begin target t = (⟨none, u⟩ : Outcome Error Tree) := hbegin
  simp only [Patch.applyWith, hhost]
  rfl

theorem apply_of_begin_error {p : Patch} {e : Error} (hbegin : t.begin target = ⟨some e, u⟩) :
    p.apply target t = ⟨some e, u⟩ := by
  rw [Patch.apply, applyWith_of_begin_error hbegin]

theorem apply_of_begin {p : Patch} (hbegin : t.begin target = ⟨none, u⟩) :
    p.apply target t = (Patch.replay p.instructions u : Outcome Error Tree).state.finish
      (Patch.replay p.instructions u : Outcome Error Tree).failure := by
  rw [Patch.apply, applyWith_of_begin hbegin]

/-- A replay that succeeds gets into its transaction and through all its instructions. -/
theorem exists_begin_of_apply {p : Patch} (hok : (p.apply target t).failure = none) :
    ∃ u, t.begin target = ⟨none, u⟩ ∧
      (Patch.replay p.instructions u : Outcome Error Tree).failure = none := by
  obtain ⟨u, hbegin⟩ | ⟨e, hbegin⟩ := begin_cases t target
  · refine ⟨u, hbegin, ?_⟩
    rw [apply_of_begin hbegin] at hok
    cases hraised : (Patch.replay p.instructions u : Outcome Error Tree).failure with
    | none => rfl
    | some e =>
      rw [hraised] at hok
      cases hok
  · rw [apply_of_begin_error hbegin] at hok
    cases hok

/-- A replay that gets into its transaction is a run on the trees below its target, and what
the arena holds in the end are the levels that come out. -/
theorem apply_runs (h : Reachable t) (p : Patch) (hbegin : t.begin target = ⟨none, u⟩) :
    ∃ o, Zipper.Runs p.instructions [⟨target, t.kindOf target, [], t.region target⟩] o ∧
      (p.apply target t).failure = (Zipper.finish o.failure o.state).failure ∧
      Stored (p.apply target t).state.node?
        (Zipper.records (t.parent? target) [] (Zipper.finish o.failure o.state).state) := by
  have hz := tracks_begin h hbegin
  have hu := h.begin hbegin
  obtain ⟨o, hruns, hfailure, hend⟩ := hz.replay hu p.instructions
  rw [apply_of_begin hbegin, hfailure]
  exact ⟨o, hruns, hend.finish (hu.replay p.instructions).wellLinked o.failure⟩

/-- After a replay that succeeds, the target holds what the program denotes, and that is
the only forest that the program denotes. -/
theorem Reachable.denotes_content_apply (h : Reachable t) {p : Patch}
    (hskip : ∀ i ∈ p.instructions, i.isSkip = false)
    (hok : (p.apply target t).failure = none) :
    Denotes p.instructions ((p.apply target t).state.content target) ∧
      ∀ forest, Denotes p.instructions forest →
        forest = (p.apply target t).state.content target := by
  suffices hdenotes : Denotes p.instructions ((p.apply target t).state.content target) from
    ⟨hdenotes, fun forest hforest => hforest.unique hdenotes⟩
  obtain ⟨u, hbegin, -⟩ := exists_begin_of_apply hok
  obtain ⟨⟨failure, z⟩, hruns, hfailure, hstored⟩ := apply_runs h p hbegin
  rw [hok] at hfailure
  obtain ⟨rfl, l, rfl⟩ := Zipper.finish_failure_eq_none_iff.mp hfailure.symm
  obtain ⟨node, kind, passed, ahead⟩ := l
  obtain ⟨hbase, hmade⟩ := hruns.completes hskip
  simp only [Zipper.base_singleton, Option.some_inj, Prod.mk.injEq] at hbase
  obtain ⟨rfl, rfl⟩ := hbase
  have hheld : Held (p.apply target t).state.node? (Rose.records Node.mk (t.parent? target)
      (.node (target, t.kindOf target) passed)) := by
    simpa [Zipper.finish, Zipper.complete, Zipper.records, Zipper.up, Rose.records]
      using hstored.held
  rw [content_of_held (h.apply p target).wellLinked hheld]
  generalize Rose.mapAll Prod.snd passed = forest at hmade
  cases hmade with
  | last _ _ hdenotes => exact hdenotes

/-- A program with the same name and key twice, and a text, replayed into a root that a
failed transaction has left half done: an element with attributes and a child of its own
and an element that is in the wrong place. -/
theorem denotes_content_apply_after_failure :
    let t := Tree.new.run [.begin .root, .perform (.openTag "b" (.explicit "k") []),
      .perform (.closeTag "b"), .perform (.openTag "a" (.explicit "k") [("x", "1")]),
      .perform (.text "old"), .perform (.closeTag "b"), .finish (some .noTransaction)]
    let p : Patch := ⟨[.openTag "a" (.explicit "k") [("y", "2")], .closeTag "a", .text "new",
      .openTag "a" (.generated "k") [], .openTag "b" (.explicit "k") [], .closeTag "b",
      .closeTag "a"]⟩
    (p.apply .root t).failure = none ∧
      Denotes p.instructions ((p.apply .root t).state.content .root) := by
  refine ⟨by decide, (Reachable.denotes_content_apply (Reachable.new.run _) ?_ ?_).1⟩
  · decide
  · decide

end Tree

end LiveMarkup.Live
