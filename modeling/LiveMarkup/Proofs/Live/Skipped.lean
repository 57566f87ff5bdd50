import LiveMarkup.Proofs.Live.Behind
import LiveMarkup.Proofs.Live.Completion
import LiveMarkup.Proofs.Live.Rank
import LiveMarkup.Proofs.Patch.Opaque

/-!
# What a skip protects

From a skip on, the container keeps all that it holds until its transaction is over. Compiled
programs skip in opaque elements only, right after the open, so a replay that succeeds leaves
such an element with what it held before, or empty if it is new.

For the second part the trees ahead of a cursor have to be those of the tree that the replay
started from (`Untouched`). Only an open that fails puts anything else there.
-/

namespace LiveMarkup.Live.Tree

open Patch (Outcome)
open Rose (place recordsAll)

variable {t u s : Tree} {a h target : Handle} {above : Option Handle} {z z' : List Level}
  {new : Handle → Prop} {program rest : List (Patch.Instruction Patch.Key)}

/-- Whatever is ahead of a cursor stands there as it did in `t`. -/
def Untouched (t : Tree) (z : List Level) : Prop :=
  ∀ l ∈ z, Held t.node? (recordsAll Node.mk (some l.node) l.ahead)

/-- An instruction that goes through takes trees from those ahead and puts none there. -/
theorem Untouched.perform (hz : Untouched t z) {fresh : Handle} (hfresh : t.isLive fresh = false)
    {i : Patch.Instruction Patch.Key} (hperform : Zipper.perform fresh i z = ⟨none, z'⟩) :
    Untouched t z' := by
  cases i with
  | openTag name key attributes =>
    obtain ⟨l, outer, element, old, branches, ahead, rfl, hclaim, -, rfl⟩ :=
      Zipper.openElement_cases hperform
    obtain ⟨hl, houter⟩ := List.forall_mem_cons.mp hz
    obtain ⟨hbelow, hahead, -⟩ := keyedChildren_claim hl hfresh hclaim
    exact List.forall_mem_cons.mpr ⟨hbelow, List.forall_mem_cons.mpr ⟨hahead, houter⟩⟩
  | closeTag name =>
    obtain ⟨l, m, outer, rfl, -, rfl⟩ := Zipper.closeElement_cases hperform
    obtain ⟨-, hrest⟩ := List.forall_mem_cons.mp hz
    obtain ⟨hm, houter⟩ := List.forall_mem_cons.mp hrest
    exact List.forall_mem_cons.mpr ⟨hm, houter⟩
  | text content =>
    cases z with
    | nil => cases hperform
    | cons l outer =>
      obtain ⟨hl, houter⟩ := List.forall_mem_cons.mp hz
      obtain ⟨text, ahead, rfl, hsource⟩ := Zipper.putText_source hperform
      refine List.forall_mem_cons.mpr ⟨?_, houter⟩
      obtain ⟨old, below, hahead⟩ | ⟨-, rfl⟩ := hsource
      · rw [hahead, Rose.recordsAll_node] at hl
        exact hl.subset fun e he => List.mem_cons_of_mem _ (List.mem_append_right _ he)
      · exact hl
  | skip =>
    obtain ⟨l, outer, rfl, rfl⟩ := Zipper.skip_cases hperform
    obtain ⟨-, houter⟩ := List.forall_mem_cons.mp hz
    exact List.forall_mem_cons.mpr ⟨.nil, houter⟩

theorem Untouched.makes (hz : Untouched t z) (hnew : ∀ c, new c → t.isLive c = false)
    (h : Zipper.Makes new program z z') : Untouched t z' := by
  induction h with
  | nil => exact hz
  | step fresh hfresh hperform _ ih => exact ih (hz.perform (hnew fresh hfresh) hperform)

/-- A run that goes through makes nodes only under handles that were never given out. -/
theorem Tracks.run_makes (hz : Tracks u above z) (hu : Reachable u) (hstays : Stays t u)
    (hthrough : GoesThrough u program) :
    Stays t (u.run (program.map .perform)) ∧
      ∃ z', Zipper.Makes (fun c => ¬ t.Issued c) program z z' ∧
        Tracks (u.run (program.map .perform)) above z' := by
  have hok := failure_replay_eq_none_iff.mpr hthrough
  obtain ⟨z', hmakes, hz'⟩ := hz.makes hu hstays hok
  obtain ⟨body, -, hrun, hall⟩ := exists_prefix_of_replay u program
  rw [hall hok] at hrun
  exact ⟨hstays.trans (hrun ▸ Stays.replay hu program), z', hmakes, hrun ▸ hz'⟩

/-- An element of this kind is there. It holds what it held before, if it was there before,
and otherwise nothing. -/
structure LeftAlone (t u : Tree) (element : Handle) (kind : Kind) : Prop where
  kind : (u.node? element).map Node.kind = some kind
  reused : t.isLive element = true →
    u.children element = t.children element ∧ SameBelow t u element
  made : t.isLive element = false → u.children element = []

/-- What an open finds is held by the tree as it was. What it makes is new and empty. -/
theorem claimed_cases {l : Level} {fresh : Handle} {name key : String} {kind : Kind}
    {branches ahead : Branches} (hl : Held t.node? (recordsAll Node.mk (some l.node) l.ahead))
    (hfresh : t.isLive fresh = false)
    (hclaim : l.claim fresh name key = .ok (.node (h, kind) branches, ahead)) :
    (t.isLive h = true ∧ t.children h = branches.map place) ∨
      (t.isLive h = false ∧ branches = []) := by
  obtain ⟨before, after, hahead, -, -⟩ | ⟨hmade, -, -⟩ := Level.claim_cases hclaim
  · have hmem : .node (h, kind) branches ∈ l.ahead := by simp [hahead]
    have hnode := hl _ (Rose.mem_recordsAll_of_mem hmem)
    exact .inl ⟨isLive_of_node? hnode, children_of_node? hnode⟩
  · cases hmade
    exact .inr ⟨hfresh, rfl⟩

/-- An element that was only skipped over lies behind a cursor in the end, with all that it
held. -/
theorem behind_of_skip {l m : Level} {outer : List Level} (hpassed : l.passed = [])
    {name : String}
    (hrun : Zipper.Makes new (.skip :: .closeTag name :: rest) (l :: m :: outer) z) :
    (l.node, ⟨l.kind, some m.node, l.ahead.map place⟩) ∈ Zipper.behind z ∧
      ∀ e ∈ recordsAll Node.mk (some l.node) l.ahead, e ∈ Zipper.behind z := by
  cases hrun with
  | step _ _ hskip hrun =>
    cases hskip
    cases hrun with
    | step _ _ hclose hrun =>
      rw [Zipper.perform] at hclose
      obtain ⟨_, _, _, hlevels, -, rfl⟩ := Zipper.closeElement_cases hclose
      cases hlevels
      have hkeeps := hrun.runs.advances.behind
      refine ⟨hkeeps _ ?_, fun e he => hkeeps e ?_⟩
      · simp [Level.closed, hpassed]
      · simp [Level.closed, hpassed, he]

/-- A replay starts in front of what the tree holds. -/
theorem untouched_begin (h : Reachable t) (hbegin : t.begin target = ⟨none, s⟩) :
    Untouched t [⟨target, t.kindOf target, [], t.region target⟩] := by
  obtain ⟨-, ⟨n, hn, -⟩, -⟩ := begin_eq_ok_iff.mp hbegin
  have hheld := (stored_region h.wellLinked (isLive_of_node? hn)).held
  exact List.forall_mem_singleton.mpr (Held.tail hheld)

/-- A replay that succeeds, seen in the middle of its program. What lies behind the cursors at
the end of the program is still there after the end of the transaction. -/
theorem apply_halfway (h : Reachable t) {p : Patch} (hok : (p.apply target t).failure = none)
    (hp : p.instructions = program ++ rest) :
    ∃ z z', Tracks (t.run (.begin target :: program.map .perform)) (t.parent? target) z ∧
      Zipper.Makes (fun c => ¬ t.Issued c) program
        [⟨target, t.kindOf target, [], t.region target⟩] z ∧
      Zipper.Makes (fun c => ¬ t.Issued c) rest z z' ∧
      Held (p.apply target t).state.node? (Zipper.behind z') ∧
      Untouched t [⟨target, t.kindOf target, [], t.region target⟩] := by
  obtain ⟨s, hbegin, hreplay⟩ := exists_begin_of_apply hok
  have hs := h.begin hbegin
  have hstays : Stays t s := by
    obtain ⟨_, _, rfl⟩ := begin_eq_ok_iff.mp hbegin
    exact .setFrames t _ _
  have hthrough := failure_replay_eq_none_iff.mp hreplay
  obtain ⟨body, -, hrun, hall⟩ := exists_prefix_of_replay s p.instructions
  rw [apply_of_begin hbegin, hrun, hall hreplay, hreplay, run_begin hbegin]
  rw [hp] at hthrough ⊢
  obtain ⟨hfirst, hlast⟩ := goesThrough_append_iff.mp hthrough
  have hz₀ := tracks_begin h hbegin
  obtain ⟨hstays', z, hmakes, hz⟩ := hz₀.run_makes hs hstays hfirst
  obtain ⟨-, z', hmakes', hz'⟩ := hz.run_makes (hs.run _) hstays' hlast
  rw [← run_append, ← List.map_append] at hz'
  have hend := (hz'.finish (hs.run _).wellLinked none).2.held
  refine ⟨z, z', hz, hmakes, hmakes', fun e he => hend e ?_, untouched_begin h hbegin⟩
  exact Zipper.mem_records_of_behind ((Zipper.Advances.finish none z').behind e he)

/-- In a replay that succeeds, an element that is skipped over right after its open and then
closed is left alone. -/
theorem leftAlone_of_skip (h : Reachable t) {p : Patch} (hok : (p.apply target t).failure = none)
    {before : List (Patch.Instruction Patch.Key)} {name : String} {key : Patch.Key}
    {attributes : List (String × String)} (hp : p.instructions =
      before ++ .openTag name key attributes :: .skip :: .closeTag name :: rest) :
    let opened := before ++ [Patch.Instruction.openTag name key attributes]
    ∃ element outer,
      (t.run (.begin target :: opened.map .perform)).frames = ⟨element, 0⟩ :: outer ∧
      LeftAlone t (p.apply target t).state element
        (.element name (some key.value) attributes) := by
  intro opened
  have hparts : p.instructions = opened ++ .skip :: .closeTag name :: rest := by
    simp [hp, opened]
  obtain ⟨z, z', hz, hmakes, hrest, hend, hbegun⟩ := apply_halfway h hok hparts
  obtain ⟨z₀, hbefore, hopen⟩ := hmakes.of_append
  have hnew : ∀ c, ¬ t.Issued c → t.isLive c = false := fun c hc =>
    Bool.eq_false_iff.mpr fun hlive => hc (issued_of_isLive hlive)
  have hahead := hbegun.makes hnew hbefore
  have hinside := hahead.makes hnew hopen
  cases hopen with
  | step fresh hfresh hperform hnil =>
    cases hnil
    rw [Zipper.perform] at hperform
    obtain ⟨l, outer, element, old, branches, ahead, rfl, hclaim, -, rfl⟩ :=
      Zipper.openElement_cases hperform
    refine ⟨element, _, hz.frames, ?_⟩
    have hclaimed := claimed_cases (hahead l List.mem_cons_self) (hnew fresh hfresh) hclaim
    have hbelow : Held t.node? (recordsAll Node.mk (some element) branches) :=
      hinside _ List.mem_cons_self
    -- The close leaves behind what the element holds, and so it is there in the end.
    obtain ⟨helement, hbranches⟩ := behind_of_skip rfl hrest
    have hnode := hend _ helement
    have hchildren := children_of_node? hnode
    refine ⟨by rw [hnode]; rfl, fun hlive => ?_, fun hdead => ?_⟩
    · obtain ⟨-, hold⟩ | ⟨hdead, -⟩ := hclaimed
      · refine ⟨hchildren.trans hold.symm, ?_⟩
        exact sameBelow_of_held h.wellLinked hold hbelow (hend.subset hbranches)
      · simp [hlive] at hdead
    · obtain ⟨hlive, -⟩ | ⟨-, rfl⟩ := hclaimed
      · simp [hlive] at hdead
      · exact hchildren

/-- From a skip to the end of a transaction of instructions, whichever they are and whether
or not they fail, the container keeps all that it held. A compiled program that is replayed
with success leaves each of its opaque elements alone. -/
theorem Reachable.skip_protects (h : Reachable t) (a : Handle) :
    (t.running = false → ∀ (before after : List (Patch.Instruction Patch.Key)) (f : Frame)
      (outer : List Frame), (t.run (.begin a :: before.map .perform)).frames = f :: outer →
      let u := t.run (.begin a :: before.map .perform)
      let v := u.run (.perform .skip :: after.map .perform)
      (u.perform .skip).failure = none ∧ Shelters u v f.node ∧
        ∀ raised, Shelters u (v.finish raised).state f.node) ∧
    ∀ (config : Patch.Config) (fragment : Fragment) (p : Patch), Fragment.Grown fragment →
      Patch.ofFragment config fragment = .ok p → (p.apply a t).failure = none →
      ∀ before name key attributes after,
        p.instructions = before ++ .openTag name key attributes :: after →
        config.isOpaque (.tag name attributes) = true →
        let opened := before ++ [Patch.Instruction.openTag name key attributes]
        ∃ element outer,
          (t.run (.begin a :: opened.map .perform)).frames = ⟨element, 0⟩ :: outer ∧
          LeftAlone t (p.apply a t).state element
            (.element name (some key.value) attributes) := by
  refine ⟨fun hidle before after f outer hframes => shelters_skip h hidle a before after hframes,
    fun config fragment p hgrown hcompile hok before name key attributes after hp hkept => ?_⟩
  have hskips := Patch.skipsOpaque_ofFragment hgrown.linked hcompile
  rw [hp] at hskips
  obtain ⟨rest, rfl⟩ := hskips.exists_of_append hkept
  exact leftAlone_of_skip h hok hp

/-- Behind a text stands an element that holds a text and an element. The body replaces the
first text, skips, makes the same element anew and leaves it open; the compiled program finds
the old element to be opaque, and makes an opaque one. -/
theorem skip_protects_opaque :
    let t := Tree.new.run [.begin .root, .perform (.text "a"),
      .perform (.openTag "i" (.explicit "m") []), .perform (.text "kept"),
      .perform (.openTag "b" (.explicit "n") []), .perform (.closeTag "b"),
      .perform (.closeTag "i"), .finish none]
    let u := t.run (.begin .root :: List.map .perform [.text "x"])
    let v := u.run (.perform .skip :: List.map .perform
      [.openTag "i" (.explicit "m") [], .closeTag "u", .text "y"])
    let fragment := Fragment.ofTokens [.startTag "i" [("id", some "m"), ("keep", none)] false,
      .text "not looked at", .endTag "i", .startTag "i" [("keep", none)] false, .endTag "i"]
    let p : Patch := ⟨[.openTag "i" (.explicit "m") [("id", "m"), ("keep", "")], .skip,
      .closeTag "i", .openTag "i" (.generated "k1") [("keep", "")], .skip, .closeTag "i"]⟩
    v.children .root = [⟨1, 0⟩, ⟨2, 0⟩, ⟨5, 0⟩] ∧ Shelters u (v.finish none).state .root ∧
      Patch.ofFragment ⟨"id", .numbered "k", some "keep"⟩ fragment = .ok p ∧
      t.children ⟨2, 0⟩ = [⟨3, 0⟩, ⟨4, 0⟩] ∧
      LeftAlone t (p.apply .root t).state ⟨2, 0⟩
        (.element "i" (some "m") [("id", "m"), ("keep", "")]) := by
  intro t u v fragment p
  have h : Reachable t := Reachable.new.run _
  obtain ⟨hskip, hcompiled⟩ := h.skip_protects .root
  have hcompile : Patch.ofFragment ⟨"id", .numbered "k", some "keep"⟩ fragment = .ok p := by
    decide +kernel +zetaReduce
  refine ⟨by decide, ?_, hcompile, by decide, ?_⟩
  · have hframes : u.frames = [⟨.root, 1⟩] := by decide
    exact (hskip (by decide) _ _ _ _ hframes).2.2 none
  · obtain ⟨element, outer, hframes, hleft⟩ := hcompiled _ fragment p
      (Fragment.grown_ofTokens _) hcompile (by decide) [] _ _ _ _ rfl (by decide)
    have hopened : (t.run (.begin .root :: List.map .perform [] ++ [.perform
        (.openTag "i" (.explicit "m") [("id", "m"), ("keep", "")])])).frames =
        [⟨⟨2, 0⟩, 0⟩, ⟨.root, 1⟩] := by decide
    cases hframes.symm.trans hopened
    exact hleft

end LiveMarkup.Live.Tree
