import LiveMarkup.Proofs.Live.Success
import LiveMarkup.Proofs.Patch.Compile
import LiveMarkup.Proofs.Patch.SkipsLast

/-!
# Replaying again

A replay leaves behind what its program makes, in the order in which the program makes it.
So a second replay finds at each cursor the very node that it would have to make, with
nothing behind the cursor where a container ends, and it changes nothing at all
(`Zipper.Retraces`).

What the second replay finds is known only when the first one has ended. The trees ahead of
its cursors are therefore put together from the end of the program to its front
(`Zipper.Runs.exists_retraces`). A skip is where this can fail: what is made behind it has
been passed by the skip the next time, which is why skips have to come last.
-/

namespace LiveMarkup.Live

open Patch (Outcome skipsLastFrom)
open Rose (place recordsAll)

namespace Zipper

/-- The program finds each node where it would put it, and nothing else. -/
inductive Retraces : List (Patch.Instruction Patch.Key) → List Level → Prop
  | nil {l : Level} : l.ahead = [] → Retraces [] [l]
  | openTag {name : String} {key : Patch.Key} {attributes : List (String × String)}
      {program : List (Patch.Instruction Patch.Key)} {l : Level} {outer : List Level}
      {h : Handle} {below ahead : Branches} :
      l.ahead = .node (h, .element name (some key.value) attributes) below :: ahead →
      Retraces program (⟨h, .element name (some key.value) attributes, [], below⟩ ::
        { l with ahead := ahead } :: outer) →
      Retraces (.openTag name key attributes :: program) (l :: outer)
  | closeTag {name : String} {program : List (Patch.Instruction Patch.Key)} {l m : Level}
      {outer : List Level} : l.ahead = [] →
      (∀ expected, l.kind.name? = some expected → expected = name) →
      Retraces program ({ m with passed := m.passed ++ [l.closed] } :: outer) →
      Retraces (.closeTag name :: program) (l :: m :: outer)
  | text {content : String} {program : List (Patch.Instruction Patch.Key)} {l : Level}
      {outer : List Level} {h : Handle} {ahead : Branches} :
      l.ahead = .node (h, .text content) [] :: ahead →
      Retraces program ({ l with
        passed := l.passed ++ [.node (h, .text content) []], ahead := ahead } :: outer) →
      Retraces (.text content :: program) (l :: outer)
  | skip {program : List (Patch.Instruction Patch.Key)} {l : Level} {outer : List Level} :
      Retraces program ({ l with passed := l.passed ++ l.ahead, ahead := [] } :: outer) →
      Retraces (.skip :: program) (l :: outer)

/-- Nothing is ahead where a container was skipped over. -/
abbrev Skipped (skipped : List Bool) (z : List Level) : Prop :=
  List.Forall₂ (fun here l => here = true → l.ahead = []) skipped z

/-- The same levels with other trees ahead, and with none where a container was skipped
over. -/
inductive Refilled : (skipped : List Bool) → List Level → List Level → Prop
  | nil : Refilled [] [] []
  | cons {here : Bool} {skipped : List Bool} {l : Level} {z z' : List Level} (ahead : Branches) :
      (here = true → ahead = []) → Refilled skipped z z' →
      Refilled (here :: skipped) (l :: z) ({ l with ahead := ahead } :: z')

/-- The tree of the last container, with all open ones put back into their places. The hole
is what stands at the cursor of the innermost level. -/
def plug : (hole : Branches) → List Level → Branches
  | hole, [] => hole
  | hole, l :: outer => plug [.node (l.node, l.kind) (l.passed ++ hole ++ l.ahead)] outer

variable {program : List (Patch.Instruction Patch.Key)} {skipped : List Bool} {l : Level}
  {z z' : List Level}

/-- Where a run went through, the same program can be retraced from the same levels, with
the right trees ahead. -/
theorem Runs.exists_retraces (h : Runs program z ⟨none, [l]⟩) (hz : Skipped skipped z)
    (hskips : skipsLastFrom skipped program = true) :
    ∃ z', Refilled skipped z z' ∧ Retraces program z' ∧
      plug [] z' = plug [] [{ l with ahead := [] }] := by
  generalize ho : (⟨none, [l]⟩ : Outcome Error (List Level)) = o at h
  induction h generalizing skipped with
  | nil =>
    cases ho
    cases hz with
    | cons _ hz =>
      cases hz
      exact ⟨_, .cons [] (fun _ => rfl) .nil, .nil rfl, rfl⟩
  | @step i program z z₁ o fresh hperform _ ih =>
    cases i with
    | openTag name key attributes =>
      obtain ⟨l, outer, element, old, branches, ahead, rfl, _, _, rfl⟩ := openElement_cases hperform
      cases hz with
      | @cons here _ skipped _ _ hz =>
        rw [skipsLastFrom, Bool.and_eq_true, Bool.not_eq_true'] at hskips
        obtain ⟨rfl, hskips⟩ := hskips
        obtain ⟨z', hrefilled, hretraces, hplug⟩ :=
          ih (.cons (by simp) (.cons (by simp) hz)) hskips ho
        cases hrefilled with
        | cons below _ hrefilled =>
          cases hrefilled with
          | cons ahead _ hrefilled =>
            refine ⟨_, .cons (.node (element, .element name (some key.value) attributes) below ::
              ahead) (by simp) hrefilled, .openTag rfl hretraces, ?_⟩
            rw [← hplug]
            simp [plug]
    | closeTag name =>
      obtain ⟨l, m, outer, rfl, hname, rfl⟩ := closeElement_cases hperform
      cases hz with
      | cons _ hz =>
        cases hz with
        | cons hm hz =>
          rw [skipsLastFrom] at hskips
          obtain ⟨z', hrefilled, hretraces, hplug⟩ := ih (.cons hm hz) hskips ho
          cases hrefilled with
          | cons ahead hahead hrefilled =>
            refine ⟨_, .cons [] (fun _ => rfl) (.cons ahead hahead hrefilled),
              .closeTag rfl hname hretraces, ?_⟩
            rw [← hplug]
            simp [plug, Level.closed]
    | text content =>
      obtain ⟨l, outer, text, ahead, rfl, _, rfl⟩ := putText_cases hperform
      cases hz with
      | @cons here _ skipped _ _ hz =>
        rw [skipsLastFrom, Bool.and_eq_true, Bool.not_eq_true'] at hskips
        obtain ⟨rfl, hskips⟩ := hskips
        obtain ⟨z', hrefilled, hretraces, hplug⟩ := ih (.cons (by simp) hz) hskips ho
        cases hrefilled with
        | cons ahead _ hrefilled =>
          refine ⟨_, .cons (.node (text, .text content) [] :: ahead) (by simp) hrefilled,
            .text rfl hretraces, ?_⟩
          rw [← hplug]
          simp [plug]
    | skip =>
      obtain ⟨l, outer, rfl, rfl⟩ := skip_cases hperform
      cases hz with
      | cons hl hz =>
        rw [skipsLastFrom] at hskips
        obtain ⟨z', hrefilled, hretraces, hplug⟩ := ih (.cons (fun _ => rfl) hz) hskips ho
        cases hrefilled with
        | cons ahead hahead hrefilled =>
          -- Nothing follows in a container that was skipped over.
          cases hahead rfl
          refine ⟨_, .cons l.ahead hl hrefilled, .skip hretraces, ?_⟩
          rw [← hplug]
          simp [plug]
  | fail => cases ho

end Zipper

namespace Tree

variable {t u : Tree} {target h : Handle} {above : Option Handle} {kind : Kind}
  {name key content : String} {attributes : List (String × String)} {l : Level}
  {outer z : List Level} {below ahead : Branches} {program : List (Patch.Instruction Patch.Key)}

theorem modify_eq_self {f : Node → Node} (hf : ∀ n, t.node? h = some n → f n = n) :
    t.modify h f = t :=
  (modify_congr hf).trans (modify_id t h)

theorem truncate_eq_self {start : Nat} (hstart : (t.children h).length ≤ start) :
    t.truncate h start = t := by
  have hmodify : t.modify h (fun n => { n with children := n.children.take start }) = t := by
    refine modify_eq_self fun n hn => ?_
    rw [children_of_node? hn] at hstart
    rw [List.take_of_length_le hstart]
  rw [truncate, List.drop_of_length_le hstart, List.reverse_nil, walk_nil, List.foldl_nil, hmodify]

/-- The replay goes through and changes nothing but the cursor, which has passed all that its
container holds in the end. -/
def Passes (program : List (Patch.Instruction Patch.Key)) (t : Tree) : Prop :=
  ∃ frame, (Patch.replay program t : Outcome Error Tree) = ⟨none, { t with frames := [frame] }⟩ ∧
    t.isLive frame.node = true ∧ (t.children frame.node).length ≤ frame.cursor

theorem passes_nil {frame : Frame} (hframes : t.frames = [frame])
    (hlive : t.isLive frame.node = true)
    (hcursor : (t.children frame.node).length ≤ frame.cursor) : Passes [] t :=
  ⟨frame, by rw [Patch.replay_nil, ← hframes], hlive, hcursor⟩

theorem Passes.cons {i : Patch.Instruction Patch.Key} {frames : List Frame}
    (hstep : t.perform i = ⟨none, { t with frames := frames }⟩)
    (h : Passes program { t with frames := frames }) : Passes (i :: program) t := by
  have hhost : Patch.Host.perform i t =
      (⟨none, { t with frames := frames }⟩ : Outcome Error Tree) := hstep
  rw [Passes, Patch.replay, hhost]
  exact h

/-- The end of such a transaction changes nothing either. -/
theorem Passes.apply_eq {p : Patch} (hbegin : t.begin target = ⟨none, u⟩)
    (h : Passes p.instructions u) :
    p.apply target t = ⟨none, { u with frames := [], running := false }⟩ := by
  obtain ⟨frame, hreplay, hlive, hcursor⟩ := h
  rw [apply_of_begin hbegin, hreplay]
  have hresident : ({ u with frames := [frame] } : Tree).resident frame.node.slot = frame.node :=
    resident_of_isLive hlive
  have hsame : ({ u with frames := [frame] } : Tree).truncate frame.node frame.cursor =
      { u with frames := [frame] } := truncate_eq_self hcursor
  simp only [Tree.finish, complete, hresident, hsame]

namespace Tracks

/-- A child that stands at the cursor has been taken there by its container. -/
theorem check_front (hz : Tracks t above (l :: outer)) (hs : Serializable t)
    (hahead : l.ahead = .node (h, kind) below :: ahead) : l.check kind.text? = .ok () := by
  have hnode := hz.node?_of_mem_ahead (hahead ▸ List.mem_cons_self)
  have hcursor := hz.cursor?
  rw [children_of_node? hz.node?] at hcursor
  obtain ⟨hcontainer, htakes⟩ := hs.admits hz.node? l.passed.length (t.text? h)
    (by rw [List.getElem?_map, hcursor, hahead]; rfl)
  rw [text?_of_node? hnode] at htakes
  simp [Level.check, hcontainer, htakes]

/-- An open keeps the element at the cursor as it is. -/
theorem openElement_front (hz : Tracks t above (l :: outer)) (hs : Serializable t)
    (hahead : l.ahead = .node (h, .element name (some key) attributes) below :: ahead) :
    t.openElement name key attributes = ⟨none, { t with
      frames := ⟨h, 0⟩ :: ⟨l.node, l.passed.length + 1⟩ :: Zipper.frames [l.node] outer }⟩ := by
  have hnode := hz.node?_of_mem_ahead (hahead ▸ List.mem_cons_self)
  have hfound : l.ahead.find? (keyed name key) =
      some (.node (h, .element name (some key) attributes) below) := by
    rw [hahead, List.find?_cons_of_pos (keyed_iff.mpr ⟨attributes, rfl⟩)]
  have hmoved : t.modify l.node (fun n =>
      { n with children := bringForward h l.passed.length n.children }) = t := by
    refine modify_eq_self fun n hn => ?_
    rw [hz.node?, Option.some_inj] at hn
    subst hn
    simp [bringForward, hahead]
  have hcheck : l.check none = .ok () := hz.check_front hs hahead
  have hclaim : t.claim ⟨l.node, l.passed.length⟩ name key = (.ok h, t) := by
    simp only [Tree.claim, hz.check, hcheck, hz.findKeyed?, hfound, Option.map_some,
      Rose.place_node, hmoved]
  have hnames := Zipper.find?_invalidName_eq_none_iff.mpr (hs.named hnode).2
  have hsame : t.replaceAttributes h attributes = t := by
    refine modify_eq_self fun n hn => ?_
    rw [hnode, Option.some_inj] at hn
    subst hn
    rfl
  simp only [Tree.openElement, hz.openFrames_cons, hclaim, hnames, hsame]

/-- A text keeps the text at the cursor as it is. -/
theorem putText_front (hz : Tracks t above (l :: outer)) (hs : Serializable t)
    (hahead : l.ahead = .node (h, .text content) below :: ahead) :
    t.putText content = ⟨none, { t with
      frames := ⟨l.node, l.passed.length + 1⟩ :: Zipper.frames [l.node] outer }⟩ := by
  have hnode := hz.node?_of_mem_ahead (hahead ▸ List.mem_cons_self)
  have htext : t.text? h = some content := text?_of_node? hnode
  have hcheck : l.check (some content) = .ok () := hz.check_front hs hahead
  have hsame : t.modify h (fun n => { n with kind := .text content }) = t := by
    refine modify_eq_self fun n hn => ?_
    rw [hnode, Option.some_inj] at hn
    subst hn
    rfl
  simp only [Tree.putText, hz.openFrames_cons, hz.check, hcheck, hz.cursor?, hahead,
    List.head?_cons, Option.map_some, Rose.place_node, Option.filter_some, htext,
    Option.isSome_some, if_true, hsame]

/-- A close with nothing ahead only leaves the element. -/
theorem closeElement_end {m : Level} (hz : Tracks t above (l :: m :: outer))
    (hahead : l.ahead = []) (hname : ∀ expected, l.kind.name? = some expected → expected = name) :
    t.closeElement name = ⟨none, { t with frames := Zipper.frames [l.node] (m :: outer) }⟩ := by
  have hsame : t.truncate l.node l.passed.length = t := by
    refine truncate_eq_self ?_
    simp [hz.children, hahead]
  have hopen : t.openFrames = ⟨l.node, l.passed.length⟩ ::
    ⟨m.node, m.passed.length + 1⟩ :: Zipper.frames [m.node] outer := hz.openFrames
  simp only [Tree.closeElement, hopen, hz.resident, hz.elementName?, hsame]
  cases hkind : l.kind.name? with
  | none => rfl
  | some expected =>
    simp only [hname expected hkind, if_true]
    rfl

/-- A skip changes nothing but the cursor. -/
theorem skip_eq (hz : Tracks t above (l :: outer)) :
    t.skip = ⟨none, { t with
      frames := ⟨l.node, (l.passed ++ l.ahead).length⟩ :: Zipper.frames [l.node] outer }⟩ := by
  simp only [Tree.skip, hz.openFrames_cons, hz.resident, hz.children, List.length_append,
    List.length_map]

/-- A program that is retraced goes through and changes nothing but the cursor. -/
theorem passes (hz : Tracks t above z) (ht : WellLinked t) (hs : Serializable t)
    (h : Zipper.Retraces program z) : Passes program t := by
  induction h generalizing t with
  | nil hahead =>
    exact passes_nil hz.frames (isLive_of_node? hz.node?) (by simp [hz.children, hahead])
  | openTag hahead _ ih =>
    exact .cons (hz.openElement_front hs hahead)
      (ih (hz.enter hahead) (ht.setFrames _ _) (hs.setFrames _ _))
  | closeTag hahead hname _ ih =>
    have hleft := hz.leave ht
    rw [truncate_eq_self (by simp [hz.children, hahead])] at hleft
    exact .cons (hz.closeElement_end hahead hname) (ih hleft (ht.setFrames _ _) (hs.setFrames _ _))
  | text hahead _ ih =>
    exact .cons (hz.putText_front hs hahead)
      (ih (hz.pass hahead) (ht.setFrames _ _) (hs.setFrames _ _))
  | skip _ ih =>
    have hskip := hz.skip
    rw [Follow, hz.skip_eq] at hskip
    exact .cons hz.skip_eq (ih hskip.2 (ht.setFrames _ _) (hs.setFrames _ _))

end Tracks

/-- A replay that has succeeded is retraced by a second one. -/
theorem apply_apply_of_skipsLast (h : Reachable t) {p : Patch} (hskips : p.skipsLast = true)
    (hok : (p.apply target t).failure = none) :
    p.apply target (p.apply target t).state = ⟨none, (p.apply target t).state⟩ := by
  obtain ⟨s, passed, ahead, hbegin, hmakes, hstored⟩ := apply_makes h hok
  obtain ⟨_, ⟨n, hn, hcontainer⟩, _⟩ := begin_eq_ok_iff.mp hbegin
  have hu := h.apply p target
  have hended : (p.apply target t).state.running = false ∧
      (p.apply target t).state.frames = [] := by
    rw [apply_of_begin hbegin]
    exact ⟨rfl, rfl⟩
  generalize (p.apply target t).state = u at hstored hu hended
  obtain ⟨hidle, hframes⟩ := hended
  have hnode := hstored.look_eq List.mem_cons_self
  have hagain : u.begin target = ⟨none, { u with frames := [⟨target, 0⟩], running := true }⟩ :=
    begin_eq_ok_iff.mpr ⟨hidle, ⟨_, hnode, by rwa [kindOf_of_node? hn]⟩, by rw [hframes]⟩
  obtain ⟨z, hrefilled, hretraces, hplug⟩ :=
    hmakes.runs.exists_retraces (.cons (by simp) .nil) hskips
  cases hrefilled with
  | cons ahead' _ hnil =>
    cases hnil
    have hahead : ahead' = passed := by simpa [Zipper.plug] using hplug
    subst hahead
    have hz : Tracks { u with frames := [⟨target, 0⟩], running := true } (t.parent? target)
        [⟨target, t.kindOf target, [], ahead'⟩] := by
      refine ⟨rfl, rfl, ?_⟩
      change Stored u.node? _
      simpa [Zipper.records, Zipper.up, Rose.records] using hstored
    have hpasses :=
      hz.passes (hu.wellLinked.setFrames _ _) (hu.serializable.setFrames _ _) hretraces
    rw [hpasses.apply_eq hagain, ← hframes, ← hidle]

/-- Programs that are compiled have their skips last. A program that has them last and was
replayed with success can be replayed again into the same target: it succeeds, and the tree
is the same as before, with all its slots, links and free slots. -/
theorem apply_apply_eq_self :
    (∀ {config : Patch.Config} {source : Patch.Source} {p : Patch},
      Patch.compile config source = .ok p → p.skipsLast = true) ∧
    ∀ {t : Tree} {target : Handle} {p : Patch}, Reachable t → p.skipsLast = true →
      (p.apply target t).failure = none →
      p.apply target (p.apply target t).state = ⟨none, (p.apply target t).state⟩ :=
  ⟨fun hcompile => (Patch.accepted_compile hcompile).skipsLast,
    fun h hskips hok => apply_apply_of_skipsLast h hskips hok⟩

/-- A program with an opaque element, a text and one name and key twice, replayed twice into
a root in which the opaque element stands behind another one and has content of its own. -/
theorem apply_apply_opaque :
    let t := Tree.new.run [.begin .root, .perform (.openTag "b" (.explicit "k") []),
      .perform (.closeTag "b"), .perform (.openTag "a" (.explicit "k") [("x", "1")]),
      .perform (.text "kept"), .perform (.openTag "i" (.explicit "m") []),
      .perform (.closeTag "b"), .finish (some .noTransaction)]
    let p : Patch := ⟨[.openTag "a" (.explicit "k") [("keep", "")], .skip, .closeTag "a",
      .text "new", .openTag "a" (.explicit "k") [], .text "more", .closeTag "a"]⟩
    p.skipsLast = true ∧ (p.apply .root t).failure = none ∧
      p.apply .root (p.apply .root t).state = ⟨none, (p.apply .root t).state⟩ := by
  refine ⟨by decide, by decide, apply_apply_eq_self.2 (Reachable.new.run _) ?_ ?_⟩
  · decide
  · decide

end Tree

end LiveMarkup.Live
