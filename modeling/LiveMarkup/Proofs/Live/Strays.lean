import LiveMarkup.Proofs.Live.Frames
import LiveMarkup.Proofs.Live.Retrace

/-!
# Bodies that restructure the tree

A body may call for more than instructions, and what it moves can leave a frame behind: a
cursor that stands beyond the children (`Overrun`), or a frame whose container was removed. A
close, a skip and the end of a transaction take the slot of a frame for its container. While
the slot is empty they find nothing there, but a newer node in the slot is taken for the
container (`Evicted`).

These are the only two ways for a transaction to stray, and a body gets into neither as long as
it takes no child out of an open container (`Reachable.minds_body`).
-/

namespace LiveMarkup.Live.Tree

open Patch (Outcome)

variable {t : Tree} {a : Handle} {f : Frame} {outer : List Frame}

instance decidableSpares (t : Tree) : (c : Call) → Decidable (t.Spares c)
  | .appendChild _ child =>
    inferInstanceAs (Decidable (∀ f ∈ t.frames, t.parent? child ≠ some f.node))
  | .finish _ => inferInstanceAs (Decidable False)
  | .createElement _ | .createText _ | .setAttribute .. | .setKey .. | .begin _ | .perform _ =>
    inferInstanceAs (Decidable True)

instance decidableSpared : (t : Tree) → (body : List Call) → Decidable (t.Spared body)
  | _, [] => inferInstanceAs (Decidable True)
  | t, c :: rest =>
    have := decidableSpared (t.call c).state rest
    inferInstanceAs (Decidable (t.Spares c ∧ (t.call c).state.Spared rest))

/-- The container of a frame is gone, and its slot has a newer node. -/
def Evicted (t : Tree) (f : Frame) : Prop :=
  t.isLive f.node = false ∧ t.isLive (t.resident f.node.slot) = true

/-- A close, a skip and the end of the transaction ask for the innermost container by its
handle and change no other node. When the container is gone they change no node at all. -/
structure Minds (t : Tree) (f : Frame) (outer : List Frame) : Prop where
  close : outer ≠ [] → ∀ name, t.closeElement name =
    match t.elementName? f.node with
    | some expected =>
      if expected = name then ⟨none, { t.truncate f.node f.cursor with frames := outer }⟩
      else ⟨some (.tagMismatch expected name), t⟩
    | none => ⟨none, { t.truncate f.node f.cursor with frames := outer }⟩
  skip : t.skip =
    ⟨none, { t with frames := ⟨f.node, (t.children f.node).length⟩ :: outer }⟩
  complete : outer = [] → t.complete = ⟨none, t.truncate f.node f.cursor⟩
  unclosed : outer ≠ [] → t.complete =
    ⟨some (.unclosedElement ((t.elementName? f.node).getD "#root")), t⟩
  gone : t.isLive f.node = false → t.truncate f.node f.cursor = t

theorem node?_of_isLive_eq_false {h : Handle} (hdead : t.isLive h = false) : t.node? h = none := by
  simpa [Tree.isLive] using hdead

/-- Nothing is below a handle without a node. -/
theorem truncate_of_isLive_eq_false {h : Handle} (hdead : t.isLive h = false) (start : Nat) :
    t.truncate h start = t :=
  truncate_eq_self (by simp [children, node?_of_isLive_eq_false hdead])

/-- A slot that is not the container's is empty, so looking there is like looking for the
container. -/
theorem look_resident_of_not_evicted (hf : ¬ t.Evicted f) :
    t.elementName? (t.resident f.node.slot) = t.elementName? f.node ∧
      t.children (t.resident f.node.slot) = t.children f.node ∧
      ∀ start, t.truncate (t.resident f.node.slot) start = t.truncate f.node start := by
  cases hlive : t.isLive f.node with
  | true => simp [resident_of_isLive hlive]
  | false =>
    have hempty : t.isLive (t.resident f.node.slot) = false := by
      by_contra hslot
      exact hf ⟨hlive, by simpa using hslot⟩
    refine ⟨?_, ?_, fun start => ?_⟩
    · simp [elementName?, node?_of_isLive_eq_false hlive, node?_of_isLive_eq_false hempty]
    · simp [children, node?_of_isLive_eq_false hlive, node?_of_isLive_eq_false hempty]
    · rw [truncate_of_isLive_eq_false hlive, truncate_of_isLive_eq_false hempty]

theorem minds_of_not_evicted (hopen : t.openFrames = f :: outer) (hf : ¬ t.Evicted f) :
    Minds t f outer := by
  obtain ⟨-, hframes⟩ := openFrames_eq_cons_iff.mp hopen
  obtain ⟨hname, hchildren, htruncate⟩ := look_resident_of_not_evicted hf
  refine ⟨?_, ?_, ?_, ?_, fun hdead => truncate_of_isLive_eq_false hdead _⟩
  · intro houter name
    obtain ⟨g, rest, rfl⟩ := List.exists_cons_of_ne_nil houter
    cases hexpected : t.elementName? f.node with
    | none => simp only [closeElement, hopen, hname, htruncate, hexpected]
    | some expected => simp only [closeElement, hopen, hname, htruncate, hexpected]
  · simp only [skip, hopen, hchildren]
  · rintro rfl
    simp only [complete, hframes, htruncate]
  · intro houter
    obtain ⟨g, rest, rfl⟩ := List.exists_cons_of_ne_nil houter
    simp only [complete, hframes, hname]

/-- Whatever the body of a transaction has called for: an instruction leaves a gap only where
the cursor of the innermost frame has been overrun, and the frame is minded unless it is
evicted. If the body has never taken a child out of an open container, neither has come about
in any frame. -/
theorem Reachable.minds_body (h : Reachable t) (hidle : t.running = false)
    (htarget : ∃ n, t.node? a = some n ∧ n.kind.isContainer = true) (body : List Call) :
    let u := t.run (.begin a :: body)
    (∀ f outer, u.frames = f :: outer →
      (¬ u.Overrun f → ∀ i x, (u.perform i).failure ≠ some (.gap x)) ∧
      (¬ u.Evicted f → Minds u f outer)) ∧
    ((t.call (.begin a)).state.Spared body →
      (∃ f outer, u.frames = f :: outer) ∧ ∀ f ∈ u.frames, ¬ u.Overrun f ∧ ¬ u.Evicted f) := by
  have hu : Reachable (t.run (.begin a :: body)) := h.run _
  refine ⟨fun f outer hframes => ⟨fun hcursor i x hgap => ?_,
    minds_of_not_evicted (hu.openFrames_eq.trans hframes)⟩, fun hbody => ?_⟩
  · obtain ⟨g, rest, hgap, _, hover⟩ := overrun_of_gap hgap
    rw [hframes, List.cons.injEq] at hgap
    exact hcursor (hgap.1 ▸ hover)
  · have hf : Framed (t.run (.begin a :: body)) a :=
      (framed_begin h hidle htarget).run (h.call (.begin a)) hbody
    refine ⟨?_, fun f hmem => ⟨hf.not_overrun hmem, fun hgone => ?_⟩⟩
    · refine List.exists_cons_of_ne_nil fun hempty => ?_
      have hbottom := hf.bottom
      simp [hempty] at hbottom
    · exact absurd (hf.isLive f hmem) (by simp [hgone.1])

/-- The body opens an element, puts a text of its own into it, moves the target to another
parent, makes an element inside and gives it an attribute. -/
theorem minds_body_moved_target :
    let t := Tree.new.run [.createElement "ul", .createElement "div", .appendChild .root ⟨1, 0⟩,
      .appendChild .root ⟨2, 0⟩]
    let body : List Call :=
      [.perform (.openTag "li" (.explicit "k") []), .createText "x",
        .appendChild ⟨3, 0⟩ ⟨4, 0⟩, .appendChild ⟨2, 0⟩ ⟨1, 0⟩, .perform (.text "y"),
        .perform (.openTag "b" (.explicit "k") []), .setAttribute ⟨5, 0⟩ "Title" "z"]
    let u := t.run (.begin ⟨1, 0⟩ :: body)
    (t.call (.begin ⟨1, 0⟩)).state.Spared body ∧
      u.frames = [⟨⟨5, 0⟩, 0⟩, ⟨⟨3, 0⟩, 2⟩, ⟨⟨1, 0⟩, 1⟩] ∧
      ∀ f ∈ u.frames, ¬ u.Overrun f ∧ ¬ u.Evicted f := by
  refine ⟨by decide, by decide, ?_⟩
  refine ((Reachable.minds_body (Reachable.new.run _) (by decide) ?_ _).2 (by decide)).2
  exact ⟨⟨.element "ul" none [], some .root, []⟩, by decide, by decide⟩

/-- Two open elements change places, so that the close of one removes the other. A newer node
gets its slot, and the next close takes away a child of that node. And where the only child
that was passed is taken away, a text leaves a gap. -/
theorem strays_after_moves :
    let t := Tree.new.run [.begin .root, .perform (.openTag "a" (.explicit "k") []),
      .perform (.openTag "b" (.explicit "k") []), .appendChild .root ⟨2, 0⟩,
      .appendChild ⟨2, 0⟩ ⟨1, 0⟩, .perform (.closeTag "b"), .createElement "a",
      .createText "x", .createText "y", .appendChild ⟨1, 1⟩ ⟨3, 0⟩, .appendChild ⟨1, 1⟩ ⟨4, 0⟩]
    let u := Tree.new.run [.begin .root, .perform (.openTag "a" (.explicit "k") []),
      .perform (.closeTag "a"), .createElement "b", .appendChild ⟨2, 0⟩ ⟨1, 0⟩]
    (t.frames = [⟨⟨1, 0⟩, 1⟩, ⟨.root, 1⟩] ∧ t.Evicted ⟨⟨1, 0⟩, 1⟩ ∧
      t.children ⟨1, 1⟩ = [⟨3, 0⟩, ⟨4, 0⟩] ∧ (t.closeElement "a").failure = none ∧
      (t.closeElement "a").state.children ⟨1, 1⟩ = [⟨3, 0⟩] ∧
      (t.closeElement "a").state.isLive ⟨4, 0⟩ = false) ∧
    (u.frames = [⟨.root, 1⟩] ∧ u.Overrun ⟨.root, 1⟩ ∧
      (u.perform (.text "x")).failure = some (.gap .root)) := by
  refine ⟨⟨by decide, ⟨by decide, by decide⟩, by decide, by decide, by decide, by decide⟩,
    by decide, ⟨by decide, by decide⟩, by decide⟩

end LiveMarkup.Live.Tree
