import LiveMarkup.Proofs.Live.Serializable
import LiveMarkup.Proofs.Live.Confined

/-!
# Elements with keys

An element that is built by hand has no key until one is set. All other calls make keyed elements
only, and no call takes a key away, so the elements that a replay adds to a tree all have keys
(`Reachable.keyed_of_apply`), whatever the tree was before.
-/

namespace LiveMarkup.Live

open Patch (Outcome)

/-- What has a key if it is an element. -/
def Kind.Keyed : Kind → Prop
  | .element _ key _ => key.isSome = true
  | _ => True

namespace Tree

variable {t u v : Tree}

/-- Of the nodes of the second tree, those without a key are in the first tree, and have none
there. -/
def AddsKeyed (t u : Tree) : Prop :=
  ∀ h m, u.node? h = some m → ¬ m.kind.Keyed → ∃ n, t.node? h = some n ∧ ¬ n.kind.Keyed

namespace AddsKeyed

theorem refl (t : Tree) : AddsKeyed t t := fun _ m hm hkey => ⟨m, hm, hkey⟩

theorem trans (h : AddsKeyed t u) (h' : AddsKeyed u v) : AddsKeyed t v := by
  intro x m hm hkey
  obtain ⟨n, hn, hkey⟩ := h' x m hm hkey
  exact h x n hn hkey

theorem setFrames (h : AddsKeyed t u) (frames : List Frame) (running : Bool) :
    AddsKeyed t { u with frames := frames, running := running } := h

/-- A node may change in all but its key. -/
theorem modify {h : Handle} {f : Node → Node}
    (hf : ∀ n, t.node? h = some n → n.kind.Keyed → (f n).kind.Keyed) :
    AddsKeyed t (t.modify h f) := by
  intro x m hm hkey
  rw [node?_modify] at hm
  split at hm
  · next hx =>
    subst hx
    obtain ⟨n, hn, rfl⟩ := Option.map_eq_some_iff.mp hm
    exact ⟨n, hn, fun hn' => hkey (hf n hn hn')⟩
  · exact ⟨m, hm, hkey⟩

theorem allocate (ht : WellLinked t) {kind : Kind} (hkind : kind.Keyed) :
    AddsKeyed t (t.allocate kind).2 := by
  intro x m hm hkey
  rw [ht.node?_allocate] at hm
  split at hm
  · cases hm
    exact absurd hkind hkey
  · exact ⟨m, hm, hkey⟩

/-- A node may get other links. -/
theorem relink {h : Handle} {f : Node → Node} (hf : ∀ n, (f n).kind = n.kind) :
    AddsKeyed t (t.modify h f) :=
  modify fun n _ hkey => (hf n).symm ▸ hkey

theorem link (p : Handle) (index : Nat) (c : Handle) : AddsKeyed t (t.link p index c) := by
  refine trans (relink ?_) (relink ?_)
  · exact fun _ => rfl
  · exact fun _ => rfl

theorem detach (c : Handle) : AddsKeyed t (t.detach c) := by
  unfold Tree.detach
  split
  · exact refl t
  · refine trans (relink ?_) (relink ?_)
    · exact fun _ => rfl
    · exact fun _ => rfl

theorem truncate (ht : WellLinked t) (h : Handle) (start : Nat) :
    AddsKeyed t (t.truncate h start) := by
  classical
  intro x m hm hkey
  rw [node?_truncate ht] at hm
  split at hm
  · cases hm
  · split at hm
    · next hx =>
      subst hx
      obtain ⟨n, hn, rfl⟩ := Option.map_eq_some_iff.mp hm
      exact ⟨n, hn, hkey⟩
    · exact ⟨m, hm, hkey⟩

theorem claim (ht : WellLinked t) {frame : Frame} {name key : String} {h : Handle}
    (hcall : t.claim frame name key = (.ok h, u)) : AddsKeyed t u := by
  obtain ⟨-, ⟨-, rfl⟩ | ⟨-, -, -, -, rfl⟩⟩ := claim_cases hcall
  · exact relink fun _ => rfl
  · have hkeyed : (Kind.element name (some key) []).Keyed := rfl
    exact (allocate ht hkeyed).trans (link _ _ _)

theorem replaceAttributes (h : Handle) (attributes : List (String × String)) :
    AddsKeyed t (t.replaceAttributes h attributes) := by
  refine modify fun n _ hkey => ?_
  cases hkind : n.kind with
  | element name key attributes' => rwa [hkind] at hkey
  | root => rwa [hkind] at hkey ⊢
  | text content => rwa [hkind] at hkey ⊢

/-- Only building an element by hand makes one without a key. -/
theorem called (ht : WellLinked t) {c : Call} (hc : ∀ name, c ≠ .createElement name)
    (h : Called t c u) : AddsKeyed t u := by
  cases h with
  | refused => exact refl t
  | createElement _ => exact absurd rfl (hc _)
  | createText => exact allocate ht trivial
  | appendChild => exact (detach _).trans (link _ _ _)
  | setAttribute hn hkind _ =>
    refine modify fun m hm hkey => ?_
    cases hn.symm.trans hm
    rwa [hkind] at hkey
  | setKey =>
    refine modify fun _ _ _ => ?_
    exact rfl
  | begin => exact refl t
  | claim _ hclaim => exact claim ht hclaim
  | openElement _ hclaim _ => exact ((claim ht hclaim).trans (replaceAttributes _ _)).setFrames _ _
  | closeElement => exact (truncate ht _ _).setFrames _ _
  | @rewrite frame outer content found _ _ _ =>
    refine setFrames (modify (f := fun n => { n with kind := .text content }) ?_) _ _
    exact fun _ _ _ => trivial
  | @insertText _ _ content =>
    have hkeyed : (Kind.text content).Keyed := trivial
    exact ((allocate ht hkeyed).trans (link _ _ _)).setFrames _ _
  | skip => exact refl t
  | abandon => exact refl t
  | complete => exact (truncate ht _ _).setFrames _ _

theorem call (ht : WellLinked t) {c : Call} (hc : ∀ name, c ≠ .createElement name) :
    AddsKeyed t (t.call c).state :=
  called ht hc (Tree.called t c)

theorem run (ht : WellLinked t) {calls : List Call}
    (hcalls : ∀ c ∈ calls, ∀ name, c ≠ .createElement name) : AddsKeyed t (t.run calls) := by
  induction calls generalizing t with
  | nil => exact refl t
  | cons c rest ih =>
    obtain ⟨hc, hrest⟩ := List.forall_mem_cons.mp hcalls
    exact (call ht hc).trans (ih (ht.call c) hrest)

theorem apply (h : Reachable t) (p : Patch) (target : Handle) :
    AddsKeyed t (p.apply target t).state := by
  obtain ⟨u, hbegin⟩ | ⟨e, hbegin⟩ := begin_cases t target
  · rw [apply_of_begin hbegin]
    obtain ⟨body, -, hrun, -⟩ := exists_prefix_of_replay u p.instructions
    rw [hrun]
    have hu := h.begin hbegin
    have hbody : AddsKeyed u (u.run (body.map .perform)) := by
      refine run hu.wellLinked fun c hc => ?_
      obtain ⟨i, -, rfl⟩ := List.mem_map.mp hc
      exact nofun
    have hopen : AddsKeyed t u := (begin_eq_ok_iff.mp hbegin).2.2 ▸ (refl t).setFrames _ _
    exact (hopen.trans hbody).trans
      (call (c := .finish _) (hu.run (body.map .perform)).wellLinked nofun)
  · rw [apply_of_begin_error hbegin]
    exact refl t

end AddsKeyed

/-- An element that a replay makes has a key. -/
theorem Reachable.keyed_of_apply (h : Reachable t) {p : Patch} {target x : Handle} {n : Node}
    (hn : (p.apply target t).state.node? x = some n) (hnew : t.isLive x = false) :
    n.kind.Keyed := by
  by_contra hkey
  obtain ⟨m, hm, -⟩ := AddsKeyed.apply h p target x n hn hkey
  rw [isLive_of_node? hm] at hnew
  cases hnew

end Tree

end LiveMarkup.Live
