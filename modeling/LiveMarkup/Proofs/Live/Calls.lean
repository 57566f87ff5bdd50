import LiveMarkup.Live.Run
import LiveMarkup.Proofs.Live.Lookup

/-!
# What a call can do

A call checks what it depends on before it changes the tree, so each call comes down to a few
cases: it is refused without effect, or its checks have gone through and one of the single changes
is made (`Called`). What calls keep is proved case by case from here, without opening a call again.
-/

namespace LiveMarkup.Live.Tree

open Patch (Outcome)

variable {t u : Tree}

theorem check_eq_ok_iff {p : Handle} {index : Nat} {child : Option String} :
    t.check p index child = .ok () ↔
      ∃ n, t.node? p = some n ∧ n.kind.isContainer = true ∧ n.kind.takes index child = true := by
  rw [check]
  cases t.node? p with
  | none => simp
  | some n =>
    cases hcontainer : n.kind.isContainer with
    | false => simp [hcontainer]
    | true =>
      cases htakes : n.kind.takes index child with
      | false => simp [hcontainer, htakes]
      | true => simp [hcontainer, htakes]

/-- What a check refuses a child for. -/
theorem check_error_cases {p : Handle} {index : Nat} {child : Option String} {e : Error}
    (h : t.check p index child = .error e) :
    e = .unknownNode p ∨ e = .notContainer p ∨ e = .rawTextContent p := by
  simp only [check] at h
  split at h
  · exact .inl (Except.error.inj h).symm
  · split at h
    · exact .inr (.inl (Except.error.inj h).symm)
    · split at h
      · cases h
      · exact .inr (.inr (Except.error.inj h).symm)

theorem isLive_of_check {p : Handle} {index : Nat} {child : Option String}
    (h : t.check p index child = .ok ()) : t.isLive p = true := by
  obtain ⟨n, hn, _⟩ := check_eq_ok_iff.mp h
  exact isLive_of_node? hn

/-- What a claim does: the element is there already, below the open container, or it is new. -/
theorem claim_cases {frame : Frame} {name key : String} {h : Handle}
    (hcall : t.claim frame name key = (.ok h, u)) :
    t.check frame.node frame.cursor none = .ok () ∧
      ((t.findKeyed? name key ((t.children frame.node).drop frame.cursor) = some h ∧
        u = t.modify frame.node fun n =>
          { n with children := bringForward h frame.cursor n.children }) ∨
      (t.findKeyed? name key ((t.children frame.node).drop frame.cursor) = none ∧
        Markup.isTagName name = true ∧ frame.cursor ≤ (t.children frame.node).length ∧
        h = t.fresh ∧ u = (t.allocate (.element name (some key) [])).2.link frame.node
          frame.cursor t.fresh)) := by
  simp only [claim] at hcall
  split at hcall
  · cases hcall
  · next hcheck =>
    refine ⟨hcheck, ?_⟩
    split at hcall
    · next found hfound =>
      cases hcall
      exact .inl ⟨hfound, rfl⟩
    · next hnone =>
      split at hcall
      · cases hcall
      · next hname =>
        split at hcall
        · cases hcall
        · next hcursor =>
          simp only [allocate_fst] at hcall
          cases hcall
          exact .inr ⟨hnone, by simpa using hname, Nat.le_of_not_lt hcursor, rfl, rfl⟩

/-- What a claim is refused for: its container, the name, or a cursor beyond the children. It
has not changed anything then. -/
theorem claim_error_cases {frame : Frame} {name key : String} {e : Error}
    (h : t.claim frame name key = (.error e, u)) :
    u = t ∧ (t.check frame.node frame.cursor none = .error e ∨
      (Markup.isTagName name = false ∧ e = .invalidName name) ∨
      (t.check frame.node frame.cursor none = .ok () ∧ e = .gap frame.node ∧
        (t.children frame.node).length < frame.cursor)) := by
  simp only [claim] at h
  split at h
  · next hcheck =>
    cases h
    exact ⟨rfl, .inl hcheck⟩
  · next hcheck =>
    split at h
    · cases h
    · split at h
      · next hname =>
        cases h
        exact ⟨rfl, .inr (.inl ⟨by simpa using hname, rfl⟩)⟩
      · split at h
        · next hcursor =>
          cases h
          exact ⟨rfl, .inr (.inr ⟨hcheck, rfl, hcursor⟩)⟩
        · cases h

/-- A found element is one of the children that are still to come. -/
theorem mem_of_findKeyed? {name key : String} {rest : List Handle} {h : Handle}
    (hfound : t.findKeyed? name key rest = some h) :
    h ∈ rest ∧ t.elementName? h = some name ∧ t.key? h = some key := by
  have hkeyed := List.find?_some hfound
  simp only [isKeyed, Bool.and_eq_true, decide_eq_true_eq] at hkeyed
  exact ⟨List.mem_of_find?_eq_some hfound, hkeyed⟩

theorem openFrames_eq_cons_iff {frame : Frame} {outer : List Frame} :
    t.openFrames = frame :: outer ↔ t.running = true ∧ t.frames = frame :: outer := by
  rw [openFrames]
  split
  · next hrunning => simp [hrunning]
  · next hidle => simp [hidle]

theorem begin_eq_ok_iff {target : Handle} : t.begin target = ⟨none, u⟩ ↔
    t.running = false ∧ (∃ n, t.node? target = some n ∧ n.kind.isContainer = true) ∧
      u = { t with frames := ⟨target, 0⟩ :: t.frames, running := true } := by
  rw [begin]
  cases hrunning : t.running with
  | true => simp
  | false =>
    cases hn : t.node? target with
    | none => simp
    | some n =>
      cases hcontainer : n.kind.isContainer with
      | false => simp [hcontainer]
      | true =>
        simp only [Bool.false_eq_true, if_false, hcontainer, if_true, Outcome.mk.injEq,
          Option.some_inj, exists_eq_left', true_and]
        exact eq_comm

/-- A transaction is refused before anything is changed. -/
theorem begin_error_state {target : Handle} {e : Error} (h : t.begin target = ⟨some e, u⟩) :
    u = t := by
  rw [begin] at h
  split at h
  · cases h
    rfl
  · split at h
    · cases h
      rfl
    · split at h
      · cases h
      · cases h
        rfl

/-- A transaction begins, or it is refused and nothing is changed. -/
theorem begin_cases (t : Tree) (target : Handle) :
    (∃ u, t.begin target = ⟨none, u⟩) ∨ ∃ e, t.begin target = ⟨some e, t⟩ := by
  rcases hbegin : t.begin target with ⟨refusal, u⟩
  cases refusal with
  | none => exact .inl ⟨u, rfl⟩
  | some e =>
    obtain rfl := begin_error_state hbegin
    exact .inr ⟨e, rfl⟩

/-- The trees that a call can leave of a tree, with the checks that it has made. -/
inductive Called (t : Tree) : Call → Tree → Prop where
  | refused (c : Call) : Called t c t
  | createElement {name : String} : Markup.isTagName (Markup.lowerName name) = true →
    Called t (.createElement name) (t.allocate (.element (Markup.lowerName name) none [])).2
  | createText (content : String) :
    Called t (.createText content) (t.allocate (.text content)).2
  | appendChild {parent child : Handle} {above below : Node} :
    t.node? parent = some above → t.node? child = some below →
    t.check parent (above.children.filter (· ≠ child)).length below.kind.text? = .ok () →
    child ≠ .root → child ≠ parent → child ∉ t.ancestors parent →
    Called t (.appendChild parent child)
      ((t.detach child).link parent ((t.detach child).children parent).length child)
  | setAttribute {h : Handle} {name value tag : String} {key : Option String}
      {attributes : List (String × String)} {n : Node} :
    t.node? h = some n → n.kind = .element tag key attributes →
    Markup.isAttributeName (Markup.lowerName name) = true →
    Called t (.setAttribute h name value) (t.modify h fun n => { n with
      kind := .element tag key (putAttribute (Markup.lowerName name) value attributes) })
  | setKey {h : Handle} {key tag : String} {old : Option String}
      {attributes : List (String × String)} {n : Node} :
    t.node? h = some n → n.kind = .element tag old attributes →
    Called t (.setKey h key)
      (t.modify h fun n => { n with kind := .element tag (some key) attributes })
  | begin {target : Handle} {n : Node} : t.running = false →
    t.node? target = some n → n.kind.isContainer = true →
    Called t (.begin target) { t with frames := ⟨target, 0⟩ :: t.frames, running := true }
  /-- The attributes of an open are refused when it has its element already. -/
  | claim {frame : Frame} {outer : List Frame} {name : String} {key : Patch.Key}
      {attributes : List (String × String)} {element : Handle} {u : Tree} :
    t.frames = frame :: outer → t.claim frame name key.value = (.ok element, u) →
    Called t (.perform (.openTag name key attributes)) u
  | openElement {frame : Frame} {outer : List Frame} {name : String} {key : Patch.Key}
      {attributes : List (String × String)} {element : Handle} {u : Tree} :
    t.frames = frame :: outer → t.claim frame name key.value = (.ok element, u) →
    (∀ a ∈ attributes, Markup.isAttributeName a.1 = true) →
    Called t (.perform (.openTag name key attributes))
      { u.replaceAttributes element attributes with
        frames := ⟨element, 0⟩ :: { frame with cursor := frame.cursor + 1 } :: outer }
  | closeElement {frame : Frame} {outer : List Frame} {name : String} :
    t.frames = frame :: outer → outer ≠ [] →
    Called t (.perform (.closeTag name))
      { t.truncate (t.resident frame.node.slot) frame.cursor with frames := outer }
  | rewrite {frame : Frame} {outer : List Frame} {content : String} {found : Handle} :
    t.frames = frame :: outer → t.check frame.node frame.cursor (some content) = .ok () →
    (t.children frame.node)[frame.cursor]?.filter (fun h => (t.text? h).isSome) = some found →
    Called t (.perform (.text content))
      { t.modify found fun n => { n with kind := .text content } with
        frames := { frame with cursor := frame.cursor + 1 } :: outer }
  | insertText {frame : Frame} {outer : List Frame} {content : String} :
    t.frames = frame :: outer → t.check frame.node frame.cursor (some content) = .ok () →
    (t.children frame.node)[frame.cursor]?.filter (fun h => (t.text? h).isSome) = none →
    frame.cursor ≤ (t.children frame.node).length →
    Called t (.perform (.text content))
      { (t.allocate (.text content)).2.link frame.node frame.cursor t.fresh with
        frames := { frame with cursor := frame.cursor + 1 } :: outer }
  | skip {frame : Frame} {outer : List Frame} (cursor : Nat) : t.frames = frame :: outer →
    Called t (.perform .skip) { t with frames := { frame with cursor := cursor } :: outer }
  | abandon (raised : Option Error) :
    Called t (.finish raised) { t with frames := [], running := false }
  | complete {frame : Frame} : t.frames = [frame] →
    Called t (.finish none)
      { t.truncate (t.resident frame.node.slot) frame.cursor with
        frames := [], running := false }

theorem called_createElement (t : Tree) (name : String) :
    Called t (.createElement name) (t.call (.createElement name)).state := by
  simp only [Tree.call, Tree.createElement]
  split
  · next hcreated =>
    split at hcreated
    · next hname =>
      cases hcreated
      exact .createElement hname
    · cases hcreated
  · next hrefused =>
    split at hrefused
    · cases hrefused
    · cases hrefused
      exact .refused _

theorem called_appendChild (t : Tree) (parent child : Handle) :
    Called t (.appendChild parent child) (t.appendChild parent child).state := by
  simp only [Tree.appendChild]
  split
  · exact .refused _
  · exact .refused _
  · next above below hp hc =>
    split
    · exact .refused _
    · next hcheck =>
      split
      · exact .refused _
      · next hcycle =>
        obtain ⟨hroot, hcycle⟩ := not_or.mp hcycle
        obtain ⟨hne, habove⟩ := not_or.mp hcycle
        exact .appendChild hp hc hcheck hroot hne habove

theorem called_setAttribute (t : Tree) (h : Handle) (name value : String) :
    Called t (.setAttribute h name value) (t.setAttribute h name value).state := by
  simp only [Tree.setAttribute]
  split
  · exact .refused _
  · next n hn =>
    split
    · exact .refused _
    · next hname =>
      split
      · next hkind => exact .setAttribute hn hkind (by simpa using hname)
      · exact .refused _

theorem called_setKey (t : Tree) (h : Handle) (key : String) :
    Called t (.setKey h key) (t.setKey h key).state := by
  simp only [Tree.setKey]
  split
  · exact .refused _
  · next n hn =>
    split
    · next hkind => exact .setKey hn hkind
    · exact .refused _

theorem called_begin (t : Tree) (target : Handle) :
    Called t (.begin target) (t.begin target).state := by
  simp only [Tree.begin]
  split
  · exact .refused _
  · next hidle =>
    split
    · exact .refused _
    · next n hn =>
      split
      · next hcontainer => exact .begin (by simpa using hidle) hn hcontainer
      · exact .refused _

theorem called_openElement (t : Tree) (name : String) (key : Patch.Key)
    (attributes : List (String × String)) :
    Called t (.perform (.openTag name key attributes))
      (t.openElement name key.value attributes).state := by
  simp only [Tree.openElement]
  split
  · exact .refused _
  · next hopen =>
    obtain ⟨-, hframes⟩ := openFrames_eq_cons_iff.mp hopen
    split
    · next hclaim =>
      obtain ⟨rfl, -⟩ := claim_error_cases hclaim
      exact .refused _
    · next hclaim =>
      split
      · exact .claim hframes hclaim
      · next hnames =>
        refine .openElement hframes hclaim fun a ha => ?_
        simpa using List.find?_eq_none.mp hnames a ha

theorem called_closeElement (t : Tree) (name : String) :
    Called t (.perform (.closeTag name)) (t.closeElement name).state := by
  simp only [Tree.closeElement]
  split
  · exact .refused _
  · exact .refused _
  · next outer hinner hopen =>
    obtain ⟨-, hframes⟩ := openFrames_eq_cons_iff.mp hopen
    have houter : outer ≠ [] := fun hnil => hinner (hnil ▸ rfl)
    split
    · split
      · exact .closeElement hframes houter
      · exact .refused _
    · exact .closeElement hframes houter

theorem called_putText (t : Tree) (content : String) :
    Called t (.perform (.text content)) (t.putText content).state := by
  simp only [Tree.putText]
  split
  · exact .refused _
  · next hopen =>
    obtain ⟨-, hframes⟩ := openFrames_eq_cons_iff.mp hopen
    split
    · exact .refused _
    · next hcheck =>
      split
      · next hfound => exact .rewrite hframes hcheck hfound
      · next hnone =>
        split
        · exact .refused _
        · next hcursor =>
          simp only [allocate_fst]
          exact .insertText hframes hcheck hnone (Nat.le_of_not_lt hcursor)

theorem called_skip (t : Tree) : Called t (.perform .skip) t.skip.state := by
  simp only [Tree.skip]
  split
  · exact .refused _
  · next hopen => exact .skip _ (openFrames_eq_cons_iff.mp hopen).2

theorem called_finish (t : Tree) (raised : Option Error) :
    Called t (.finish raised) (t.finish raised).state := by
  simp only [Tree.finish, Tree.complete]
  split
  · exact .abandon _
  · split
    · exact .abandon _
    · next hframes => exact .complete hframes
    · exact .abandon _

/-- What a call leaves of a tree is what it can leave. -/
theorem called (t : Tree) (c : Call) : Called t c (t.call c).state := by
  cases c with
  | createElement name => exact called_createElement t name
  | createText content => exact .createText content
  | appendChild parent child => exact called_appendChild t parent child
  | setAttribute h name value => exact called_setAttribute t h name value
  | setKey h key => exact called_setKey t h key
  | begin target => exact called_begin t target
  | perform instruction =>
    cases instruction with
    | openTag name key attributes => exact called_openElement t name key attributes
    | closeTag name => exact called_closeElement t name
    | text content => exact called_putText t content
    | skip => exact called_skip t
  | finish raised => exact called_finish t raised

end LiveMarkup.Live.Tree
