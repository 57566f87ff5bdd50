import LiveMarkup.Proofs.Live.Serializable

/-!
# What a refused call leaves behind

Calls check before they change, so a call that is refused leaves the tree as it was. There is
one exception. An open looks at the names of its attributes last, when it has claimed its
element already, and a transaction may go on from there. `Claims` says what the claim alone
does: the element is at the cursor already, or is brought there from further on, or is made
there, and nothing else happens.
-/

namespace LiveMarkup.Live.Tree

open Patch (Outcome)

variable {t u : Tree} {f : Frame} {outer : List Frame} {name key bad : String}
  {attributes : List (String × String)} {element : Handle}

/-- What claiming an element for an open does to a tree, and nothing more. The element stands
at the cursor in the end. -/
inductive Claims (t : Tree) (f : Frame) (name key : String) : Handle → Tree → Prop
  /-- The child at the cursor has the name and the key. -/
  | current {element : Handle} {later : List Handle} :
    (t.children f.node).drop f.cursor = element :: later → t.isKeyed name key element = true →
    Claims t f name key element t
  /-- The first of the later children that has them changes its place. -/
  | moved {element : Handle} {skipped later : List Handle} :
    (t.children f.node).drop f.cursor = skipped ++ element :: later → skipped ≠ [] →
    (∀ x ∈ skipped, t.isKeyed name key x = false) → t.isKeyed name key element = true →
    Claims t f name key element (t.modify f.node fun n => { n with
      children := (t.children f.node).take f.cursor ++ element :: (skipped ++ later) })
  /-- There is none, and a new element is put before the child at the cursor. -/
  | made : (∀ x ∈ (t.children f.node).drop f.cursor, t.isKeyed name key x = false) →
    f.cursor ≤ (t.children f.node).length →
    Claims t f name key t.fresh
      ((t.allocate (.element name (some key) [])).2.link f.node f.cursor t.fresh)

theorem bringForward_of_drop {children skipped later : List Handle} {cursor : Nat}
    (hdrop : children.drop cursor = skipped ++ element :: later) (hfirst : element ∉ skipped) :
    bringForward element cursor children =
      children.take cursor ++ element :: (skipped ++ later) := by
  rw [bringForward, hdrop, List.erase_append_right _ hfirst, List.erase_cons_head]

/-- A claim does what it is to do. -/
theorem claims_of_claim (hclaim : t.claim f name key = (.ok element, u)) :
    Claims t f name key element u := by
  obtain ⟨_, ⟨hfound, rfl⟩ | ⟨hnone, _, hcursor, rfl, rfl⟩⟩ := claim_cases hclaim
  · obtain ⟨hkeyed, skipped, later, hdrop, hskipped⟩ := List.find?_eq_some_iff_append.mp hfound
    have hskipped : ∀ x ∈ skipped, t.isKeyed name key x = false := by simpa using hskipped
    have hfirst : element ∉ skipped := by
      intro hmem
      simp [hskipped element hmem] at hkeyed
    have hbrought := bringForward_of_drop hdrop hfirst
    have hmodify : (t.modify f.node fun n =>
        { n with children := bringForward element f.cursor n.children }) =
          t.modify f.node fun n => { n with
            children := (t.children f.node).take f.cursor ++ element :: (skipped ++ later) } :=
      modify_congr fun n hn => by rw [← hbrought, children_of_node? hn]
    rw [hmodify]
    by_cases hempty : skipped = []
    · -- Nothing was skipped, so the list is the one that was there.
      have hsame : (t.children f.node).take f.cursor ++ element :: (skipped ++ later) =
          t.children f.node := by
        simpa [hempty, hdrop] using List.take_append_drop f.cursor (t.children f.node)
      have hid : (t.modify f.node fun n => { n with
          children := (t.children f.node).take f.cursor ++ element :: (skipped ++ later) }) = t :=
        (modify_congr fun n hn => by rw [hsame, children_of_node? hn]).trans (modify_id t f.node)
      rw [hid]
      exact .current (by simpa [hempty] using hdrop) hkeyed
    · exact .moved hdrop hempty hskipped hkeyed
  · exact .made (by simpa [findKeyed?] using hnone) hcursor

namespace Claims

theorem frames_eq (h : Claims t f name key element u) : u.frames = t.frames := by
  cases h with
  | current => rfl
  | moved => rfl
  | made => simp [link]

theorem running_eq (h : Claims t f name key element u) : u.running = t.running := by
  cases h with
  | current => rfl
  | moved => rfl
  | made => simp [link]

/-- The attributes of the claimed element are what they were; a new one has none. -/
theorem attributes_eq (h : Claims t f name key element u) (ht : WellLinked t)
    (hlive : t.isLive f.node = true) : u.attributes element = t.attributes element := by
  cases h with
  | current => rfl
  | @moved _ skipped later =>
    have hkind := kind_modify (t := t) (h := f.node) (f := fun n => { n with
      children := (t.children f.node).take f.cursor ++ element :: (skipped ++ later) })
      element fun _ => rfl
    simp only [Tree.attributes, hkind]
  | made =>
    have hnone := ht.node?_fresh
    have hne : t.fresh ≠ f.node := by
      rintro hfresh
      simp [isLive, ← hfresh, hnone] at hlive
    simp [Tree.attributes, link, node?_modify_self, node?_modify_of_ne _ _ hne,
      ht.node?_allocate, hnone]

end Claims

/-- The innermost container takes the element of the open, the name of which is a name, but
its attributes have names that are none. The first of them is `bad`. -/
structure Misnamed (t : Tree) (f : Frame) (name : String) (attributes : List (String × String))
    (bad : String) : Prop where
  innermost : t.openFrames.head? = some f
  check : t.check f.node f.cursor none = .ok ()
  isTagName : Markup.isTagName name = true
  first : ∃ before value after, attributes = before ++ (bad, value) :: after ∧
    Markup.isAttributeName bad = false ∧ ∀ a ∈ before, Markup.isAttributeName a.1 = true

theorem find?_invalid_iff : (∃ value, (attributes.find? fun (name, _) =>
    !Markup.isAttributeName name) = some (bad, value)) ↔
      ∃ before value after, attributes = before ++ (bad, value) :: after ∧
        Markup.isAttributeName bad = false ∧ ∀ a ∈ before, Markup.isAttributeName a.1 = true := by
  constructor
  · rintro ⟨value, hfind⟩
    obtain ⟨hbad, before, after, rfl, hbefore⟩ := List.find?_eq_some_iff_append.mp hfind
    exact ⟨before, value, after, rfl, by simpa using hbad, by simpa using hbefore⟩
  · rintro ⟨before, value, after, rfl, hbad, hbefore⟩
    refine ⟨value, List.find?_eq_some_iff_append.mpr ⟨by simpa using hbad, before, after, rfl, ?_⟩⟩
    simpa using hbefore

/-- A claim succeeds once its checks have gone through, unless it would leave a gap. -/
theorem exists_claim_iff (hs : Serializable t)
    (hgap : ∀ u, t.claim f name key ≠ (.error (.gap f.node), u)) :
    (∃ element u, t.claim f name key = (.ok element, u)) ↔
      t.check f.node f.cursor none = .ok () ∧ Markup.isTagName name = true := by
  constructor
  · rintro ⟨element, u, hclaim⟩
    obtain ⟨hcheck, ⟨hfound, _⟩ | ⟨_, hname, _⟩⟩ := claim_cases hclaim
    · -- An element that is there has a name that is one.
      obtain ⟨_, _, _, _, hn⟩ := node?_of_elementName? (mem_of_findKeyed? hfound).2.1
      exact ⟨hcheck, (hs.named hn).1⟩
    · exact ⟨hcheck, hname⟩
  · rintro ⟨hcheck, hname⟩
    rcases hclaim : t.claim f name key with ⟨e | element, u⟩
    · obtain ⟨-, hcheck' | ⟨hname', -⟩ | ⟨-, rfl, -⟩⟩ := claim_error_cases hclaim
      · simp [hcheck] at hcheck'
      · simp [hname] at hname'
      · exact absurd hclaim (hgap u)
    · exact ⟨element, u, rfl⟩

/-- An open fails before it has claimed its element, or it has claimed it and fails for the
name of an attribute. -/
theorem openElement_failure_cases {e : Error}
    (hrefused : t.openElement name key attributes = ⟨some e, u⟩) :
    (u = t ∧ ∀ f, t.openFrames.head? = some f → t.claim f name key = (.error e, t)) ∨
    ∃ f element bad, t.openFrames.head? = some f ∧ e = .invalidName bad ∧
      t.claim f name key = (.ok element, u) ∧
      ∃ value, (attributes.find? fun (name, _) => !Markup.isAttributeName name) =
        some (bad, value) := by
  rw [openElement] at hrefused
  split at hrefused
  · next hnone =>
    cases hrefused
    exact .inl ⟨rfl, by simp [hnone]⟩
  · next f outer hopen =>
    split at hrefused
    · next hclaim =>
      cases hrefused
      obtain ⟨rfl, -⟩ := claim_error_cases hclaim
      refine .inl ⟨rfl, fun g hg => ?_⟩
      obtain rfl : f = g := by simpa [hopen] using hg
      exact hclaim
    · next element v hclaim =>
      split at hrefused
      · next bad value hfind =>
        cases hrefused
        exact .inr ⟨f, element, bad, by rw [hopen, List.head?_cons], rfl, hclaim, value, hfind⟩
      · cases hrefused

/-- An open that is refused has done nothing, unless it was refused for an attribute. Then it
has claimed its element, and nothing more. -/
theorem openElement_refused (h : Reachable t) {e : Error}
    (hrefused : t.openElement name key attributes = ⟨some e, u⟩) (hgap : ∀ x, e ≠ .gap x) :
    ((∀ f bad, ¬ t.Misnamed f name attributes bad) → u = t) ∧
    ∀ f bad, t.Misnamed f name attributes bad → e = .invalidName bad ∧ ∃ element,
      Claims t f name key element u := by
  obtain ⟨hstate, hclaim⟩ | ⟨f, element, bad, hinner, rfl, hclaim, hfind⟩ :=
    openElement_failure_cases hrefused
  · refine ⟨fun _ => hstate, fun f bad hnames => ?_⟩
    have herror := hclaim f hnames.innermost
    have hnogap : ∀ u, t.claim f name key ≠ (.error (.gap f.node), u) := by
      rw [herror]
      simpa using hgap f.node
    have hclaimed := (exists_claim_iff h.serializable hnogap).mpr ⟨hnames.check, hnames.isTagName⟩
    simp [herror] at hclaimed
  · refine ⟨fun hnot => ?_, fun g bad' hnames => ?_⟩
    · have hchecks := (exists_claim_iff h.serializable (by simp [hclaim])).mp ⟨_, _, hclaim⟩
      exact absurd ⟨hinner, hchecks.1, hchecks.2, find?_invalid_iff.mp hfind⟩ (hnot f bad)
    · obtain rfl : f = g := Option.some_inj.mp (hinner.symm.trans hnames.innermost)
      obtain ⟨value, hfind⟩ := hfind
      obtain ⟨value', hfind'⟩ := find?_invalid_iff.mpr hnames.first
      obtain ⟨rfl, -⟩ := Prod.mk.inj (Option.some_inj.mp (hfind.symm.trans hfind'))
      exact ⟨rfl, element, claims_of_claim hclaim⟩

theorem createElement_refused {e : Error} (hrefused : t.createElement name = (.error e, u)) :
    u = t := by
  simp only [createElement] at hrefused
  split at hrefused
  · cases hrefused
  · cases hrefused
    rfl

theorem appendChild_refused {parent child : Handle} {e : Error}
    (hrefused : t.appendChild parent child = ⟨some e, u⟩) : u = t := by
  rw [appendChild] at hrefused
  split at hrefused
  · cases hrefused
    rfl
  · cases hrefused
    rfl
  · split at hrefused
    · cases hrefused
      rfl
    · split at hrefused
      · cases hrefused
        rfl
      · cases hrefused

theorem setAttribute_refused {h : Handle} {value : String} {e : Error}
    (hrefused : t.setAttribute h name value = ⟨some e, u⟩) : u = t := by
  simp only [setAttribute] at hrefused
  split at hrefused
  · cases hrefused
    rfl
  · split at hrefused
    · cases hrefused
      rfl
    · split at hrefused
      · cases hrefused
      · cases hrefused
        rfl

theorem setKey_refused {h : Handle} {e : Error} (hrefused : t.setKey h key = ⟨some e, u⟩) :
    u = t := by
  rw [setKey] at hrefused
  split at hrefused
  · cases hrefused
    rfl
  · split at hrefused
    · cases hrefused
    · cases hrefused
      rfl

theorem closeElement_refused {e : Error} (hrefused : t.closeElement name = ⟨some e, u⟩) :
    u = t := by
  simp only [closeElement] at hrefused
  split at hrefused
  · cases hrefused
    rfl
  · cases hrefused
    rfl
  · split at hrefused
    · split at hrefused
      · cases hrefused
      · cases hrefused
        rfl
    · cases hrefused

theorem putText_refused {content : String} {e : Error}
    (hrefused : t.putText content = ⟨some e, u⟩) : u = t := by
  simp only [putText] at hrefused
  split at hrefused
  · cases hrefused
    rfl
  · split at hrefused
    · cases hrefused
      rfl
    · split at hrefused
      · cases hrefused
      · split at hrefused
        · cases hrefused
          rfl
        · cases hrefused

theorem skip_refused {e : Error} (hrefused : t.skip = ⟨some e, u⟩) : u = t := by
  rw [skip] at hrefused
  split at hrefused
  · cases hrefused
    rfl
  · cases hrefused

/-- A call that is refused has done nothing, unless it is an open. The end of a transaction is
left out as well. -/
theorem call_refused {c : Call} {e : Error} (hrefused : t.call c = ⟨some e, u⟩)
    (hopen : ¬ ∃ name key attributes, c = .perform (.openTag name key attributes))
    (hfinish : ∀ raised, c ≠ .finish raised) : u = t := by
  cases c with
  | createElement name =>
    rw [Tree.call] at hrefused
    split at hrefused
    · cases hrefused
    · next hcreate =>
      cases hrefused
      exact createElement_refused hcreate
  | createText content => cases hrefused
  | appendChild parent child => exact appendChild_refused hrefused
  | setAttribute node name value => exact setAttribute_refused hrefused
  | setKey node key => exact setKey_refused hrefused
  | begin target => exact begin_error_state hrefused
  | perform instruction =>
    cases instruction with
    | openTag name key attributes => exact absurd ⟨name, key, attributes, rfl⟩ hopen
    | closeTag name => exact closeElement_refused hrefused
    | text content => exact putText_refused hrefused
    | skip => exact skip_refused hrefused
  | finish raised => exact absurd rfl (hfinish raised)

/-- A call that is refused leaves the whole tree as it was: its slots, those that wait, the open
containers with their cursors, and the flag of a running transaction. The one exception is an
open that is refused for the name of an attribute. It has claimed its element and has done
nothing else; the element keeps its attributes, and no container was gone into or left. The end
of a transaction is no such call, as it ends the transaction in any case, and a gap is no
refusal, as nothing goes on from it. -/
theorem Reachable.refused_call (h : Reachable t) {c : Call} (hc : ∀ raised, c ≠ .finish raised)
    {e : Error} (hfailure : (t.call c).failure = some e) (hgap : ∀ x, e ≠ .gap x) :
    ((∀ name key attributes f bad, c = .perform (.openTag name key attributes) →
      ¬ t.Misnamed f name attributes bad) → (t.call c).state = t) ∧
    ∀ name key attributes f bad, c = .perform (.openTag name key attributes) →
      t.Misnamed f name attributes bad →
        e = .invalidName bad ∧ ∃ element, Claims t f name key.value element (t.call c).state ∧
          (t.call c).state.attributes element = t.attributes element ∧
          (t.call c).state.frames = t.frames ∧ (t.call c).state.running = t.running := by
  rcases hcall : t.call c with ⟨failure, u⟩
  obtain rfl : failure = some e := by rwa [hcall] at hfailure
  by_cases hopen : ∃ name key attributes, c = .perform (.openTag name key attributes)
  · obtain ⟨name, key, attributes, rfl⟩ := hopen
    obtain ⟨hsame, hclaims⟩ := openElement_refused h hcall hgap
    refine ⟨fun hnot => hsame fun f bad => hnot name key attributes f bad rfl, ?_⟩
    rintro name key attributes f bad ⟨⟩ hnames
    obtain ⟨rfl, element, hclaim⟩ := hclaims f bad hnames
    have hlive := isLive_of_check hnames.check
    exact ⟨rfl, element, hclaim, hclaim.attributes_eq h.wellLinked hlive, hclaim.frames_eq,
      hclaim.running_eq⟩
  · refine ⟨fun _ => call_refused hcall hopen hc, fun name key attributes f bad hc => ?_⟩
    exact absurd ⟨name, key, attributes, hc⟩ hopen

/-- The element stands behind an element and a text when an open asks for it with a second
attribute that has no name. It is brought to the front with the attribute that it has. -/
theorem refused_call_moved :
    let t := Tree.new.run [.createElement "ul", .appendChild .root ⟨1, 0⟩, .begin ⟨1, 0⟩,
      .perform (.openTag "a" (.explicit "k") []), .perform (.closeTag "a"),
      .perform (.text "x"), .perform (.openTag "b" (.explicit "k") [("id", "1")]),
      .perform (.closeTag "b"), .finish none, .begin ⟨1, 0⟩]
    let c : Call := .perform (.openTag "b" (.explicit "k") [("id", "2"), ("c d", "")])
    (t.call c).failure = some (.invalidName "c d") ∧
      (t.call c).state.children ⟨1, 0⟩ = [⟨4, 0⟩, ⟨2, 0⟩, ⟨3, 0⟩] ∧
      ∃ element, Claims t ⟨⟨1, 0⟩, 0⟩ "b" "k" element (t.call c).state ∧
        (t.call c).state.attributes element = t.attributes element ∧
        (t.call c).state.frames = [⟨⟨1, 0⟩, 0⟩] ∧ (t.call c).state.running = true := by
  intro t c
  have h : Reachable t := Reachable.new.run _
  have hfailure : (t.call c).failure = some (.invalidName "c d") := by decide
  have hnames : t.Misnamed ⟨⟨1, 0⟩, 0⟩ "b" [("id", "2"), ("c d", "")] "c d" :=
    ⟨by decide, by decide, by decide, [("id", "2")], "", [], rfl, by decide, by decide⟩
  refine ⟨hfailure, by decide, ?_⟩
  obtain ⟨-, element, hclaims, hattributes, hframes, hrunning⟩ :=
    (Reachable.refused_call h (by simp [c]) hfailure nofun).2 "b" _ _ _ _ rfl hnames
  exact ⟨element, hclaims, hattributes, hframes.trans (by decide), hrunning.trans (by decide)⟩

end LiveMarkup.Live.Tree
