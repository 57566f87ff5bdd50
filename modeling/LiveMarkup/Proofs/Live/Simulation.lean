import LiveMarkup.Proofs.Live.Serializable
import LiveMarkup.Proofs.Live.Zipper

/-!
# An arena follows the trees

While a transaction runs, the arena holds the levels of the same transaction on trees: the
open containers with their cursors, and below each of them the trees that were passed and
those ahead (`Tracks`). Every instruction does the same to both and is refused for the same
reason, so whatever is known of a transaction on trees is known of the arena.

What the levels say about the arena is a list of records. An instruction changes few of
them, and their order does not matter.
-/

namespace LiveMarkup.Live

open Patch (Outcome)
open Rose (place places recordsAll)

namespace Zipper

/-- The parent of the innermost container; that of the last level is given. -/
def up (above : Option Handle) : List Level → Option Handle
  | [] => above
  | l :: _ => some l.node

/-- What the arena holds of some levels. The hole is the container that stands at the cursor
of the innermost level, if there is one. -/
def records (above : Option Handle) : (hole : List Handle) → List Level → List (Handle × Node)
  | _, [] => []
  | hole, l :: outer =>
    (l.node, ⟨l.kind, up above outer, l.passed.map place ++ (hole ++ l.ahead.map place)⟩) ::
      (recordsAll Node.mk (some l.node) l.passed ++
        (recordsAll Node.mk (some l.node) l.ahead ++ records above [l.node] outer))

/-- The frames of some levels. -/
def frames : (hole : List Handle) → List Level → List Frame
  | _, [] => []
  | hole, l :: outer => ⟨l.node, l.passed.length + hole.length⟩ :: frames [l.node] outer

end Zipper

namespace Tree

variable {t u : Tree} {above : Option Handle} {l m : Level} {outer z : List Level}
  {rest : List (Handle × Node)}

theorem stored_modify {a : Handle} {n : Node} (h : Stored t.node? ((a, n) :: rest))
    (f : Node → Node) : Stored (t.modify a f).node? ((a, f n) :: rest) := by
  refine h.update ?_ fun x hx => node?_modify_of_ne t f hx
  rw [node?_modify_self, h.look_eq List.mem_cons_self]
  rfl

theorem stored_allocate (h : Stored t.node? rest) (ht : WellLinked t) (kind : Kind) :
    Stored (t.allocate kind).2.node? ((t.fresh, ⟨kind, none, []⟩) :: rest) := by
  refine h.insert ht.node?_fresh ?_ fun x hx => ?_
  · rw [ht.node?_allocate, if_pos rfl]
  · rw [ht.node?_allocate, if_neg hx]

theorem stored_link {p c : Handle} {above below : Node} {index : Nat}
    (h : Stored t.node? ((p, above) :: (c, below) :: rest)) :
    Stored (t.link p index c).node?
      ((p, { above with
          children := above.children.take index ++ c :: above.children.drop index }) ::
        (c, { below with parent := some p }) :: rest) := by
  refine Stored.perm ?_ (List.Perm.swap _ _ _)
  exact stored_modify ((stored_modify h _).perm (List.Perm.swap _ _ _)) _

/-- A new child takes a place among the children of a recorded node. -/
theorem stored_insert {p : Handle} {n : Node} (h : Stored t.node? ((p, n) :: rest))
    (ht : WellLinked t) (kind : Kind) (index : Nat) :
    Stored ((t.allocate kind).2.link p index t.fresh).node?
      ((p, { n with
          children := n.children.take index ++ t.fresh :: n.children.drop index }) ::
        (t.fresh, ⟨kind, some p, []⟩) :: rest) :=
  stored_link ((stored_allocate h ht kind).perm (List.Perm.swap _ _ _))

/-- What lies within the trees of a region is in the region. -/
theorem mem_places_of_within (ht : WellLinked t) {parent : Option Handle} {region : Branches}
    (hheld : Held t.node? (recordsAll Node.mk parent region)) {b x : Handle}
    (hb : b ∈ region.map place) (hx : Within t.parent? x b) : x ∈ places region := by
  induction hx using Relation.ReflTransGen.head_induction_on with
  | refl =>
    obtain ⟨r, hr, rfl⟩ := List.mem_map.mp hb
    exact Rose.place_mem_places hr
  | @head x p hparent _ ih =>
    have hrecorded : (recordsAll Node.mk parent region).map Prod.fst = places region :=
      Rose.map_fst_recordsAll parent region
    rw [← hrecorded] at ih
    obtain ⟨⟨_, n⟩, he, rfl⟩ := List.mem_map.mp ih
    have hmem := ht.mem_children_iff.mpr hparent
    rw [children_of_node? (hheld _ he)] at hmem
    exact Rose.mem_places_of_record Node.children (fun _ _ _ => rfl) region he hmem

open Classical in
theorem stored_truncate {a : Handle} {kind : Kind} {parent : Option Handle}
    {passed ahead : Branches} (ht : WellLinked t)
    (h : Stored t.node? ((a, ⟨kind, parent, passed.map place ++ ahead.map place⟩) ::
      (recordsAll Node.mk (some a) ahead ++ rest))) :
    Stored (t.truncate a passed.length).node? ((a, ⟨kind, parent, passed.map place⟩) :: rest) := by
  have ha := h.look_eq List.mem_cons_self
  have hdrop : (t.children a).drop passed.length = ahead.map place := by
    rw [children_of_node? ha]
    exact List.drop_left' (List.length_map _)
  have hdropped : ∀ x, t.Dropped a passed.length x → x ∈ places ahead := by
    rintro x ⟨b, hb, hx⟩
    rw [hdrop] at hb
    exact mem_places_of_within ht
      (h.held.subset fun e he => List.mem_cons_of_mem _ (List.mem_append_left _ he)) hb hx
  have hnodup := h.nodup
  rw [List.map_cons, List.map_append, Rose.map_fst_recordsAll] at hnodup
  obtain ⟨haway, hparts⟩ := List.nodup_cons.mp hnodup
  rw [List.nodup_append] at hparts
  refine ⟨.cons ?_ ?_, ?_⟩
  · rw [node?_truncate ht, if_neg (not_dropped_self ht), if_pos rfl, ha, Option.map_some,
      List.take_left' (List.length_map _)]
  · refine (h.held.subset fun e he =>
      List.mem_cons_of_mem _ (List.mem_append_right _ he)).frame fun x hx => ?_
    have hxa : x ≠ a := by
      rintro rfl
      exact haway (List.mem_append_right _ hx)
    have hkept : ¬ t.Dropped a passed.length x := fun hd =>
      hparts.2.2 x (hdropped x hd) x hx rfl
    rw [node?_truncate ht, if_neg hkept, if_neg hxa]
  · exact List.nodup_cons.mpr ⟨fun hmem => haway (List.mem_append_right _ hmem), hparts.2.1⟩

/-- A transaction is running, and the arena is where the levels say it is. -/
structure Tracks (t : Tree) (above : Option Handle) (z : List Level) : Prop where
  running : t.running = true
  frames : t.frames = Zipper.frames [] z
  stored : Stored t.node? (Zipper.records above [] z)

namespace Tracks

theorem node? (hz : Tracks t above (l :: outer)) :
    t.node? l.node =
      some ⟨l.kind, Zipper.up above outer, l.passed.map place ++ l.ahead.map place⟩ := by
  have hmem := hz.stored.look_eq List.mem_cons_self
  simpa using hmem

theorem children (hz : Tracks t above (l :: outer)) :
    t.children l.node = l.passed.map place ++ l.ahead.map place :=
  children_of_node? hz.node?

/-- No cursor stands beyond the children of its container. -/
theorem not_gap (hz : Tracks t above (l :: outer)) :
    ¬ (t.children l.node).length < l.passed.length := by
  rw [hz.children, List.length_append, List.length_map]
  omega

theorem openFrames (hz : Tracks t above z) : t.openFrames = Zipper.frames [] z :=
  (if_pos hz.running).trans hz.frames

theorem openFrames_cons (hz : Tracks t above (l :: outer)) :
    t.openFrames = ⟨l.node, l.passed.length⟩ :: Zipper.frames [l.node] outer := hz.openFrames

theorem check (hz : Tracks t above (l :: outer)) (child : Option String) :
    t.check l.node l.passed.length child = l.check child := by
  rw [Tree.check, hz.node?]
  rfl

/-- The trees that were passed are held as children of their container. -/
theorem held_passed (hz : Tracks t above (l :: outer)) :
    Held t.node? (recordsAll Node.mk (some l.node) l.passed) :=
  hz.stored.held.subset fun _ he => List.mem_cons_of_mem _ (List.mem_append_left _ he)

/-- The trees ahead are held as children of their container. -/
theorem held_ahead (hz : Tracks t above (l :: outer)) :
    Held t.node? (recordsAll Node.mk (some l.node) l.ahead) := by
  refine hz.stored.held.subset fun e he => ?_
  rw [Zipper.records]
  exact List.mem_cons_of_mem _ (List.mem_append_right _ (List.mem_append_left _ he))

theorem node?_of_mem_ahead (hz : Tracks t above (l :: outer)) {h : Handle} {kind : Kind}
    {branches : Branches} (hr : .node (h, kind) branches ∈ l.ahead) :
    t.node? h = some ⟨kind, some l.node, branches.map place⟩ :=
  hz.held_ahead _ (Rose.mem_recordsAll_of_mem hr)

theorem isKeyed (hz : Tracks t above (l :: outer)) (name key : String)
    {r : Rose (Handle × Kind)} (hr : r ∈ l.ahead) :
    t.isKeyed name key r.place = keyed name key r := by
  obtain ⟨⟨h, kind⟩, branches⟩ := r
  have hn := hz.node?_of_mem_ahead hr
  rw [Rose.place_node, Tree.isKeyed, elementName?, key?, hn]
  cases kind <;> simp [Kind.name?, keyed]

theorem findKeyed? (hz : Tracks t above (l :: outer)) (name key : String) :
    t.findKeyed? name key ((t.children l.node).drop l.passed.length) =
      (l.ahead.find? (keyed name key)).map place := by
  rw [hz.children, List.drop_left' (List.length_map _), Tree.findKeyed?, List.find?_map]
  congr 1
  have hsame : ∀ (rest : Branches), (∀ r ∈ rest, r ∈ l.ahead) →
      rest.find? (t.isKeyed name key ∘ place) = rest.find? (keyed name key) := by
    intro rest
    induction rest with
    | nil => exact fun _ => rfl
    | cons r rest ih =>
      intro hsub
      rw [List.find?_cons, List.find?_cons, Function.comp_apply,
        hz.isKeyed name key (hsub r List.mem_cons_self),
        ih fun s hs => hsub s (List.mem_cons_of_mem _ hs)]
  exact hsame l.ahead fun _ hr => hr

/-- The element that was found comes to the front of the trees ahead. -/
theorem bringForward_found (hz : Tracks t above (l :: outer)) (ht : WellLinked t)
    {name key : String} {found : Rose (Handle × Kind)}
    (hfound : l.ahead.find? (keyed name key) = some found) :
    Tracks (t.modify l.node fun n =>
      { n with children := bringForward found.place l.passed.length n.children }) above
      ({ l with ahead := found :: l.ahead.eraseP (keyed name key) } :: outer) := by
  obtain ⟨hkeyed, before, after, hahead, hbefore⟩ := List.find?_eq_some_iff_append.mp hfound
  have hrest : l.ahead.eraseP (keyed name key) = before ++ after := by
    rw [hahead, List.eraseP_append_right _ fun r hr => by simpa using hbefore r hr,
      List.eraseP_cons_of_pos hkeyed]
  have hfirst : found.place ∉ before.map place := by
    have hnodup := ht.nodup_children l.node
    rw [hz.children, hahead, List.map_append, List.map_cons] at hnodup
    have hparts := List.nodup_middle.mp hnodup.of_append_right
    exact fun hmem => (List.nodup_cons.mp hparts).1 (List.mem_append_left _ hmem)
  have hchildren : bringForward found.place l.passed.length
      (l.passed.map place ++ ([] ++ l.ahead.map place)) =
        l.passed.map place ++ ([] ++ (found :: l.ahead.eraseP (keyed name key)).map place) := by
    rw [bringForward, List.nil_append, List.nil_append, List.take_left' (List.length_map _),
      List.drop_left' (List.length_map _), hrest, hahead, List.map_append, List.map_cons,
      List.erase_append_right _ hfirst, List.erase_cons_head, List.map_cons, List.map_append]
  refine ⟨hz.running, hz.frames, ?_⟩
  have hstored := stored_modify hz.stored fun n =>
    { n with children := bringForward found.place l.passed.length n.children }
  rw [hchildren] at hstored
  refine hstored.perm (List.Perm.cons _ ?_)
  rw [hrest, hahead]
  refine List.perm_iff_count.mpr fun x => ?_
  simp only [recordsAll, Rose.recordsAll_append, List.count_append]
  omega

theorem insert (hz : Tracks t above (l :: outer)) (ht : WellLinked t) (kind : Kind) :
    Tracks ((t.allocate kind).2.link l.node l.passed.length t.fresh) above
      ({ l with ahead := .node (t.fresh, kind) [] :: l.ahead } :: outer) := by
  refine ⟨?_, ?_, ?_⟩
  · rw [link, modify_running, modify_running, allocate_running]
    exact hz.running
  · rw [link, modify_frames, modify_frames, allocate_frames]
    exact hz.frames
  · have hstored := stored_insert hz.stored ht kind l.passed.length
    simp only [List.nil_append, List.take_left' (List.length_map _),
      List.drop_left' (List.length_map _)] at hstored
    refine hstored.perm (List.Perm.cons _ ?_)
    refine List.perm_iff_count.mpr fun x => ?_
    simp only [Rose.recordsAll_node, Rose.recordsAll_nil, List.count_append, List.count_cons,
      List.nil_append, List.map_nil]
    omega

/-- An open finds or makes the same element on both sides, and it stands at the cursor. -/
theorem claim (hz : Tracks t above (l :: outer)) (ht : WellLinked t) (name key : String) :
    (∃ e, t.claim ⟨l.node, l.passed.length⟩ name key = (.error e, t) ∧
      l.claim t.fresh name key = .error e) ∨
    ∃ h attributes branches ahead u, t.claim ⟨l.node, l.passed.length⟩ name key = (.ok h, u) ∧
      l.claim t.fresh name key =
        .ok (.node (h, .element name (some key) attributes) branches, ahead) ∧
      Tracks u above ({ l with
        ahead := .node (h, .element name (some key) attributes) branches :: ahead } :: outer) := by
  rw [Tree.claim, Level.claim]
  simp only [hz.check, hz.findKeyed?]
  cases l.check none with
  | error e => exact .inl ⟨e, rfl, rfl⟩
  | ok _ =>
    cases hfound : l.ahead.find? (keyed name key) with
    | some found =>
      obtain ⟨⟨h, kind⟩, branches⟩ := found
      obtain ⟨attributes, rfl⟩ := keyed_iff.mp (List.find?_some hfound)
      exact .inr ⟨h, attributes, branches, _, _, rfl, rfl, hz.bringForward_found ht hfound⟩
    | none =>
      cases hname : Markup.isTagName name with
      | false => exact .inl ⟨_, rfl, rfl⟩
      | true =>
        refine .inr ⟨t.fresh, [], [], l.ahead, _, ?_, rfl, hz.insert ht _⟩
        simp [allocate_fst, hz.not_gap]

/-- The node at the cursor becomes another kind of node. -/
theorem relabel (hz : Tracks t above (l :: outer)) {h : Handle} {kind kind' : Kind}
    {branches ahead : Branches} (hahead : l.ahead = .node (h, kind) branches :: ahead)
    {f : Node → Node} (hf : ∀ parent children, f ⟨kind, parent, children⟩ =
      ⟨kind', parent, children⟩) :
    Tracks (t.modify h f) above
      ({ l with ahead := .node (h, kind') branches :: ahead } :: outer) := by
  refine ⟨hz.running, hz.frames, ?_⟩
  have hfront : (Zipper.records above [] (l :: outer)).Perm
      ((h, ⟨kind, some l.node, branches.map place⟩) ::
        (l.node, ⟨l.kind, Zipper.up above outer, l.passed.map place ++ h :: ahead.map place⟩) ::
        (recordsAll Node.mk (some l.node) l.passed ++ (recordsAll Node.mk (some h) branches ++
          (recordsAll Node.mk (some l.node) ahead ++
            Zipper.records above [l.node] outer)))) := by
    refine List.perm_iff_count.mpr fun x => ?_
    simp only [Zipper.records, hahead, Rose.recordsAll_node, List.count_append, List.count_cons,
      List.map_cons, Rose.place_node, List.nil_append]
    omega
  have hstored := stored_modify (hz.stored.perm hfront) f
  rw [hf] at hstored
  refine hstored.perm (List.perm_iff_count.mpr fun x => ?_)
  simp only [Zipper.records, Rose.recordsAll_node, List.count_append, List.count_cons,
    List.map_cons, Rose.place_node, List.nil_append]
  omega

/-- The tree at the cursor is passed. -/
theorem pass (hz : Tracks t above (l :: outer)) {r : Rose (Handle × Kind)} {ahead : Branches}
    (hahead : l.ahead = r :: ahead) :
    Tracks { t with frames := ⟨l.node, l.passed.length + 1⟩ :: Zipper.frames [l.node] outer }
      above ({ l with passed := l.passed ++ [r], ahead := ahead } :: outer) := by
  refine ⟨hz.running, by simp [Zipper.frames],
    hz.stored.perm (List.perm_iff_count.mpr fun x => ?_)⟩
  simp only [Zipper.records, hahead, recordsAll, Rose.recordsAll_append,
    List.count_append, List.count_cons, List.map_append, List.map_cons, List.map_nil,
    List.nil_append, List.cons_append, List.append_nil, List.append_assoc]

/-- The tree at the cursor is gone into. -/
theorem enter (hz : Tracks t above (l :: outer)) {h : Handle} {kind : Kind}
    {branches ahead : Branches} (hahead : l.ahead = .node (h, kind) branches :: ahead) :
    Tracks { t with
        frames := ⟨h, 0⟩ :: ⟨l.node, l.passed.length + 1⟩ :: Zipper.frames [l.node] outer } above
      (⟨h, kind, [], branches⟩ :: { l with ahead := ahead } :: outer) := by
  refine ⟨hz.running, rfl, hz.stored.perm (List.perm_iff_count.mpr fun x => ?_)⟩
  simp only [Zipper.records, Zipper.up, hahead, Rose.recordsAll_node, Rose.recordsAll_nil,
    List.count_append, List.count_cons, List.map_cons, List.map_nil, Rose.place_node,
    List.nil_append, List.cons_append]
  omega

/-- The records of the trees ahead, in front of all but that of their container. -/
theorem stored_ahead (hz : Tracks t above (l :: outer)) :
    Stored t.node? ((l.node, ⟨l.kind, Zipper.up above outer,
        l.passed.map place ++ l.ahead.map place⟩) ::
      (recordsAll Node.mk (some l.node) l.ahead ++ (recordsAll Node.mk (some l.node) l.passed ++
        Zipper.records above [l.node] outer))) := by
  have hstored := hz.stored
  rw [Zipper.records, List.nil_append] at hstored
  exact hstored.perm (List.Perm.cons _ (List.perm_append_comm_assoc _ _ _))

/-- The innermost element is left and loses the trees ahead. -/
theorem leave (hz : Tracks t above (l :: m :: outer)) (ht : WellLinked t) :
    Tracks { t.truncate l.node l.passed.length with
        frames := Zipper.frames [l.node] (m :: outer) } above
      ({ m with passed := m.passed ++ [l.closed] } :: outer) := by
  refine ⟨(truncate_running t _ _).trans hz.running, by simp [Zipper.frames], ?_⟩
  refine (stored_truncate ht hz.stored_ahead).perm (List.perm_iff_count.mpr fun x => ?_)
  simp only [Zipper.records, Zipper.up, Level.closed, Rose.recordsAll_append,
    Rose.recordsAll_node, Rose.recordsAll_nil, List.count_append, List.count_cons, List.map_append,
    List.map_cons, List.map_nil, Rose.place_node, List.nil_append, List.cons_append,
    List.append_nil, List.append_assoc]
  omega

/-- The last container loses the trees ahead. -/
theorem truncate (hz : Tracks t above [l]) (ht : WellLinked t) :
    Tracks (t.truncate l.node l.passed.length) above [{ l with ahead := [] }] := by
  refine ⟨(truncate_running t _ _).trans hz.running, (truncate_frames t _ _).trans hz.frames, ?_⟩
  simpa [Zipper.records] using stored_truncate ht hz.stored_ahead

/-- What stands at the cursor. -/
theorem cursor? (hz : Tracks t above (l :: outer)) :
    (t.children l.node)[l.passed.length]? = l.ahead.head?.map place := by
  rw [hz.children, List.getElem?_append_right (by simp), List.length_map, Nat.sub_self,
    List.getElem?_map, List.head?_eq_getElem?]

theorem resident (hz : Tracks t above (l :: outer)) : t.resident l.node.slot = l.node :=
  resident_of_isLive (isLive_of_node? hz.node?)

theorem elementName? (hz : Tracks t above (l :: outer)) :
    t.elementName? l.node = l.kind.name? := by
  rw [Tree.elementName?, hz.node?]
  rfl

/-- Both sides fail of the same, and the arena holds the levels that come out. -/
def Follow (o : Outcome Error Tree) (above : Option Handle) (o' : Outcome Error (List Level)) :
    Prop :=
  o.failure = o'.failure ∧ Tracks o.state above o'.state

theorem openElement (hz : Tracks t above z) (ht : WellLinked t) (name key : String)
    (attributes : List (String × String)) :
    Follow (t.openElement name key attributes) above
      (Zipper.openElement t.fresh name key attributes z) := by
  cases z with
  | nil =>
    have hopen : t.openFrames = [] := hz.openFrames
    simp only [Tree.openElement, hopen]
    exact ⟨rfl, hz⟩
  | cons l outer =>
    rw [Tree.openElement, hz.openFrames_cons, Zipper.openElement]
    rcases hz.claim ht name key with
      ⟨e, hclaim, hclaim'⟩ | ⟨h, old, branches, ahead, u, hclaim, hclaim', hu⟩
    · simp only [hclaim, hclaim']
      exact ⟨rfl, hz⟩
    · simp only [hclaim, hclaim']
      by_cases hnames : ∀ a ∈ attributes, Markup.isAttributeName a.1 = true
      · simp only [Zipper.find?_invalidName_eq_none_iff.mpr hnames]
        exact ⟨rfl, (hu.relabel rfl fun _ _ => rfl).enter rfl⟩
      · obtain ⟨a, ha⟩ := Option.ne_none_iff_exists'.mp
          (mt Zipper.find?_invalidName_eq_none_iff.mp hnames)
        simp only [ha]
        exact ⟨rfl, hu⟩

theorem closeElement (hz : Tracks t above z) (ht : WellLinked t) (name : String) :
    Follow (t.closeElement name) above (Zipper.closeElement name z) := by
  match z with
  | [] =>
    have hopen : t.openFrames = [] := hz.openFrames
    simp only [Tree.closeElement, hopen]
    exact ⟨rfl, hz⟩
  | [l] =>
    have hopen : t.openFrames = [⟨l.node, l.passed.length⟩] := hz.openFrames
    simp only [Tree.closeElement, hopen]
    exact ⟨rfl, hz⟩
  | l :: m :: outer =>
    have hopen : t.openFrames = ⟨l.node, l.passed.length⟩ ::
      ⟨m.node, m.passed.length + 1⟩ :: Zipper.frames [m.node] outer := hz.openFrames
    simp only [Tree.closeElement, hopen, hz.resident, hz.elementName?, Zipper.closeElement]
    cases l.kind.name? with
    | none => exact ⟨rfl, hz.leave ht⟩
    | some expected =>
      by_cases hname : expected = name
      · simp only [hname, if_true]
        exact ⟨rfl, hz.leave ht⟩
      · simp only [hname, if_false]
        exact ⟨rfl, hz⟩

theorem putText (hz : Tracks t above z) (ht : WellLinked t) (hs : Serializable t)
    (content : String) :
    Follow (t.putText content) above (Zipper.putText t.fresh content z) := by
  cases z with
  | nil =>
    have hopen : t.openFrames = [] := hz.openFrames
    simp only [Tree.putText, hopen]
    exact ⟨rfl, hz⟩
  | cons l outer =>
    obtain ⟨node, kind, passed, ahead⟩ := l
    rw [Tree.putText, hz.openFrames_cons, Zipper.putText]
    simp only [hz.check]
    cases Level.check ⟨node, kind, passed, ahead⟩ (some content) with
    | error e => exact ⟨rfl, hz⟩
    | ok _ =>
      have hinsert := (hz.insert ht (.text content)).pass rfl
      simp only [hz.cursor?, allocate_fst, hz.not_gap, if_false]
      cases ahead with
      | nil => exact ⟨rfl, hinsert⟩
      | cons r ahead =>
        obtain ⟨⟨h, kind'⟩, branches⟩ := r
        have hnode := hz.node?_of_mem_ahead List.mem_cons_self
        have htext : t.text? h = kind'.text? := text?_of_node? hnode
        simp only [List.head?_cons, Option.map_some, Rose.place_node, Option.filter_some, htext]
        cases kind' with
        | text old =>
          have hempty : branches = [] := List.map_eq_nil_iff.mp (hs.children_eq_nil hnode rfl)
          subst hempty
          have hnew := hz.relabel rfl (f := fun n => { n with kind := .text content })
            fun _ _ => rfl
          exact ⟨rfl, hnew.pass rfl⟩
        | root => exact ⟨rfl, hinsert⟩
        | element name key attributes => exact ⟨rfl, hinsert⟩

theorem skip (hz : Tracks t above z) : Follow t.skip above (Zipper.skip z) := by
  cases z with
  | nil =>
    have hopen : t.openFrames = [] := hz.openFrames
    simp only [Tree.skip, hopen]
    exact ⟨rfl, hz⟩
  | cons l outer =>
    rw [Tree.skip, hz.openFrames_cons, Zipper.skip]
    simp only [hz.resident, hz.children]
    refine ⟨rfl, hz.running, by simp [Zipper.frames], ?_⟩
    refine hz.stored.perm (List.perm_iff_count.mpr fun x => ?_)
    simp only [Zipper.records, Rose.recordsAll_append, Rose.recordsAll_nil, List.map_append,
      List.map_nil, List.nil_append, List.append_nil, List.append_assoc]

/-- One instruction does the same to the arena and to the trees. -/
theorem perform (hz : Tracks t above z) (ht : WellLinked t) (hs : Serializable t)
    (i : Patch.Instruction Patch.Key) :
    Follow (t.perform i) above (Zipper.perform t.fresh i z) := by
  cases i with
  | openTag name key attributes => exact hz.openElement ht name key.value attributes
  | closeTag name => exact hz.closeElement ht name
  | text content => exact hz.putText ht hs content
  | skip => exact hz.skip

theorem complete (hz : Tracks t above z) (ht : WellLinked t) :
    Follow t.complete above (Zipper.complete z) := by
  match z with
  | [] =>
    have hframes : t.frames = [] := hz.frames
    simp only [Tree.complete, hframes]
    exact ⟨rfl, hz⟩
  | [l] =>
    have hframes : t.frames = [⟨l.node, l.passed.length⟩] := hz.frames
    simp only [Tree.complete, hframes, hz.resident]
    exact ⟨rfl, hz.truncate ht⟩
  | l :: m :: outer =>
    have hframes : t.frames = ⟨l.node, l.passed.length⟩ ::
      ⟨m.node, m.passed.length + 1⟩ :: Zipper.frames [m.node] outer := hz.frames
    simp only [Tree.complete, hframes, hz.resident, hz.elementName?, Zipper.complete]
    exact ⟨rfl, hz⟩

/-- The end of the transaction leaves no frames, so there is nothing more to track. -/
theorem finish (hz : Tracks t above z) (ht : WellLinked t) (raised : Option Error) :
    (t.finish raised).failure = (Zipper.finish raised z).failure ∧
      Stored (t.finish raised).state.node?
        (Zipper.records above [] (Zipper.finish raised z).state) := by
  cases raised with
  | some e => exact ⟨rfl, hz.stored⟩
  | none =>
    obtain ⟨hfailure, hu⟩ := hz.complete ht
    exact ⟨hfailure, hu.stored⟩

end Tracks

end Tree

end LiveMarkup.Live
