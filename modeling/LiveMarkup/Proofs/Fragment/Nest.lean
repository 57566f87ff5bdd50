import LiveMarkup.Fragment.Growth
import LiveMarkup.Proofs.Region
import Mathlib.Data.List.Perm.Subperm

/-!
# Building on trees

The building of a fragment from tokens, seen without an arena: the open elements are a list
of levels, each with the trees that are complete in it, and the root is the last of them.
A start tag adds a level, an end tag completes levels, and all else is added to the
innermost one. The arena under construction holds these trees at every moment (`Tracks`),
so what is built from tokens can be read off the recursion.

Indices are handed out in order, so the next one is all that has to be known of them.
-/

namespace LiveMarkup.Fragment

open Rose (place places recordsAll)

/-- Trees in a fragment, each node with its index and what it is. -/
abbrev Branches := List (Rose (Nat × Kind))

/-- The name of a tag; empty for all else. -/
def Kind.name : Kind → String
  | .tag name _ => name
  | _ => ""

/-- An open element, or the root, with the trees that are complete in it. -/
structure Level where
  id : Nat
  kind : Kind
  passed : Branches

/-- The tree of an element that gets no more children. -/
def Level.closed (l : Level) : Rose (Nat × Kind) := .node (l.id, l.kind) l.passed

/-- Adds a complete tree to an element. -/
def Level.push (l : Level) (r : Rose (Nat × Kind)) : Level := { l with passed := l.passed ++ [r] }

/-- A fragment under construction. -/
structure Nest where
  next : Nat
  inner : Level
  outer : List Level

namespace Nest

/-- Adds a node without children to the innermost element. -/
def grow (n : Nest) (kind : Kind) : Nest :=
  { n with next := n.next + 1, inner := n.inner.push (.node (n.next, kind) []) }

/-- Adds text at the end of the innermost element: to the text that is there, or as a new
node. -/
def addText (n : Nest) (text : String) : Nest :=
  if text = "" then n
  else
    match n.inner.passed.getLast? with
    | some (.node (id, .text data) below) =>
      { n with inner := { n.inner with
          passed := n.inner.passed.dropLast ++ [.node (id, .text (data ++ text)) below] } }
    | _ => n.grow (.text text)

/-- Completes open elements up to the innermost of that name. -/
def closeTo (name : String) : Level → List Level → Level × List Level
  | l, [] => (l, [])
  | l, m :: outer =>
    if l.kind.name = name then (m.push l.closed, outer)
    else closeTo name (m.push l.closed) outer

/-- Completes all open elements. -/
def closeAll : Level → List Level → Level
  | l, [] => l
  | l, m :: outer => closeAll (m.push l.closed) outer

/-- The open elements with their indices, the root left out. -/
def opened : Level → List Level → List (Nat × String)
  | _, [] => []
  | l, m :: outer => (l.id, l.kind.name) :: opened m outer

/-- Adds one token. -/
def add (n : Nest) : Markup.Token → Nest
  | .doctype text => n.grow (.directive text)
  | .comment text => n.grow (.comment text)
  | .text content => n.addText content
  | .startTag name attributes selfClosing =>
    let kind : Kind := .tag name (distinctAttributes attributes)
    if selfClosing then n.grow kind else ⟨n.next + 1, ⟨n.next, kind, []⟩, n.inner :: n.outer⟩
  | .endTag name =>
    if (opened n.inner n.outer).any (·.2 = name) then
      { n with
        inner := (closeTo name n.inner n.outer).1
        outer := (closeTo name n.inner n.outer).2 }
    else n

/-- A lone root. -/
def empty : Nest := ⟨1, ⟨root, .root, []⟩, []⟩

/-- The trees below the root when all is complete. -/
def finished (n : Nest) : Branches := (closeAll n.inner n.outer).passed

/-- What the arena holds of the levels. The hole is the element that is open right inside. -/
def records : (hole : List Nat) → Level → List Level → List (Nat × Node)
  | hole, l, [] =>
    (l.id, ⟨l.kind, none, l.passed.map place ++ hole⟩) ::
      recordsAll Node.mk (some l.id) l.passed
  | hole, l, m :: outer =>
    (l.id, ⟨l.kind, some m.id, l.passed.map place ++ hole⟩) ::
      (recordsAll Node.mk (some l.id) l.passed ++ records [l.id] m outer)

end Nest

/-- The trees below the root that tokens build. -/
def build (tokens : List Markup.Token) : Branches := (tokens.foldl Nest.add .empty).finished

variable {t : Fragment} {rest : List (Nat × Node)}

theorem node?_attach (t : Fragment) (parent : Nat) (kind : Kind) (x : Nat) :
    (t.attach parent kind).node? x =
      if x = t.size then some ⟨kind, some parent, []⟩
      else if x = parent then
        (t.node? x).map fun n => { n with children := n.children ++ [t.size] }
      else t.node? x := by
  by_cases hsize : x = t.size
  · rw [if_pos hsize, hsize, node?_attach_size]
  · have hother : x ≠ t.nodes.size := hsize
    rw [if_neg hsize]
    simp only [attach, node?, Array.getElem?_push, Array.size_modify, if_neg hother,
      Array.getElem?_modify]
    by_cases hx : parent = x
    · rw [if_pos hx, if_pos hx.symm]
    · rw [if_neg hx, if_neg (Ne.symm hx)]

theorem node?_setText (t : Fragment) (id : Nat) (data : String) (x : Nat) :
    (t.setText id data).node? x =
      if x = id then (t.node? x).map fun n => { n with kind := .text data } else t.node? x := by
  simp only [setText, node?, Array.getElem?_modify]
  by_cases hx : id = x
  · simp [hx]
  · simp [hx, Ne.symm hx]

theorem node?_size (t : Fragment) : t.node? t.size = none :=
  Array.getElem?_eq_none (Nat.le_refl _)

theorem stored_setText {id : Nat} {n : Node} (h : Stored t.node? ((id, n) :: rest))
    (data : String) :
    Stored (t.setText id data).node? ((id, { n with kind := .text data }) :: rest) := by
  refine h.update ?_ fun x hx => ?_
  · rw [node?_setText, if_pos rfl, h.look_eq List.mem_cons_self]
    rfl
  · rw [node?_setText, if_neg hx]

theorem stored_attach {parent : Nat} {n : Node} (h : Stored t.node? ((parent, n) :: rest))
    (kind : Kind) :
    Stored (t.attach parent kind).node? ((t.size, ⟨kind, some parent, []⟩) ::
      (parent, { n with children := n.children ++ [t.size] }) :: rest) := by
  have hparent := h.look_eq List.mem_cons_self
  have hne : t.size ≠ parent := by
    rintro rfl
    rw [node?_size] at hparent
    cases hparent
  -- The parent gets its child first, while the new node is not there yet.
  have hlinked : Stored (fun x => if x = t.size then none else (t.attach parent kind).node? x)
      ((parent, { n with children := n.children ++ [t.size] }) :: rest) := by
    refine h.update ?_ fun x hx => ?_
    · rw [if_neg hne.symm, node?_attach, if_neg hne.symm, if_pos rfl, hparent]
      rfl
    · split
      · next hsize => rw [hsize, node?_size]
      · next hsize => rw [node?_attach, if_neg hsize, if_neg hx]
  refine hlinked.insert (if_pos rfl) ?_ fun x hx => (if_neg hx).symm
  rw [node?_attach, if_pos rfl]

/-- The arena under construction holds the levels, and the same elements are open. -/
structure Tracks (d : Draft) (n : Nest) : Prop where
  size : d.fragment.size = n.next
  opened : d.opened = Nest.opened n.inner n.outer
  base : (Nest.closeAll n.inner n.outer).id = root ∧
    (Nest.closeAll n.inner n.outer).kind = .root
  stored : Stored d.fragment.node? (Nest.records [] n.inner n.outer)

namespace Nest

/-- Which elements are open does not depend on the trees that are complete. -/
theorem opened_congr (outer : List Level) (l l' : Level) (hid : l.id = l'.id)
    (hkind : l.kind = l'.kind) : opened l outer = opened l' outer := by
  cases outer with
  | nil => rfl
  | cons m outer => rw [opened, opened, hid, hkind]

theorem base_congr (outer : List Level) (l l' : Level) (hid : l.id = l'.id)
    (hkind : l.kind = l'.kind) : (closeAll l outer).id = (closeAll l' outer).id ∧
      (closeAll l outer).kind = (closeAll l' outer).kind := by
  induction outer generalizing l l' with
  | nil => exact ⟨hid, hkind⟩
  | cons m outer ih => exact ih (m.push l.closed) (m.push l'.closed) rfl rfl

/-- The record of the innermost element, in front of the others. -/
theorem exists_records (l : Level) (outer : List Level) : ∃ parent rest, ∀ passed hole,
    records hole { l with passed := passed } outer =
      (l.id, ⟨l.kind, parent, passed.map place ++ hole⟩) ::
        (recordsAll Node.mk (some l.id) passed ++ rest) := by
  cases outer with
  | nil => exact ⟨none, [], fun passed hole => by rw [records, List.append_nil]⟩
  | cons m outer => exact ⟨some m.id, records [l.id] m outer, fun passed hole => rfl⟩

/-- Completing an element changes no record. -/
theorem records_close (l m : Level) (outer : List Level) :
    (records [] l (m :: outer)).Perm (records [] (m.push l.closed) outer) := by
  obtain ⟨parent, rest, hrecords⟩ := exists_records m outer
  rw [records, Level.push, hrecords m.passed, hrecords (m.passed ++ [l.closed])]
  refine List.perm_iff_count.mpr fun x => ?_
  simp only [Level.closed, Rose.recordsAll_append, Rose.recordsAll_node, Rose.recordsAll_nil,
    List.count_append, List.count_cons, List.map_append, List.map_cons, List.map_nil,
    Rose.place_node, List.append_nil]
  omega

theorem records_closeAll (l : Level) (outer : List Level) :
    (records [] l outer).Perm (records [] (closeAll l outer) []) := by
  induction outer generalizing l with
  | nil => exact List.Perm.refl _
  | cons m outer ih => exact (records_close l m outer).trans (ih _)

/-- Completing elements up to a name closes those that an end tag closes. -/
theorem closeTo_spec (name : String) (l : Level) (outer : List Level) :
    opened (closeTo name l outer).1 (closeTo name l outer).2 =
        ((opened l outer).dropWhile (·.2 ≠ name)).drop 1 ∧
      closeAll (closeTo name l outer).1 (closeTo name l outer).2 = closeAll l outer ∧
      (records [] l outer).Perm
        (records [] (closeTo name l outer).1 (closeTo name l outer).2) := by
  induction outer generalizing l with
  | nil => exact ⟨rfl, rfl, List.Perm.refl _⟩
  | cons m outer ih =>
    rw [closeTo]
    by_cases hname : l.kind.name = name
    · rw [if_pos hname]
      refine ⟨?_, rfl, records_close l m outer⟩
      rw [opened_congr outer (m.push l.closed) m rfl rfl]
      simp [opened, hname]
    · rw [if_neg hname]
      obtain ⟨hopened, hall, hrecords⟩ := ih (m.push l.closed)
      refine ⟨?_, hall, (records_close l m outer).trans hrecords⟩
      rw [hopened, opened_congr outer (m.push l.closed) m rfl rfl]
      simp [opened, hname]

/-- What completing an element keeps, an end tag keeps for all open elements. -/
theorem closeTo_of_push {P : Level → Prop} (hpush : ∀ l m, P l → P m → P (m.push l.closed))
    (name : String) {l : Level} {outer : List Level} (hl : P l) (houter : ∀ m ∈ outer, P m) :
    P (closeTo name l outer).1 ∧ ∀ m ∈ (closeTo name l outer).2, P m := by
  induction outer generalizing l with
  | nil => exact ⟨hl, houter⟩
  | cons m outer ih =>
    have hm := hpush l m hl (houter m List.mem_cons_self)
    have hrest : ∀ k ∈ outer, P k := fun k hk => houter k (List.mem_cons_of_mem _ hk)
    rw [closeTo]
    split
    · exact ⟨hm, hrest⟩
    · exact ih hm hrest

theorem closeAll_of_push {P : Level → Prop} (hpush : ∀ l m, P l → P m → P (m.push l.closed))
    {l : Level} {outer : List Level} (hl : P l) (houter : ∀ m ∈ outer, P m) :
    P (closeAll l outer) := by
  induction outer generalizing l with
  | nil => exact hl
  | cons m outer ih =>
    exact ih (hpush l m hl (houter m List.mem_cons_self))
      fun k hk => houter k (List.mem_cons_of_mem _ hk)

end Nest

namespace Tracks

variable {d : Draft} {n : Nest}

theorem place_eq (h : Tracks d n) : d.place = n.inner.id := by
  rw [Draft.place, h.opened]
  have hbase := h.base.1
  cases houter : n.outer with
  | nil =>
    rw [houter] at hbase
    exact hbase.symm
  | cons m outer => rfl

/-- A change in the innermost element alone keeps the open elements. -/
theorem of_inner (h : Tracks d n) {d' : Draft} {n' : Nest} (hopened : d'.opened = d.opened)
    (houter : n'.outer = n.outer) (hid : n'.inner.id = n.inner.id)
    (hkind : n'.inner.kind = n.inner.kind) (hsize : d'.fragment.size = n'.next)
    (hstored : Stored d'.fragment.node? (Nest.records [] n'.inner n'.outer)) : Tracks d' n' := by
  refine ⟨hsize, ?_, ?_, hstored⟩
  · rw [hopened, h.opened, houter]
    exact Nest.opened_congr n.outer _ _ hid.symm hkind.symm
  · have hbase := Nest.base_congr n.outer _ _ hid hkind
    rw [houter, hbase.1, hbase.2]
    exact h.base

/-- A new node without children is added on both sides. -/
theorem grow (h : Tracks d n) (kind : Kind) :
    Tracks { d with fragment := d.fragment.attach d.place kind } (n.grow kind) := by
  obtain ⟨parent, rest, hrecords⟩ := Nest.exists_records n.inner n.outer
  have hstored := h.stored
  rw [hrecords n.inner.passed [], ← h.place_eq] at hstored
  refine h.of_inner rfl rfl rfl rfl ?_ ?_
  · rw [size_attach, h.size]
    rfl
  · rw [Nest.grow, Level.push, hrecords, ← h.size, ← h.place_eq]
    refine (stored_attach hstored kind).perm (List.perm_iff_count.mpr fun x => ?_)
    simp only [Rose.recordsAll_append, Rose.recordsAll_node, Rose.recordsAll_nil,
      List.count_append, List.count_cons, List.map_append, List.map_cons, List.map_nil,
      Rose.place_node, List.append_nil, List.count_nil]
    omega

/-- The text at the end of the innermost element is replaced on both sides. -/
theorem setText (h : Tracks d n) {id : Nat} {old : String} {before below : Branches}
    (hpassed : n.inner.passed = before ++ [.node (id, .text old) below]) (new : String) :
    Tracks { d with fragment := d.fragment.setText id new }
      { n with inner := { n.inner with passed := before ++ [.node (id, .text new) below] } } := by
  obtain ⟨parent, rest, hrecords⟩ := Nest.exists_records n.inner n.outer
  have hstored := h.stored
  rw [hrecords n.inner.passed [], hpassed] at hstored
  have hfront : Stored d.fragment.node?
      ((id, ⟨.text old, some n.inner.id, below.map place⟩) ::
        (n.inner.id, ⟨n.inner.kind, parent, before.map place ++ [id]⟩) ::
        (recordsAll Node.mk (some n.inner.id) before ++
          (recordsAll Node.mk (some id) below ++ rest))) := by
    refine hstored.perm (List.perm_iff_count.mpr fun x => ?_)
    simp only [Rose.recordsAll_append, Rose.recordsAll_node, Rose.recordsAll_nil,
      List.count_append, List.count_cons, List.map_append, List.map_cons, List.map_nil,
      Rose.place_node, List.append_nil]
    omega
  refine h.of_inner rfl rfl rfl rfl ((size_setText _ _ _).trans h.size) ?_
  rw [hrecords]
  refine (stored_setText hfront new).perm (List.perm_iff_count.mpr fun x => ?_)
  simp only [Rose.recordsAll_append, Rose.recordsAll_node, Rose.recordsAll_nil,
    List.count_append, List.count_cons, List.map_append, List.map_cons, List.map_nil,
    Rose.place_node, List.append_nil]
  omega

theorem children_place (h : Tracks d n) :
    d.fragment.children d.place = n.inner.passed.map place := by
  obtain ⟨parent, rest, hrecords⟩ := Nest.exists_records n.inner n.outer
  have hstored := h.stored
  rw [hrecords n.inner.passed []] at hstored
  rw [children, h.place_eq, hstored.look_eq List.mem_cons_self, List.append_nil]
  rfl

theorem kind?_of_mem (h : Tracks d n) {id : Nat} {kind : Kind} {below : Branches}
    (hr : .node (id, kind) below ∈ n.inner.passed) : d.fragment.kind? id = some kind := by
  obtain ⟨parent, rest, hrecords⟩ := Nest.exists_records n.inner n.outer
  have hstored := h.stored
  rw [hrecords n.inner.passed []] at hstored
  have hmem : (id, ⟨kind, some n.inner.id, below.map place⟩) ∈
      recordsAll Node.mk (some n.inner.id) n.inner.passed := Rose.mem_recordsAll_of_mem hr
  rw [kind?, hstored.look_eq (List.mem_cons_of_mem _ (List.mem_append_left _ hmem))]
  rfl

theorem trailingText? (h : Tracks d n) : d.fragment.trailingText? d.place =
    match n.inner.passed.getLast? with
    | some (.node (id, .text data) _) => some (id, data)
    | _ => none := by
  rw [Fragment.trailingText?, h.children_place, List.getLast?_map]
  cases hlast : n.inner.passed.getLast? with
  | none => rfl
  | some r =>
    obtain ⟨⟨id, kind⟩, below⟩ := r
    have hkind := h.kind?_of_mem (List.mem_of_getLast? hlast)
    simp only [Option.map_some, Rose.place_node, hkind]
    cases kind <;> rfl

/-- Text is added on both sides. -/
theorem addText (h : Tracks d n) (text : String) :
    Tracks { d with fragment := d.fragment.attachText d.place text } (n.addText text) := by
  rw [attachText, Nest.addText]
  by_cases hempty : text = ""
  · rw [if_pos hempty, if_pos hempty]
    exact h
  · rw [if_neg hempty, if_neg hempty, h.trailingText?]
    have hgrow := h.grow (.text text)
    cases hlast : n.inner.passed.getLast? with
    | none => exact hgrow
    | some r =>
      obtain ⟨⟨id, kind⟩, below⟩ := r
      cases kind with
      | root => exact hgrow
      | tag name attributes => exact hgrow
      | comment data => exact hgrow
      | directive data => exact hgrow
      | text data =>
        obtain ⟨before, hpassed⟩ := List.getLast?_eq_some_iff.mp hlast
        have hset := h.setText hpassed (data ++ text)
        simpa [hpassed] using hset

/-- A new element is opened on both sides. -/
theorem startTag (h : Tracks d n) (name : String) (attributes : List (String × String)) :
    Tracks ⟨d.fragment.attach d.place (.tag name attributes),
        (d.fragment.size, name) :: d.opened⟩
      ⟨n.next + 1, ⟨n.next, .tag name attributes, []⟩, n.inner :: n.outer⟩ := by
  obtain ⟨parent, rest, hrecords⟩ := Nest.exists_records n.inner n.outer
  have hstored := h.stored
  rw [hrecords n.inner.passed [], ← h.place_eq] at hstored
  refine ⟨?_, ?_, ?_, ?_⟩
  · rw [size_attach, h.size]
  · rw [h.size, h.opened, Nest.opened]
    rfl
  · have hbase := Nest.base_congr n.outer
      (n.inner.push (Level.closed ⟨n.next, .tag name attributes, []⟩)) n.inner rfl rfl
    rw [Nest.closeAll, hbase.1, hbase.2]
    exact h.base
  · have hnew := stored_attach hstored (.tag name attributes)
    rw [Nest.records, hrecords n.inner.passed, ← h.size, ← h.place_eq]
    simpa using hnew

theorem add (h : Tracks d n) (token : Markup.Token) : Tracks (d.add token) (n.add token) := by
  cases token with
  | doctype text => exact h.grow _
  | comment text => exact h.grow _
  | text content => exact h.addText content
  | startTag name attributes selfClosing =>
    cases selfClosing with
    | true => exact h.grow _
    | false => exact h.startTag name _
  | endTag name =>
    rw [Draft.add, Nest.add, Draft.closeAt, h.opened]
    split
    · next hany =>
      obtain ⟨hopened, hall, hrecords⟩ := Nest.closeTo_spec name n.inner n.outer
      refine ⟨h.size, hopened.symm, ?_, h.stored.perm hrecords⟩
      rw [hall]
      exact h.base
    · exact ⟨h.size, rfl, h.base, h.stored⟩

theorem foldl (h : Tracks d n) (tokens : List Markup.Token) :
    Tracks (tokens.foldl Draft.add d) (tokens.foldl Nest.add n) := by
  induction tokens generalizing d n with
  | nil => exact h
  | cons token rest ih => exact ih (h.add token)

end Tracks

theorem tracks_empty : Tracks ⟨empty, []⟩ Nest.empty := by
  refine ⟨rfl, rfl, ⟨rfl, rfl⟩, .cons rfl .nil, ?_⟩
  exact List.nodup_singleton root

/-- The fragment of some tokens holds the trees that the tokens build. -/
theorem stored_ofTokens (tokens : List Markup.Token) :
    Stored (ofTokens tokens).node?
      (Rose.records Node.mk none (.node (root, .root) (build tokens))) := by
  have h := tracks_empty.foldl tokens
  have hall := h.stored.perm (Nest.records_closeAll _ _)
  obtain ⟨hid, hkind⟩ := h.base
  rw [Nest.records, List.append_nil, hid, hkind] at hall
  exact hall

/-- Every tree that tokens build is a node of the fragment. -/
theorem length_places_build_le (tokens : List Markup.Token) :
    (places (build tokens)).length ≤ (ofTokens tokens).size := by
  have h := stored_ofTokens tokens
  have hnodup := h.nodup
  rw [Rose.records, List.map_cons, Rose.map_fst_recordsAll] at hnodup
  have hsubset : places (build tokens) ⊆ List.range (ofTokens tokens).size := by
    intro id hid
    have hrecords : places (build tokens) =
        (recordsAll Node.mk (some root) (build tokens)).map Prod.fst :=
      (Rose.map_fst_recordsAll _ _).symm
    rw [hrecords] at hid
    obtain ⟨e, he, rfl⟩ := List.mem_map.mp hid
    have hnode := h.held e (List.mem_cons_of_mem _ he)
    exact List.mem_range.mpr (Array.getElem?_eq_some_iff.mp hnode).1
  simpa using (hnodup.of_cons.subperm hsubset).length_le

end LiveMarkup.Fragment
