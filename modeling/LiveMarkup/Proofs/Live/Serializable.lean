import LiveMarkup.Proofs.Live.Invariant

/-!
# What a live tree may hold

Every call keeps a live tree such that its markup can be read back: names are names, texts
and void elements stay empty, and a raw-text element has at most one child, a text that
does not end it. The last two say that every child was taken by its parent at the index at
which it now stands (`Kind.Admits`), which is what the calls check. `MarkupSound` says all of
it by what the look-ups find.
-/

namespace LiveMarkup.Live

namespace Kind

/-- The names of an element and of its attributes are read back as they are. -/
def Named : Kind → Prop
  | .element name _ attributes =>
    Markup.isTagName name = true ∧ ∀ a ∈ attributes, Markup.isAttributeName a.1 = true
  | _ => True

/-- A node of this kind takes these children in this order. A child is given by its text, or
as `none` for an element. -/
def Admits (kind : Kind) (content : List (Option String)) : Prop :=
  ∀ i child, content[i]? = some child → kind.isContainer = true ∧ kind.takes i child = true

theorem admits_nil (kind : Kind) : kind.Admits [] := by
  intro i child h
  cases h

/-- What takes an element takes anything, anywhere. -/
theorem takes_of_takes_none {kind : Kind} {i : Nat} (h : kind.takes i none = true) (j : Nat)
    (child : Option String) : kind.takes j child = true := by
  cases kind with
  | element name key attributes =>
    simp only [takes, Option.any_none, Bool.and_false, Bool.or_false] at h
    simp [takes, h]
  | root => rfl
  | text content => rfl

theorem admits_of_takes_none {kind : Kind} {i : Nat} (hcontainer : kind.isContainer = true)
    (h : kind.takes i none = true) (content : List (Option String)) : kind.Admits content :=
  fun j child _ => ⟨hcontainer, takes_of_takes_none h j child⟩

/-- Only raw-text elements care for their children, and they have one at most. -/
theorem Admits.length_le_one {kind : Kind} {content : List (Option String)}
    (h : kind.Admits content) : content.length ≤ 1 ∨ kind.takes 0 none = true := by
  by_cases hlength : content.length ≤ 1
  · exact .inl hlength
  · obtain ⟨child, hchild⟩ : ∃ child, content[1]? = some child :=
      ⟨_, List.getElem?_eq_getElem (by omega)⟩
    have htakes := (h 1 child hchild).2
    cases kind with
    | element name key attributes =>
      simp only [takes, Nat.reduceBEq, Bool.false_and, Bool.or_false] at htakes
      exact .inr (by simp [takes, htakes])
    | root => exact .inr rfl
    | text content => exact .inr rfl

theorem Admits.sublist {kind : Kind} {content rest : List (Option String)}
    (h : kind.Admits content) (hrest : rest.Sublist content) : kind.Admits rest := by
  rcases h.length_le_one with hlength | htakes
  · cases rest with
    | nil => exact admits_nil kind
    | cons child rest =>
      have hle := hrest.length_le
      rw [hrest.eq_of_length_le (by simp only [List.length_cons] at hle ⊢; omega)]
      exact h
  · cases content with
    | nil =>
      rw [List.sublist_nil.mp hrest]
      exact admits_nil kind
    | cons child content => exact admits_of_takes_none (h 0 child rfl).1 htakes rest

/-- A last child may be added where it is taken. -/
theorem Admits.concat {kind : Kind} {content : List (Option String)} {child : Option String}
    (h : kind.Admits content) (hcontainer : kind.isContainer = true)
    (htakes : kind.takes content.length child = true) : kind.Admits (content ++ [child]) := by
  intro i c hc
  by_cases hi : i < content.length
  · rw [List.getElem?_append_left hi] at hc
    exact h i c hc
  · rw [List.getElem?_append_right (by omega)] at hc
    have hlt := (List.getElem?_eq_some_iff.mp hc).1
    simp only [List.length_cons, List.length_nil] at hlt
    have heq : i = content.length := by omega
    subst heq
    simp only [Nat.sub_self, List.getElem?_cons_zero, Option.some_inj] at hc
    exact ⟨hcontainer, hc ▸ htakes⟩

/-- A child may be replaced by one that is taken in its place. -/
theorem Admits.set {kind : Kind} {content : List (Option String)} {child : Option String}
    {i : Nat} (h : kind.Admits content) (hcontainer : kind.isContainer = true)
    (htakes : kind.takes i child = true) : kind.Admits (content.set i child) := by
  intro j c hc
  rw [List.getElem?_set] at hc
  split at hc
  · next hij =>
    subst hij
    split at hc
    · rw [Option.some_inj] at hc
      exact ⟨hcontainer, hc ▸ htakes⟩
    · cases hc
  · exact h j c hc

/-- A raw-text element takes a child at the front only. -/
theorem eq_zero_of_takes {kind : Kind} {i : Nat} {child : Option String}
    (h : kind.takes i child = true) (hraw : kind.takes 0 none = false) : i = 0 := by
  cases kind with
  | element name key attributes =>
    simp only [takes, Option.any_none, Bool.and_false, Bool.or_false] at h hraw
    simp [hraw] at h
    exact h.1
  | root => cases hraw
  | text content => cases hraw

theorem admits_singleton {kind : Kind} {child : Option String}
    (hcontainer : kind.isContainer = true) (htakes : kind.takes 0 child = true) :
    kind.Admits [child] :=
  (admits_nil kind).concat hcontainer htakes

theorem isContainer_of_text? {kind : Kind} {content : String} (h : kind.text? = some content) :
    kind.isContainer = false := by
  cases kind with
  | text content => rfl
  | root => cases h
  | element name key attributes => cases h

/-- The second kind is the first or, for an element, has another key and other attributes. -/
def Relabels (kind kind' : Kind) : Prop :=
  kind' = kind ∨ ∃ name key key' attributes attributes', kind = .element name key attributes ∧
    kind' = .element name key' attributes' ∧ ∀ a ∈ attributes', Markup.isAttributeName a.1 = true

namespace Relabels

variable {kind kind' : Kind}

theorem named (h : kind.Relabels kind') (hnamed : kind.Named) : kind'.Named := by
  rcases h with rfl | ⟨name, key, key', attributes, attributes', rfl, rfl, hattributes⟩
  · exact hnamed
  · exact ⟨hnamed.1, hattributes⟩

theorem text?_eq (h : kind.Relabels kind') : kind'.text? = kind.text? := by
  rcases h with rfl | ⟨name, key, key', attributes, attributes', rfl, rfl, _⟩
  · rfl
  · rfl

/-- The key and the attributes of an element do not matter for its children. -/
theorem admits (h : kind.Relabels kind') {content : List (Option String)}
    (hadmits : kind.Admits content) : kind'.Admits content := by
  rcases h with rfl | ⟨name, key, key', attributes, attributes', rfl, rfl, _⟩
  · exact hadmits
  · exact hadmits

theorem eq_root (h : kind.Relabels kind') (hroot : kind' = .root) : kind = .root := by
  rcases h with rfl | ⟨name, key, key', attributes, attributes', rfl, rfl, _⟩
  · exact hroot
  · cases hroot

end Relabels

end Kind

namespace Tree

open Patch (Outcome)

variable {t u : Tree}

/-- Everything in the tree can be written as markup and read back. -/
structure Serializable (t : Tree) : Prop where
  named : ∀ {h n}, t.node? h = some n → n.kind.Named
  admits : ∀ {h n}, t.node? h = some n → n.kind.Admits (n.children.map t.text?)
  eq_root : ∀ {h n}, t.node? h = some n → n.kind = .root → h = .root

/-- Changing the value at an element of a list without repetition changes one place. -/
theorem map_update_eq_set {α β : Type} [DecidableEq α] {l : List α} {a : α} {i : Nat} {b : β}
    {g : α → β} (hnodup : l.Nodup) (ha : l[i]? = some a) :
    (l.map fun x => if x = a then b else g x) = (l.map g).set i b := by
  refine List.ext_getElem? fun j => ?_
  have hlt := (List.getElem?_eq_some_iff.mp ha).1
  rw [List.getElem?_map, List.getElem?_set, List.getElem?_map, List.length_map]
  by_cases hij : i = j
  · subst hij
    rw [if_pos rfl, if_pos hlt, ha]
    simp
  · rw [if_neg hij]
    cases hj : l[j]? with
    | none => rfl
    | some x =>
      have hx : x ≠ a := by
        rintro rfl
        exact hij ((List.getElem?_inj hlt hnodup).mp (ha.trans hj.symm))
      simp [hx]

theorem text?_of_node? {h : Handle} {n : Node} (hn : t.node? h = some n) :
    t.text? h = n.kind.text? := by
  rw [text?, hn]
  rfl

theorem children_of_node? {h : Handle} {n : Node} (hn : t.node? h = some n) :
    t.children h = n.children := by
  rw [children, hn]
  rfl

theorem parent?_of_node? {h : Handle} {n : Node} (hn : t.node? h = some n) :
    t.parent? h = n.parent := by
  rw [parent?, hn]
  rfl

theorem kind_modify {h : Handle} {f : Node → Node} (x : Handle)
    (hf : ∀ n, (f n).kind = n.kind) :
    ((t.modify h f).node? x).map Node.kind = (t.node? x).map Node.kind := by
  rw [node?_modify]
  split
  · cases t.node? x <;> simp [hf]
  · rfl

theorem kind_detach (c x : Handle) :
    ((t.detach c).node? x).map Node.kind = (t.node? x).map Node.kind := by
  rw [detach]
  split
  · rfl
  · next p hp =>
    have hparent := kind_modify (f := fun n => { n with children := n.children.filter (· ≠ c) })
      (t := t) (h := p) x fun _ => rfl
    rw [← hparent]
    exact kind_modify x fun _ => rfl

theorem text?_congr {x : Handle} (hkind : (u.node? x).map Node.kind = (t.node? x).map Node.kind) :
    u.text? x = t.text? x := by
  have htext : ∀ t : Tree, t.text? x = ((t.node? x).map Node.kind).bind Kind.text? := by
    intro t
    rw [text?]
    cases t.node? x <;> rfl
  rw [htext, htext, hkind]

/-- A change of links leaves the texts. -/
theorem text?_modify {h : Handle} {f : Node → Node} (x : Handle)
    (hf : ∀ n, (f n).kind = n.kind) : (t.modify h f).text? x = t.text? x :=
  text?_congr (kind_modify x hf)

theorem text?_allocate_of_isLive (ht : WellLinked t) {kind : Kind} {x : Handle}
    (hx : t.isLive x = true) : (t.allocate kind).2.text? x = t.text? x := by
  have hne : x ≠ t.fresh := by
    rintro rfl
    rw [isLive, ht.node?_fresh] at hx
    cases hx
  rw [text?, ht.node?_allocate, if_neg hne, text?]

theorem WellLinked.isLive_of_mem_children (ht : WellLinked t) {h c : Handle} {n : Node}
    (hn : t.node? h = some n) (hc : c ∈ n.children) : t.isLive c = true := by
  rw [← children_of_node? hn] at hc
  exact isLive_of_parent? (ht.mem_children_iff.mp hc)

namespace Serializable

theorem setFrames (hs : Serializable t) (frames : List Frame) (running : Bool) :
    Serializable { t with frames := frames, running := running } :=
  ⟨hs.named, hs.admits, hs.eq_root⟩

/-- A new node has valid names and nothing below it. -/
theorem allocate (hs : Serializable t) (ht : WellLinked t) {kind : Kind} (hnamed : kind.Named)
    (hkind : kind ≠ .root) : Serializable (t.allocate kind).2 := by
  refine ⟨fun {h n} hn => ?_, fun {h n} hn => ?_, fun {h n} hn hroot => ?_⟩
  all_goals rw [ht.node?_allocate] at hn; split at hn
  · cases hn
    exact hnamed
  · exact hs.named hn
  · cases hn
    exact Kind.admits_nil kind
  · rw [List.map_congr_left fun c hc =>
      text?_allocate_of_isLive ht (ht.isLive_of_mem_children hn hc)]
    exact hs.admits hn
  · cases hn
    exact absurd hroot hkind
  · exact hs.eq_root hn hroot

/-- An element may get another key and other attributes. -/
theorem relabel (hs : Serializable t) {h : Handle} {f : Node → Node}
    (hchildren : ∀ n, (f n).children = n.children)
    (hkind : ∀ n, t.node? h = some n → n.kind.Relabels (f n).kind) :
    Serializable (t.modify h f) := by
  have hnode : ∀ {x m}, (t.modify h f).node? x = some m → ∃ n, t.node? x = some n ∧
      m.children = n.children ∧ n.kind.Relabels m.kind := by
    intro x m hm
    rw [node?_modify] at hm
    split at hm
    · next hx =>
      subst hx
      obtain ⟨n, hn, rfl⟩ := Option.map_eq_some_iff.mp hm
      exact ⟨n, hn, hchildren n, hkind n hn⟩
    · exact ⟨m, hm, rfl, .inl rfl⟩
  have htext : ∀ x, (t.modify h f).text? x = t.text? x := by
    intro x
    rw [text?, text?, node?_modify]
    split
    · next hx =>
      subst hx
      cases hn : t.node? x with
      | none => rfl
      | some n => exact (hkind n hn).text?_eq
    · rfl
  refine ⟨fun {x m} hm => ?_, fun {x m} hm => ?_, fun {x m} hm hroot => ?_⟩
  all_goals obtain ⟨n, hn, hc, hrelabels⟩ := hnode hm
  · exact hrelabels.named (hs.named hn)
  · rw [hc, List.map_congr_left fun c _ => htext c]
    exact hrelabels.admits (hs.admits hn)
  · exact hs.eq_root hn (hrelabels.eq_root hroot)

/-- The children of a node may change to any that it admits. -/
theorem relink (hs : Serializable t) {h : Handle} {f : Node → Node}
    (hkind : ∀ n, (f n).kind = n.kind)
    (hadmits : ∀ n, t.node? h = some n → n.kind.Admits ((f n).children.map t.text?)) :
    Serializable (t.modify h f) := by
  have hnode : ∀ {x m}, (t.modify h f).node? x = some m → ∃ n, t.node? x = some n ∧
      m.kind = n.kind ∧ n.kind.Admits (m.children.map t.text?) := by
    intro x m hm
    rw [node?_modify] at hm
    split at hm
    · next hx =>
      subst hx
      obtain ⟨n, hn, rfl⟩ := Option.map_eq_some_iff.mp hm
      exact ⟨n, hn, hkind n, hadmits n hn⟩
    · exact ⟨m, hm, rfl, hs.admits hm⟩
  refine ⟨fun {x m} hm => ?_, fun {x m} hm => ?_, fun {x m} hm hroot => ?_⟩
  all_goals obtain ⟨n, hn, hk, ha⟩ := hnode hm
  · exact hk ▸ hs.named hn
  · rw [List.map_congr_left fun c _ => text?_modify c hkind, hk]
    exact ha
  · exact hs.eq_root hn (hk ▸ hroot)

theorem detach (hs : Serializable t) (c : Handle) : Serializable (t.detach c) := by
  rw [Tree.detach]
  split
  · exact hs
  · next p hp =>
    have hcut : Serializable (t.modify p fun n =>
        { n with children := n.children.filter (· ≠ c) }) :=
      relink hs (fun _ => rfl) fun n hn =>
        (hs.admits hn).sublist (List.filter_sublist.map _)
    exact relink (f := fun n => { n with parent := none }) hcut (fun _ => rfl)
      fun n hn => hcut.admits hn

/-- A node may be put among the children of a parent that admits it there. -/
theorem link (hs : Serializable t) {p c : Handle} {index : Nat}
    (hadmits : ∀ n, t.node? p = some n → n.kind.Admits
      ((n.children.take index ++ c :: n.children.drop index).map t.text?)) :
    Serializable (t.link p index c) := by
  have hlinked : Serializable (t.modify p fun n =>
      { n with children := n.children.take index ++ c :: n.children.drop index }) :=
    relink hs (fun _ => rfl) hadmits
  exact relink hlinked (fun _ => rfl) fun n hn => hlinked.admits hn

open Classical in
theorem truncate (hs : Serializable t) (ht : WellLinked t) (h : Handle) (start : Nat) :
    Serializable (t.truncate h start) := by
  have hnode : ∀ {x m}, (t.truncate h start).node? x = some m → ∃ n, t.node? x = some n ∧
      m.kind = n.kind ∧ m.children.Sublist n.children := by
    intro x m hm
    rw [node?_truncate ht] at hm
    split at hm
    · cases hm
    · split at hm
      · next hx =>
        subst hx
        obtain ⟨n, hn, rfl⟩ := Option.map_eq_some_iff.mp hm
        exact ⟨n, hn, rfl, List.take_sublist _ _⟩
      · exact ⟨m, hm, rfl, .refl _⟩
  have htext : ∀ {x m}, (t.truncate h start).node? x = some m → ∀ c ∈ m.children,
      (t.truncate h start).text? c = t.text? c := by
    intro x m hm c hc
    obtain ⟨k, hk⟩ := node?_of_isLive ((ht.truncate h start).isLive_of_mem_children hm hc)
    obtain ⟨n, hn, hkind, _⟩ := hnode hk
    rw [text?_of_node? hk, text?_of_node? hn, hkind]
  refine ⟨fun {x m} hm => ?_, fun {x m} hm => ?_, fun {x m} hm hroot => ?_⟩
  all_goals obtain ⟨n, hn, hkind, hsub⟩ := hnode hm
  · exact hkind ▸ hs.named hn
  · rw [List.map_congr_left (htext hm), hkind]
    exact (hs.admits hn).sublist (hsub.map _)
  · exact hs.eq_root hn (hkind ▸ hroot)

/-- Texts and void elements have nothing below them. -/
theorem children_eq_nil (hs : Serializable t) {h : Handle} {n : Node} (hn : t.node? h = some n)
    (hcontainer : n.kind.isContainer = false) : n.children = [] := by
  cases hc : n.children with
  | nil => rfl
  | cons c rest =>
    have htaken := (hs.admits hn 0 (t.text? c) (by simp [hc])).1
    rw [hcontainer] at htaken
    cases htaken

theorem text?_modify_text {found : Handle} {old content : String}
    (hold : t.text? found = some old) (x : Handle) :
    (t.modify found fun m => { m with kind := .text content }).text? x =
      if x = found then some content else t.text? x := by
  rw [text?, node?_modify]
  split
  · next hx =>
    obtain ⟨m, hm, _⟩ := Option.bind_eq_some_iff.mp hold
    simp [hx, hm, Kind.text?]
  · rfl

/-- A text may take over another content that its parent takes in its place. -/
theorem rewrite (hs : Serializable t) (ht : WellLinked t) {p found : Handle} {i : Nat}
    {n : Node} {old content : String} (hp : t.node? p = some n)
    (hfound : n.children[i]? = some found) (hold : t.text? found = some old)
    (htakes : n.kind.takes i (some content) = true) :
    Serializable (t.modify found fun m => { m with kind := .text content }) := by
  have hmem : found ∈ t.children p := by
    rw [children_of_node? hp]
    exact List.mem_of_getElem? hfound
  refine ⟨fun {x m} hm => ?_, fun {x m} hm => ?_, fun {x m} hm hroot => ?_⟩
  all_goals rw [node?_modify] at hm; split at hm
  · obtain ⟨k, _, rfl⟩ := Option.map_eq_some_iff.mp hm
    trivial
  · exact hs.named hm
  · next hx =>
    obtain ⟨k, hk, rfl⟩ := Option.map_eq_some_iff.mp hm
    rw [← hx, text?_of_node? hk] at hold
    simp only [hs.children_eq_nil hk (Kind.isContainer_of_text? hold), List.map_nil]
    exact Kind.admits_nil _
  · rw [List.map_congr_left fun c _ => text?_modify_text hold c]
    by_cases hx : x = p
    · subst hx
      rw [hp, Option.some_inj] at hm
      subst hm
      have hnodup := ht.nodup_children x
      rw [children_of_node? hp] at hnodup
      rw [map_update_eq_set hnodup hfound]
      exact (hs.admits hp).set (hs.admits hp i (t.text? found) (by simp [hfound])).1 htakes
    · have hnone : ∀ c ∈ m.children, (if c = found then some content else t.text? c) =
          t.text? c := by
        intro c hc
        rw [if_neg]
        rintro rfl
        rw [← children_of_node? hm, ht.mem_children_iff] at hc
        rw [ht.mem_children_iff, hc, Option.some_inj] at hmem
        exact hx hmem
      rw [List.map_congr_left hnone]
      exact hs.admits hm
  · obtain ⟨k, _, rfl⟩ := Option.map_eq_some_iff.mp hm
    cases hroot
  · exact hs.eq_root hm hroot

theorem appendChild (hs : Serializable t) (ht : WellLinked t) {p c : Handle} {above below : Node}
    (hp : t.node? p = some above) (hc : t.node? c = some below)
    (hcheck : t.check p (above.children.filter (· ≠ c)).length below.kind.text? = .ok ()) :
    Serializable ((t.detach c).link p ((t.detach c).children p).length c) := by
  obtain ⟨n, hn, hcontainer, htakes⟩ := check_eq_ok_iff.mp hcheck
  rw [hp, Option.some_inj] at hn
  subst hn
  have htext : ∀ x, (t.detach c).text? x = t.text? x := fun x => text?_congr (kind_detach c x)
  refine (hs.detach c).link fun m hm => ?_
  have hchildren := children_of_node? hm
  rw [children_detach ht, children_of_node? hp] at hchildren
  have hkind := kind_detach (t := t) c p
  rw [hm, hp, Option.map_some, Option.map_some, Option.some_inj] at hkind
  rw [children_of_node? hm, List.take_length, List.drop_length, List.map_append, hkind,
    ← hchildren, List.map_congr_left fun x _ => htext x, List.map_singleton, htext,
    text?_of_node? hc]
  refine ((hs.admits hp).sublist (List.filter_sublist.map _)).concat hcontainer ?_
  rw [List.length_map]
  exact htakes

theorem mem_putAttribute {name value : String} {attributes : List (String × String)}
    {a : String × String} (ha : a ∈ putAttribute name value attributes) :
    a.1 = name ∨ a ∈ attributes := by
  induction attributes with
  | nil => exact .inl (by rw [List.mem_singleton.mp ha])
  | cons b rest ih =>
    rw [putAttribute] at ha
    split at ha
    · next hb =>
      rcases List.mem_cons.mp ha with rfl | ha
      · exact .inl hb
      · exact .inr (List.mem_cons_of_mem _ ha)
    · rcases List.mem_cons.mp ha with rfl | ha
      · exact .inr List.mem_cons_self
      · exact (ih ha).imp_right (List.mem_cons_of_mem _)

/-- An element may have any attributes that are names, and any key. -/
theorem relabelElement (hs : Serializable t) {h : Handle} {n : Node} {tag : String}
    {old key : Option String} {attributes attributes' : List (String × String)}
    (hn : t.node? h = some n) (hkind : n.kind = .element tag old attributes)
    (hnames : ∀ a ∈ attributes', a ∈ attributes ∨ Markup.isAttributeName a.1 = true) :
    Serializable (t.modify h fun n => { n with kind := .element tag key attributes' }) := by
  refine hs.relabel (fun _ => rfl) fun m hm => ?_
  rw [hn, Option.some_inj] at hm
  subst hm
  have hnamed := hs.named hn
  rw [hkind] at hnamed
  refine .inr ⟨tag, old, key, attributes, attributes', hkind, rfl, fun a ha => ?_⟩
  exact (hnames a ha).elim (hnamed.2 a) id

/-- A raw-text element is empty where no text stands at the front. -/
theorem children_eq_nil_of_rawText (hs : Serializable t) {p : Handle} {n : Node}
    (hn : t.node? p = some n) (hraw : n.kind.takes 0 none = false)
    (hplace : (t.children p)[0]?.filter (fun h => (t.text? h).isSome) = none) :
    n.children = [] := by
  cases hc : n.children with
  | nil => rfl
  | cons c rest =>
    rw [children_of_node? hn, hc, List.getElem?_cons_zero, Option.filter_eq_none_iff] at hplace
    have hnotext := hplace c rfl
    have htaken := (hs.admits hn 0 (t.text? c) (by simp [hc])).2
    rw [Bool.not_eq_true, Option.isSome_eq_false_iff, Option.isNone_iff_eq_none] at hnotext
    rw [hnotext, hraw] at htaken
    cases htaken

/-- A new node may be put where its parent takes it, unless a text stands there that it
would have to take over. -/
theorem insert (hs : Serializable t) (ht : WellLinked t) {kind : Kind} (hnamed : kind.Named)
    (hkind : kind ≠ .root) {p : Handle} {index : Nat}
    (hcheck : t.check p index kind.text? = .ok ())
    (hplace : kind.text?.isSome = true →
      (t.children p)[index]?.filter (fun h => (t.text? h).isSome) = none) :
    Serializable ((t.allocate kind).2.link p index t.fresh) := by
  obtain ⟨n, hn, hcontainer, htakes⟩ := check_eq_ok_iff.mp hcheck
  have hne : p ≠ t.fresh := by
    rintro rfl
    rw [ht.node?_fresh] at hn
    cases hn
  refine (hs.allocate ht hnamed hkind).link fun m hm => ?_
  rw [ht.node?_allocate, if_neg hne, hn, Option.some_inj] at hm
  subst hm
  cases hraw : n.kind.takes 0 none with
  | true => exact Kind.admits_of_takes_none hcontainer hraw _
  | false =>
    have hindex := Kind.eq_zero_of_takes htakes hraw
    subst hindex
    have htext : kind.text?.isSome = true := by
      cases hnone : kind.text? with
      | none =>
        rw [hnone, hraw] at htakes
        cases htakes
      | some s => rfl
    have hnew : (t.allocate kind).2.text? t.fresh = kind.text? := by
      rw [text?, ht.node?_allocate, if_pos rfl]
      rfl
    rw [hs.children_eq_nil_of_rawText hn hraw (hplace htext), List.take_nil, List.drop_nil,
      List.nil_append, List.map_singleton, hnew]
    exact Kind.admits_singleton hcontainer htakes

theorem claim (hs : Serializable t) (ht : WellLinked t) {frame : Frame} {name key : String}
    {h : Handle} (hcall : t.claim frame name key = (.ok h, u)) : Serializable u := by
  obtain ⟨hcheck, ⟨hfound, rfl⟩ | ⟨_, hname, _, rfl, rfl⟩⟩ := claim_cases hcall
  · refine hs.relink (fun _ => rfl) fun n hn => ?_
    obtain ⟨m, hm, hcontainer, htakes⟩ := check_eq_ok_iff.mp hcheck
    rw [hn, Option.some_inj] at hm
    subst hm
    exact Kind.admits_of_takes_none hcontainer htakes _
  · have hnamed : (Kind.element name (some key) []).Named := ⟨hname, by simp⟩
    exact hs.insert ht hnamed (by simp) hcheck (by simp [Kind.text?])

theorem replaceAttributes (hs : Serializable t) (h : Handle) {attributes : List (String × String)}
    (hnames : ∀ a ∈ attributes, Markup.isAttributeName a.1 = true) :
    Serializable (t.replaceAttributes h attributes) := by
  refine hs.relabel (fun n => ?_) fun n _ => ?_
  · cases n.kind <;> rfl
  · cases hkind : n.kind with
    | element name key attributes' =>
      exact .inr ⟨name, key, key, attributes', attributes, rfl, rfl, hnames⟩
    | root => exact .inl hkind
    | text content => exact .inl hkind

theorem called (hs : Serializable t) (ht : WellLinked t) {c : Call} (h : Called t c u) :
    Serializable u := by
  cases h with
  | refused => exact hs
  | createElement hname => exact hs.allocate ht ⟨hname, by simp⟩ (by simp)
  | createText => exact hs.allocate ht trivial (by simp)
  | appendChild hp hc hcheck => exact hs.appendChild ht hp hc hcheck
  | setAttribute hn hkind hname =>
    refine hs.relabelElement hn hkind fun a ha => ?_
    rcases mem_putAttribute ha with heq | ha
    · exact .inr (by rwa [heq])
    · exact .inl ha
  | setKey hn hkind => exact hs.relabelElement hn hkind fun _ => .inl
  | begin => exact hs.setFrames _ _
  | claim _ hclaim => exact hs.claim ht hclaim
  | openElement _ hclaim hnames =>
    exact ((hs.claim ht hclaim).replaceAttributes _ hnames).setFrames _ _
  | closeElement => exact (hs.truncate ht _ _).setFrames _ _
  | rewrite _ hcheck hfound =>
    obtain ⟨hmem, htext⟩ := Option.filter_eq_some_iff.mp hfound
    obtain ⟨old, hold⟩ := Option.isSome_iff_exists.mp htext
    obtain ⟨n, hn, _, htakes⟩ := check_eq_ok_iff.mp hcheck
    rw [children_of_node? hn] at hmem
    exact (hs.rewrite ht hn hmem hold htakes).setFrames _ _
  | @insertText _ _ content _ hcheck hplace =>
    have hnamed : (Kind.text content).Named := trivial
    exact (hs.insert ht hnamed (by simp) hcheck fun _ => hplace).setFrames _ _
  | skip => exact hs.setFrames _ _
  | abandon => exact hs.setFrames _ _
  | complete => exact (hs.truncate ht _ _).setFrames _ _

theorem call (hs : Serializable t) (ht : WellLinked t) (c : Call) :
    Serializable (t.call c).state :=
  hs.called ht (Tree.called t c)

end Serializable

theorem serializable_new : Serializable new := by
  have hnode : ∀ {h n}, new.node? h = some n → n = ⟨.root, none, []⟩ ∧ h = .root := by
    intro h n hn
    rw [node?_new] at hn
    split at hn
    · next hroot =>
      cases hn
      exact ⟨rfl, hroot⟩
    · cases hn
  refine ⟨fun hn => ?_, fun hn => ?_, fun hn _ => (hnode hn).2⟩
  · obtain ⟨rfl, _⟩ := hnode hn
    trivial
  · obtain ⟨rfl, _⟩ := hnode hn
    exact Kind.admits_nil _

theorem Reachable.serializable (h : Reachable t) : Serializable t := by
  induction h with
  | new => exact serializable_new
  | call c hr ih => exact ih.call hr.wellLinked c

/-- What holds of each node of a live tree at any time, so that its markup can be read
back. -/
structure MarkupSound (t : Tree) : Prop where
  isTagName : ∀ {h name}, t.elementName? h = some name → Markup.isTagName name = true
  isAttributeName : ∀ {h a}, a ∈ t.attributes h → Markup.isAttributeName a.1 = true
  children_text : ∀ {h content}, t.text? h = some content → t.children h = []
  children_void : ∀ {h name}, t.elementName? h = some name → Markup.isVoid name = true →
    t.children h = []
  children_rawText : ∀ {h name}, t.elementName? h = some name →
    name = "script" ∨ name = "style" → (t.children h).length ≤ 1 ∧ ∀ c ∈ t.children h,
      ∃ content, t.text? c = some content ∧ Markup.endsRawText name content = false
  eq_root : ∀ {h n}, t.node? h = some n → n.kind = .root → h = .root

theorem node?_of_elementName? {h : Handle} {name : String}
    (hname : t.elementName? h = some name) : ∃ key attributes parent children,
      t.node? h = some ⟨.element name key attributes, parent, children⟩ := by
  obtain ⟨⟨kind, parent, children⟩, hn, hkind⟩ := Option.bind_eq_some_iff.mp hname
  cases kind with
  | element name' key attributes =>
    cases hkind
    exact ⟨key, attributes, parent, children, hn⟩
  | root => cases hkind
  | text content => cases hkind

/-- A child of a raw-text element is its only one, and a text that does not end it. -/
theorem Serializable.children_rawText (hs : Serializable t) {h : Handle} {name : String}
    (hname : t.elementName? h = some name) (hraw : Markup.isRawText name = true) :
    (t.children h).length ≤ 1 ∧ ∀ c ∈ t.children h,
      ∃ content, t.text? c = some content ∧ Markup.endsRawText name content = false := by
  obtain ⟨key, attributes, parent, children, hn⟩ := node?_of_elementName? hname
  have hadmits := hs.admits hn
  rw [children_of_node? hn]
  refine ⟨?_, fun c hc => ?_⟩
  · have hlength := hadmits.length_le_one.resolve_right (by simp [Kind.takes, hraw])
    rwa [List.length_map] at hlength
  · obtain ⟨i, hi⟩ := List.mem_iff_getElem?.mp hc
    have htakes := (hadmits i (t.text? c) (by rw [List.getElem?_map, hi]; rfl)).2
    simp only [Kind.takes, hraw, Bool.not_true, Bool.false_or, Bool.and_eq_true] at htakes
    cases htext : t.text? c with
    | none => simp [htext] at htakes
    | some content => exact ⟨content, rfl, by simpa [htext] using htakes.2⟩

/-- Whatever calls are made, and wherever they fail, what a live tree holds can be written
as markup and read back. -/
theorem Reachable.markupSound (h : Reachable t) : MarkupSound t := by
  have hs := h.serializable
  refine ⟨fun {x name} hname => ?_, fun {x a} ha => ?_, fun {x content} htext => ?_,
    fun {x name} hname hvoid => ?_, fun {x name} hname hraw => ?_, hs.eq_root⟩
  · obtain ⟨key, attributes, parent, children, hn⟩ := node?_of_elementName? hname
    exact (hs.named hn).1
  · rw [Tree.attributes] at ha
    cases hn : t.node? x with
    | none => simp [hn] at ha
    | some n =>
      obtain ⟨kind, parent, children⟩ := n
      cases kind with
      | element name key attributes =>
        simp only [hn, Option.map_some] at ha
        exact (hs.named hn).2 a ha
      | root => simp [hn] at ha
      | text content => simp [hn] at ha
  · obtain ⟨n, hn, hkind⟩ := Option.bind_eq_some_iff.mp htext
    rw [children_of_node? hn]
    exact hs.children_eq_nil hn (Kind.isContainer_of_text? hkind)
  · obtain ⟨key, attributes, parent, children, hn⟩ := node?_of_elementName? hname
    rw [children_of_node? hn]
    exact hs.children_eq_nil hn (by simp [Kind.isContainer, hvoid])
  · exact hs.children_rawText hname (Markup.isRawText_iff.mpr hraw)

/-- A script that is refused a second text, an element, and a text that would end it. A
second transaction has its text take over another content, and a third one fails of an
attribute name. -/
theorem markupSound_after_refusals :
    let calls : List Call :=
      [.begin .root, .perform (.openTag "script" (.explicit "k") [("type", "x")]),
        .perform (.text "a<b"), .perform (.text "more"), .finish (some (.rawTextContent ⟨1, 0⟩)),
        .createElement "BR", .appendChild ⟨1, 0⟩ ⟨3, 0⟩, .begin ⟨1, 0⟩,
        .perform (.text "</Script >"), .perform (.text "c"), .finish none, .begin .root,
        .perform (.openTag "script" (.explicit "k") [("X", "")]), .finish (some (.invalidName "X"))]
    (Tree.new.run calls).children ⟨1, 0⟩ = [⟨2, 0⟩] ∧
      (Tree.new.run calls).text? ⟨2, 0⟩ = some "c" ∧ MarkupSound (Tree.new.run calls) := by
  refine ⟨by decide, by decide, ?_⟩
  exact Reachable.markupSound (Reachable.new.run _)

end Tree

end LiveMarkup.Live
