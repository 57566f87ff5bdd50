import LiveMarkup.Fragment.OfTokens
import LiveMarkup.Rose

/-!
# Fragments as trees

The fragments of interest are those grown from a lone root by `append` and `appendText`,
in any order and at any nodes. Their links describe a forest, which is what a fragment
means; the arena is how it is stored. Building from tokens grows a fragment in this way
too, since an element is open only while it is a container (`grown_ofTokens`).
-/

namespace LiveMarkup.Fragment

/-- The fragments that appending leads to. A refused call leads nowhere. -/
inductive Grown : Fragment → Prop where
  | empty : Grown Fragment.empty
  | append {t u : Fragment} {parent id : Nat} {kind : Kind} :
      Grown t → t.append parent kind = .ok (id, u) → Grown u
  | appendText {t u : Fragment} {parent : Nat} {id : Option Nat} {text : String} :
      Grown t → t.appendText parent text = .ok (id, u) → Grown u

/-- The trees below the root, given by the indices of their nodes. -/
def forest (t : Fragment) : List (Rose Nat) :=
  (t.children root).map (Rose.unfold t.children t.size)

/-- Whether a node can have children. -/
def isContainerAt (t : Fragment) (id : Nat) : Bool := (t.kind? id).any Kind.isContainer

theorem append_eq_ok {t : Fragment} {parent : Nat} {kind : Kind} (hkind : kind ≠ .root)
    (hparent : t.isContainerAt parent = true) :
    t.append parent kind = .ok (t.size, t.attach parent kind) := by
  unfold isContainerAt at hparent
  cases h : t.kind? parent with
  | none => simp [h] at hparent
  | some parentKind =>
    rw [h, Option.any_some] at hparent
    simp [append, hkind, h, hparent]

theorem kind?_attach {t : Fragment} {parent id : Nat} {kind : Kind} (h : id < t.size) :
    (t.attach parent kind).kind? id = t.kind? id := by
  have hne : id ≠ t.nodes.size := Nat.ne_of_lt h
  simp only [kind?, node?, attach, Array.getElem?_push, Array.size_modify, if_neg hne,
    Array.getElem?_modify]
  split
  · rw [Option.map_map]
    rfl
  · rfl

theorem kind?_attach_size (t : Fragment) (parent : Nat) (kind : Kind) :
    (t.attach parent kind).kind? t.size = some kind := by
  simp [kind?, node?_attach_size]

theorem lt_size_of_isContainerAt {t : Fragment} {id : Nat} (h : t.isContainerAt id = true) :
    id < t.size := by
  unfold isContainerAt kind? node? at h
  by_cases hid : id < t.nodes.size
  · exact hid
  · simp [hid] at h

/-- Adding a node leaves the containers what they are. -/
theorem isContainerAt_attach {t : Fragment} {parent id : Nat} {kind : Kind}
    (h : t.isContainerAt id = true) : (t.attach parent kind).isContainerAt id = true := by
  rw [isContainerAt, kind?_attach (lt_size_of_isContainerAt h)]
  exact h

/-- Changing a text leaves the containers what they are. -/
theorem isContainerAt_setText {t : Fragment} {id last : Nat} {old new : String}
    (hlast : t.kind? last = some (.text old)) (h : t.isContainerAt id = true) :
    (t.setText last new).isContainerAt id = true := by
  have hne : last ≠ id := by
    rintro rfl
    rw [isContainerAt, hlast] at h
    cases h
  simp only [isContainerAt, kind?, node?, setText, Array.getElem?_modify, if_neg hne]
  exact h

theorem kind?_of_trailingText? {t : Fragment} {parent last : Nat} {data : String}
    (h : t.trailingText? parent = some (last, data)) : t.kind? last = some (.text data) := by
  unfold trailingText? at h
  split at h
  · cases h
  · split at h
    · next hkind => cases h; exact hkind
    · cases h

namespace Draft

/-- A draft that has only grown, and whose open elements are containers. -/
structure Sound (d : Draft) : Prop where
  grown : Grown d.fragment
  root : d.fragment.isContainerAt Fragment.root = true
  opened : ∀ e ∈ d.opened, d.fragment.isContainerAt e.1 = true

theorem Sound.place {d : Draft} (h : d.Sound) : d.fragment.isContainerAt d.place = true := by
  unfold Draft.place
  cases hd : d.opened with
  | nil => simpa using h.root
  | cons e rest => simpa using h.opened e (by simp [hd])

theorem Sound.attach {d : Draft} (h : d.Sound) {kind : Kind} (hkind : kind ≠ .root) :
    Sound { d with fragment := d.fragment.attach d.place kind } where
  grown := .append h.grown (append_eq_ok hkind h.place)
  root := isContainerAt_attach h.root
  opened e he := isContainerAt_attach (h.opened e he)

theorem Sound.attachText {d : Draft} (h : d.Sound) (text : String) :
    Sound { d with fragment := d.fragment.attachText d.place text } := by
  unfold Fragment.attachText
  split
  · exact h
  · next hne =>
    have hplace := h.place
    split
    · next last data htrail =>
      refine ⟨?_, isContainerAt_setText (kind?_of_trailingText? htrail) h.root,
        fun e he => isContainerAt_setText (kind?_of_trailingText? htrail) (h.opened e he)⟩
      refine @Grown.appendText _ _ d.place (some last) text h.grown ?_
      cases hkind : d.fragment.kind? d.place with
      | none => simp [isContainerAt, hkind] at hplace
      | some kind => simp [appendText, hne, hkind, htrail]
    · exact h.attach (by simp)

theorem mem_of_mem_closeAt {name : String} {opened : List (Nat × String)} {e : Nat × String}
    (h : e ∈ closeAt name opened) : e ∈ opened := by
  unfold closeAt at h
  split at h
  · exact (List.dropWhile_suffix _).subset (List.mem_of_mem_drop h)
  · exact h

theorem Sound.add {d : Draft} (h : d.Sound) (token : Markup.Token) : (d.add token).Sound := by
  cases token with
  | doctype text => exact h.attach (by simp)
  | comment text => exact h.attach (by simp)
  | text content => exact h.attachText content
  | startTag name attributes selfClosing =>
    have hattach := @Sound.attach d h (.tag name (distinctAttributes attributes)) (by simp)
    refine ⟨hattach.grown, hattach.root, fun e he => ?_⟩
    simp only [Draft.add] at he ⊢
    split at he
    · exact hattach.opened e he
    · rcases List.mem_cons.1 he with rfl | he
      · simp [isContainerAt, kind?_attach_size, Kind.isContainer]
      · exact hattach.opened e he
  | endTag name => exact ⟨h.grown, h.root, fun e he => h.opened e (mem_of_mem_closeAt he)⟩

theorem sound_empty : Sound ⟨Fragment.empty, []⟩ :=
  ⟨.empty, by simp [isContainerAt, kind?, node?, Fragment.empty, Fragment.root, Kind.isContainer],
    fun _ he => absurd he (List.not_mem_nil)⟩

end Draft

/-- Building from tokens only ever appends where appending is allowed. -/
theorem grown_ofTokens (tokens : List Markup.Token) : Grown (ofTokens tokens) := by
  unfold ofTokens
  suffices h : ∀ d : Draft, d.Sound → (tokens.foldl Draft.add d).Sound from
    (h _ Draft.sound_empty).grown
  induction tokens with
  | nil => exact fun d h => h
  | cons token rest ih => exact fun d h => ih _ (h.add token)

end LiveMarkup.Fragment
