import LiveMarkup.Proofs.Fragment.Nest
import LiveMarkup.Proofs.Markup.Tokens

/-!
# Trees that a live tree takes

The trees that markup builds satisfy what the checks of a live tree ask for: names are
names, void elements are empty, and raw-text elements hold at most one text, which does not
end them. An end tag may close elements at any time, but never one of a raw-text element
while its body is read, because the scanner gives the body and its end tag in one piece.
-/

namespace LiveMarkup.Fragment

/-- A node of this kind may have these branches in a live tree. -/
def Kind.Holds (branches : Branches) : Kind → Prop
  | .tag name attributes =>
    Markup.isTagName name = true ∧ (∀ a ∈ attributes, Markup.isAttributeName a.1 = true) ∧
      (Markup.isVoid name = true → branches = []) ∧
      (Markup.isRawText name = true → branches = [] ∨ ∃ id text below,
        branches = [.node (id, .text text) below] ∧ Markup.endsRawText name text = false)
  | _ => True

/-- A live tree takes this tree, wherever it takes elements. -/
inductive Playable : Rose (Nat × Kind) → Prop
  | node {id : Nat} {kind : Kind} {branches : Branches} :
      kind.Holds branches → (∀ r ∈ branches, Playable r) → Playable (.node (id, kind) branches)

theorem Playable.holds {id : Nat} {kind : Kind} {branches : Branches}
    (h : Playable (.node (id, kind) branches)) : kind.Holds branches := by
  cases h with
  | node h _ => exact h

theorem Playable.branches {id : Nat} {kind : Kind} {branches : Branches}
    (h : Playable (.node (id, kind) branches)) : ∀ r ∈ branches, Playable r := by
  cases h with
  | node _ h => exact h

theorem Playable.leaf {id : Nat} {kind : Kind} (h : kind.Holds []) :
    Playable (.node (id, kind) []) :=
  .node h fun _ hr => absurd hr List.not_mem_nil

/-- An open element that takes any child, with playable trees so far. -/
structure Level.Ready (l : Level) : Prop where
  holds : ∀ branches, l.kind.Holds branches
  passed : ∀ r ∈ l.passed, Playable r

theorem Level.ready_of_holds {id : Nat} {kind : Kind} (h : ∀ branches, kind.Holds branches) :
    Level.Ready ⟨id, kind, []⟩ :=
  ⟨h, fun _ hr => absurd hr List.not_mem_nil⟩

theorem Level.Ready.push {l : Level} (h : l.Ready) {r : Rose (Nat × Kind)} (hr : Playable r) :
    (l.push r).Ready := by
  refine ⟨h.holds, fun s hs => ?_⟩
  rcases List.mem_append.mp hs with hs | hs
  · exact h.passed s hs
  · exact List.mem_singleton.mp hs ▸ hr

theorem Level.Ready.closed {l : Level} (h : l.Ready) : Playable l.closed :=
  .node (h.holds _) h.passed

namespace Nest

/-- All open elements take any child. -/
def Ready (n : Nest) : Prop := ∀ l ∈ n.inner :: n.outer, l.Ready

variable {n : Nest}

theorem ready_cons {next : Nat} {l : Level} {outer : List Level} (hl : l.Ready)
    (houter : ∀ m ∈ outer, m.Ready) : Ready ⟨next, l, outer⟩ := by
  intro m hm
  rcases List.mem_cons.mp hm with rfl | hm
  · exact hl
  · exact houter m hm

theorem Ready.inner (h : n.Ready) : n.inner.Ready := h n.inner List.mem_cons_self

theorem Ready.outer (h : n.Ready) : ∀ m ∈ n.outer, m.Ready :=
  fun m hm => h m (List.mem_cons_of_mem _ hm)

theorem Ready.grow (h : n.Ready) {kind : Kind} (hkind : kind.Holds []) : (n.grow kind).Ready :=
  ready_cons (h.inner.push (.leaf hkind)) h.outer

theorem Ready.addText (h : n.Ready) (text : String) : (n.addText text).Ready := by
  rw [Nest.addText]
  split
  · exact h
  · split
    · next id data below hlast =>
      have hold := h.inner.passed _ (List.mem_of_getLast? hlast)
      refine ready_cons ⟨h.inner.holds, fun r hr => ?_⟩ h.outer
      rcases List.mem_append.mp hr with hr | hr
      · exact h.inner.passed r ((List.dropLast_sublist _).subset hr)
      · rw [List.mem_singleton.mp hr]
        exact .node trivial hold.branches
    · exact h.grow trivial

theorem Ready.endTag (h : n.Ready) (name : String) : (n.add (.endTag name)).Ready := by
  rw [Nest.add]
  split
  · obtain ⟨hinner, houter⟩ :=
      closeTo_of_push (fun _ _ hl hm => hm.push hl.closed) name h.inner h.outer
    exact ready_cons hinner houter
  · exact h

theorem mem_distinctAttributes {attributes : List (String × Option String)}
    {a : String × String} (ha : a ∈ distinctAttributes attributes) :
    ∃ b ∈ attributes, b.1 = a.1 := by
  induction attributes with
  | nil => cases ha
  | cons b rest ih =>
    obtain ⟨name, value⟩ := b
    rw [distinctAttributes] at ha
    rcases List.mem_cons.mp ha with rfl | ha
    · exact ⟨_, List.mem_cons_self, rfl⟩
    · obtain ⟨b, hb, heq⟩ := ih (List.mem_of_mem_filter ha)
      exact ⟨b, List.mem_cons_of_mem _ hb, heq⟩

/-- An end tag with the name of the innermost element closes that. -/
theorem add_endTag (next : Nat) (l m : Level) (outer : List Level) :
    add ⟨next, l, m :: outer⟩ (.endTag l.kind.name) = ⟨next, m.push l.closed, outer⟩ := by
  simp [add, opened, closeTo]

/-- A raw-text element is added in one piece. -/
theorem foldl_rawText (n : Nest) (name : String) (attributes : List (String × Option String))
    (body : List Char) : ∃ next branches,
      (branches = [] ∨
        branches = [Rose.node (n.next + 1, Kind.text (String.ofList body)) []]) ∧
      (Markup.Token.ofText body ++ [Markup.Token.endTag name]).foldl add
          (n.add (.startTag name attributes false)) =
        ⟨next, n.inner.push (.node (n.next, .tag name (distinctAttributes attributes)) branches),
          n.outer⟩ := by
  have hopen : n.add (.startTag name attributes false) = ⟨n.next + 1,
      ⟨n.next, .tag name (distinctAttributes attributes), []⟩, n.inner :: n.outer⟩ := rfl
  have hend := fun next l => add_endTag next l n.inner n.outer
  cases body with
  | nil => exact ⟨n.next + 1, [], .inl rfl, hend _ ⟨n.next, .tag name _, []⟩⟩
  | cons c body =>
    refine ⟨n.next + 2, _, .inr rfl, ?_⟩
    have hne : String.ofList (c :: body) ≠ "" := by simp
    have htext : (n.add (.startTag name attributes false)).add
        (.text (String.ofList (c :: body))) = ⟨n.next + 2, ⟨n.next,
          .tag name (distinctAttributes attributes),
          [.node (n.next + 1, .text (String.ofList (c :: body))) []]⟩, n.inner :: n.outer⟩ := by
      rw [hopen, add, addText, if_neg hne]
      rfl
    change ((n.add (.startTag name attributes false)).add _).add (.endTag name) = _
    rw [htext]
    exact hend _ ⟨n.next, .tag name _, _⟩

/-- A raw-text element with the body that it was read with. -/
theorem playable_rawText (id : Nat) {name : String} (hraw : Markup.isRawText name = true)
    {attributes : List (String × String)}
    (hattributes : ∀ a ∈ attributes, Markup.isAttributeName a.1 = true) {text : String}
    (htext : Markup.endsRawText name text = false) {child : Nat} {branches : Branches}
    (hbranches : branches = [] ∨ branches = [.node (child, .text text) []]) :
    Playable (.node (id, .tag name attributes) branches) := by
  refine .node ⟨Markup.isTagName_of_isRawText hraw, hattributes, fun hvoid => ?_, fun _ => ?_⟩ ?_
  · rw [Markup.isVoid_eq_false_of_isRawText hraw] at hvoid
    cases hvoid
  · rcases hbranches with rfl | rfl
    · exact .inl rfl
    · exact .inr ⟨_, _, _, rfl, htext⟩
  · intro r hr
    rcases hbranches with rfl | rfl
    · exact absurd hr List.not_mem_nil
    · rw [List.mem_singleton.mp hr]
      exact .leaf trivial

/-- Regular tokens keep all open elements such that they take any child. -/
theorem Ready.foldl {tokens : List Markup.Token} (htokens : Markup.Token.Regular tokens)
    (h : n.Ready) : (tokens.foldl add n).Ready := by
  have hnames : ∀ {attributes : List (String × Option String)},
      (∀ a ∈ attributes, Markup.isAttributeName a.1 = true) →
      ∀ a ∈ distinctAttributes attributes, Markup.isAttributeName a.1 = true := by
    intro attributes hall a ha
    obtain ⟨b, hb, heq⟩ := mem_distinctAttributes ha
    exact heq ▸ hall b hb
  induction htokens generalizing n with
  | nil => exact h
  | @other token rest htoken _ ih =>
    refine ih ?_
    cases token with
    | doctype text => exact h.grow trivial
    | comment text => exact h.grow trivial
    | text content => exact h.addText content
    | startTag name attributes selfClosing => cases htoken
    | endTag name => exact h.endTag name
  | @startTag name attributes selfClosing rest hname hattributes hvoid hraw _ ih =>
    refine ih ?_
    rw [Nest.add]
    cases selfClosing with
    | true => exact h.grow ⟨hname, hnames hattributes, fun _ => rfl, fun _ => .inl rfl⟩
    | false =>
      refine ready_cons (Level.ready_of_holds fun branches => ?_) h
      exact ⟨hname, hnames hattributes, fun hv => absurd (hvoid hv) Bool.false_ne_true,
        fun hr => absurd (hraw hr) Bool.false_ne_true⟩
  | @rawText name attributes body rest hraw hattributes hbody _ ih =>
    obtain ⟨next, branches, hbranches, hadded⟩ := foldl_rawText n name attributes body
    have hplayable := playable_rawText n.next hraw (hnames hattributes) hbody hbranches
    rw [List.foldl_cons, ← List.singleton_append, ← List.append_assoc, List.foldl_append, hadded]
    exact ih (ready_cons (h.inner.push hplayable) h.outer)

end Nest

/-- What regular tokens build is playable. -/
theorem playable_build {tokens : List Markup.Token} (htokens : Markup.Token.Regular tokens) :
    ∀ r ∈ build tokens, Playable r := by
  have hempty : Nest.Ready .empty := Nest.ready_cons (Level.ready_of_holds fun _ => trivial)
    fun _ hm => absurd hm List.not_mem_nil
  have hall := hempty.foldl htokens
  exact (Nest.closeAll_of_push (fun _ _ hl hm => hm.push hl.closed) hall.inner hall.outer).passed

end LiveMarkup.Fragment
