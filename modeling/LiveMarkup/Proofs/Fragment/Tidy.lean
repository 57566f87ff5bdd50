import LiveMarkup.Proofs.Fragment.Content
import Mathlib.Data.List.Chain

/-!
# Trees that markup builds are tidy

Text that is added joins the text in front of it, and empty text adds nothing. Of the
attributes of a tag, one for each name is kept. So whatever the tokens are, in the trees
that they build no text is empty or stands next to another one, and no tag has two
attributes with one name (`Tidy`).
-/

namespace LiveMarkup.Fragment

/-- Whether this is the kind of a text. -/
def Kind.isText : Kind → Bool
  | .text _ => true
  | _ => false

/-- Not both of the two trees are texts. -/
def Apart (r s : Rose Kind) : Prop := r.label.isText = false ∨ s.label.isText = false

/-- A node of this kind is in order with these branches, as far as the node itself goes. -/
def Kind.Neat (branches : List (Rose Kind)) : Kind → Prop
  | .text data => data ≠ "" ∧ branches = []
  | .tag _ attributes => (attributes.map Prod.fst).Nodup
  | _ => True

/-- No text is empty or stands next to another one, and each attribute has its own name. -/
inductive Tidy : Rose Kind → Prop
  | node {kind : Kind} {branches : List (Rose Kind)} : kind.Neat branches →
      (∀ r ∈ branches, Tidy r) → branches.IsChain Apart → Tidy (.node kind branches)

theorem Tidy.neat {kind : Kind} {branches : List (Rose Kind)} (h : Tidy (.node kind branches)) :
    kind.Neat branches := by
  cases h with
  | node hneat _ _ => exact hneat

theorem Tidy.branches {kind : Kind} {branches : List (Rose Kind)}
    (h : Tidy (.node kind branches)) :
    (∀ r ∈ branches, Tidy r) ∧ branches.IsChain Apart := by
  cases h with
  | node _ hbranches hapart => exact ⟨hbranches, hapart⟩

theorem nodup_distinctAttributes (attributes : List (String × Option String)) :
    ((distinctAttributes attributes).map Prod.fst).Nodup := by
  induction attributes with
  | nil => exact List.nodup_nil
  | cons a rest ih =>
    rw [distinctAttributes, List.map_cons, List.nodup_cons]
    refine ⟨fun hmem => ?_, ih.sublist (List.filter_sublist.map Prod.fst)⟩
    obtain ⟨b, hb, hname⟩ := List.mem_map.mp hmem
    simpa [hname] using (List.mem_filter.mp hb).2

theorem firstOfEach_eq_self {attributes : List (String × String)}
    (h : (attributes.map Prod.fst).Nodup) : firstOfEach attributes = attributes := by
  induction attributes with
  | nil => rfl
  | cons a rest ih =>
    rw [List.map_cons, List.nodup_cons] at h
    rw [firstOfEach, ih h.2, List.filter_eq_self.mpr]
    intro b hb
    simp only [ne_eq, decide_not, Bool.not_eq_true', decide_eq_false_iff_not]
    exact fun hname => h.1 (hname ▸ List.mem_map_of_mem hb)

/-- Between trees that are apart, there is no seam to close. -/
theorem joinTree_of_apart {r : Rose Kind} {l : List (Rose Kind)} (h : ∀ s ∈ l.head?, Apart r s) :
    joinTree r l = r :: l := by
  unfold joinTree
  split
  · rcases h _ rfl with htext | htext
    · cases htext
    · cases htext
  · rfl

theorem joinText_of_apart {data : String} (hdata : data ≠ "") {l : List (Rose Kind)}
    (h : ∀ s ∈ l.head?, Apart (.node (.text data) []) s) :
    joinText data l = .node (.text data) [] :: l := by
  rw [joinText, if_neg hdata, joinTree_of_apart h]

/-- Text goes behind any other tree, and into one that is a text. -/
theorem tidy_glue_text {trees : List (Rose Kind)} (heach : ∀ r ∈ trees, Tidy r)
    (hapart : trees.IsChain Apart) {s : String} (hs : s ≠ "") :
    (∀ r ∈ glue trees [.node (.text s) []], Tidy r) ∧
      (glue trees [.node (.text s) []]).IsChain Apart := by
  have hnew : ∀ data : String, Tidy (.node (.text (data ++ s)) []) :=
    fun data => .node ⟨by simp [hs], rfl⟩ nofun .nil
  rcases trees.eq_nil_or_concat' with rfl | ⟨before, ⟨kind, below⟩, rfl⟩
  · refine ⟨fun r hr => ?_, .singleton _⟩
    rw [List.mem_singleton.mp hr]
    exact .node ⟨hs, rfl⟩ nofun .nil
  · rw [glue_append (List.cons_ne_nil _ []), glue_singleton]
    have hlast := heach (.node kind below) (by simp)
    have hbefore : ∀ r ∈ before, Tidy r := fun r hr => heach r (by simp [hr])
    by_cases htext : ∃ data, kind = .text data
    · obtain ⟨data, rfl⟩ := htext
      obtain ⟨_, rfl⟩ := hlast.neat
      rw [List.isChain_append] at hapart
      refine ⟨fun r hr => ?_, List.isChain_append.mpr ⟨hapart.1, .singleton _, fun r hr q hq => ?_⟩⟩
      · rcases List.mem_append.mp hr with hr | hr
        · exact hbefore r hr
        · rw [List.mem_singleton.mp hr]
          exact hnew data
      · -- The text that grows is as far from the tree in front of it as before.
        cases hq
        exact hapart.2.2 r hr (.node (.text data) []) rfl
    · have hkind : ∀ data, kind ≠ .text data := fun data hdata => htext ⟨data, hdata⟩
      rw [joinTree_of_ne_text hkind, List.append_cons]
      refine ⟨fun r hr => ?_, List.isChain_append.mpr ⟨hapart, .singleton _, fun r hr q _ => ?_⟩⟩
      · rcases List.mem_append.mp hr with hr | hr
        · exact heach r hr
        · rw [List.mem_singleton.mp hr]
          exact .node ⟨hs, rfl⟩ nofun .nil
      · rw [List.getLast?_concat] at hr
        cases hr
        refine .inl ?_
        cases kind with
        | text data => exact absurd rfl (hkind data)
        | root => rfl
        | tag name attributes => rfl
        | comment data => rfl
        | directive data => rfl

/-- An open element whose complete trees are tidy, and which will be in order with any. -/
structure Level.Tidy (l : Level) : Prop where
  neat : ∀ branches, l.kind.Neat branches
  each : ∀ r ∈ l.content, Fragment.Tidy r
  apart : l.content.IsChain Apart

theorem Level.tidy_of_neat {id : Nat} {kind : Kind} (h : ∀ branches, kind.Neat branches) :
    Level.Tidy ⟨id, kind, []⟩ := ⟨h, nofun, .nil⟩

/-- A tree that is no text goes behind any other. -/
theorem Level.Tidy.push {l : Level} (h : l.Tidy) {r : Rose (Nat × Kind)} {kind : Kind}
    {below : List (Rose Kind)} (hr : r.map Prod.snd = .node kind below)
    (hkind : kind.isText = false) (htidy : Fragment.Tidy (.node kind below)) :
    (l.push r).Tidy := by
  refine ⟨h.neat, fun s hs => ?_, ?_⟩
  · rw [content_push, hr] at hs
    rcases List.mem_append.mp hs with hs | hs
    · exact h.each s hs
    · exact List.mem_singleton.mp hs ▸ htidy
  · rw [content_push, hr, List.isChain_append]
    refine ⟨h.apart, .singleton _, fun s _ k hk => .inr ?_⟩
    cases hk
    exact hkind

/-- An open element completes the one that is open inside it. -/
theorem Level.Tidy.complete (l m : Level) (hl : l.Tidy) (hm : m.Tidy) :
    (m.push l.closed).Tidy := by
  have hkind : l.kind.isText = false := by
    cases hl' : l.kind with
    | text data =>
      have hneat := hl.neat [.node .root []]
      rw [hl'] at hneat
      cases hneat.2
    | root => rfl
    | tag name attributes => rfl
    | comment data => rfl
    | directive data => rfl
  exact hm.push rfl hkind (.node (hl.neat _) hl.each hl.apart)

namespace Nest

/-- All open elements are tidy. -/
def Tidy (n : Nest) : Prop := ∀ l ∈ n.inner :: n.outer, l.Tidy

variable {n : Nest}

theorem tidy_cons {next : Nat} {l : Level} {outer : List Level} (hl : l.Tidy)
    (houter : ∀ m ∈ outer, m.Tidy) : Tidy ⟨next, l, outer⟩ := by
  intro m hm
  rcases List.mem_cons.mp hm with rfl | hm
  · exact hl
  · exact houter m hm

theorem Tidy.inner (h : n.Tidy) : n.inner.Tidy := h n.inner List.mem_cons_self

theorem Tidy.outer (h : n.Tidy) : ∀ m ∈ n.outer, m.Tidy :=
  fun m hm => h m (List.mem_cons_of_mem _ hm)

theorem Tidy.grow (h : n.Tidy) {kind : Kind} (hkind : kind.isText = false)
    (hneat : kind.Neat []) : (n.grow kind).Tidy :=
  tidy_cons (h.inner.push rfl hkind (.node hneat nofun .nil)) h.outer

theorem Tidy.addText (h : n.Tidy) (text : String) : (n.addText text).Tidy := by
  by_cases htext : text = ""
  · rw [Nest.addText, if_pos htext]
    exact h
  · have hgains := n.gains_addText text
    obtain ⟨heach, hapart⟩ := tidy_glue_text h.inner.each h.inner.apart htext
    rw [← content_addText n htext] at heach hapart
    intro m hm
    rw [hgains.outer] at hm
    rcases List.mem_cons.mp hm with rfl | hm
    · exact ⟨hgains.kind ▸ h.inner.neat, heach, hapart⟩
    · exact h.outer m hm

/-- No token leaves an open element that is not tidy. -/
theorem Tidy.add (h : n.Tidy) (token : Markup.Token) : (n.add token).Tidy := by
  cases token with
  | doctype text => exact h.grow rfl trivial
  | comment text => exact h.grow rfl trivial
  | text content => exact h.addText content
  | startTag name attributes selfClosing =>
    have hnames := nodup_distinctAttributes attributes
    cases selfClosing with
    | true => exact h.grow rfl hnames
    | false => exact tidy_cons (Level.tidy_of_neat fun _ => hnames) h
  | endTag name =>
    rw [Nest.add]
    split
    · obtain ⟨hinner, houter⟩ := closeTo_of_push Level.Tidy.complete name h.inner h.outer
      exact tidy_cons hinner houter
    · exact h

theorem Tidy.foldl (h : n.Tidy) (tokens : List Markup.Token) : (tokens.foldl Nest.add n).Tidy := by
  induction tokens generalizing n with
  | nil => exact h
  | cons token rest ih => exact ih (h.add token)

end Nest

/-- What tokens build is tidy, whatever the tokens are. -/
theorem tidy_content_ofTokens (tokens : List Markup.Token) :
    (∀ r ∈ (ofTokens tokens).content, Tidy r) ∧ (ofTokens tokens).content.IsChain Apart := by
  have hempty : Nest.Tidy .empty := Nest.tidy_cons (Level.tidy_of_neat fun _ => trivial) nofun
  have hall := hempty.foldl tokens
  have hroot := Nest.closeAll_of_push Level.Tidy.complete hall.inner hall.outer
  rw [content_ofTokens]
  exact ⟨hroot.each, hroot.apart⟩

end LiveMarkup.Fragment
