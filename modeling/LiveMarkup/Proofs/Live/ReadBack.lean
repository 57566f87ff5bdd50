import LiveMarkup.Proofs.Fragment.Reading
import LiveMarkup.Proofs.Live.Written

/-!
# Markup is read back

The markup of a reachable tree is read as the trees that were written, up to what markup
cannot express: keys are not written, an empty text leaves no trace, two texts next to each
other are one, and of several attributes with one name only the first counts (`normal`).

No text and no value can make it more than that, because each node is written as a piece
of markup that is read in one way wherever it stands.
-/

namespace LiveMarkup.Live

open Fragment (ReadAs firstOfEach joinText joinTree writeElement)
open Rose (place recordsAll)

mutual

/-- What a tree is in markup, in front of what its later siblings are. -/
def normal : Rose Kind → List (Rose Fragment.Kind) → List (Rose Fragment.Kind)
  | .node (.text content) _, later => joinText content later
  | .node (.element name _ attributes) branches, later =>
    .node (.tag name (firstOfEach attributes)) (normalAll branches) :: later
  | .node .root branches, later => normalAll branches ++ later

/-- What some trees are in markup: empty texts are dropped, texts next to each other are put
together, and of the attributes with the same name the first is kept. -/
def normalAll : List (Rose Kind) → List (Rose Fragment.Kind)
  | [] => []
  | r :: rest => normal r (normalAll rest)

end

theorem normalAll_eq_foldr (l : List (Rose Kind)) : normalAll l = l.foldr normal [] := by
  induction l with
  | nil => rfl
  | cons r rest ih => rw [normalAll, ih, List.foldr_cons]

/-- An element meets no text in front of its later siblings. -/
theorem normal_element (name : String) (key : Option String) (attributes : List (String × String))
    (branches : List (Rose Kind)) : normal (.node (.element name key attributes) branches) =
      joinTree (.node (.tag name (firstOfEach attributes)) (normalAll branches)) := rfl

theorem mem_preorderAll_joinText {content : String} {later : List (Rose Fragment.Kind)}
    {kind : Fragment.Kind} (h : kind ∈ Rose.preorderAll (joinText content later)) :
    (∃ data, kind = .text data) ∨ kind ∈ Rose.preorderAll later := by
  rw [joinText] at h
  split at h
  · exact .inr h
  · unfold joinTree at h
    split at h
    · next heq =>
      cases heq
      rw [Rose.preorderAll, Rose.preorder, List.cons_append, List.mem_cons] at h
      rcases h with rfl | h
      · exact .inl ⟨_, rfl⟩
      · exact .inr (List.mem_append_right _ h)
    · rw [Rose.preorderAll, Rose.preorder, List.cons_append, List.mem_cons] at h
      rcases h with rfl | h
      · exact .inl ⟨_, rfl⟩
      · exact .inr h

mutual

theorem mem_preorderAll_normal {kind : Fragment.Kind} : ∀ (r : Rose Kind)
    (later : List (Rose Fragment.Kind)), kind ∈ Rose.preorderAll (normal r later) →
    (∃ name attributes, kind = .tag name attributes) ∨ (∃ data, kind = .text data) ∨
      kind ∈ Rose.preorderAll later
  | .node (.text content) _, later => fun h => .inr (mem_preorderAll_joinText h)
  | .node (.element name key attributes) branches, later => by
    intro h
    rw [normal, Rose.preorderAll, Rose.preorder, List.cons_append, List.mem_cons,
      List.mem_append] at h
    rcases h with rfl | h | h
    · exact .inl ⟨_, _, rfl⟩
    · exact (mem_preorderAll_normalAll branches h).imp_right .inl
    · exact .inr (.inr h)
  | .node .root branches, later => by
    intro h
    rw [normal, Rose.preorderAll_append, List.mem_append] at h
    rcases h with h | h
    · exact (mem_preorderAll_normalAll branches h).imp_right .inl
    · exact .inr (.inr h)

/-- There is nothing but tags and texts. -/
theorem mem_preorderAll_normalAll {kind : Fragment.Kind} : ∀ l : List (Rose Kind),
    kind ∈ Rose.preorderAll (normalAll l) →
    (∃ name attributes, kind = .tag name attributes) ∨ ∃ data, kind = .text data
  | [] => fun h => nomatch h
  | r :: rest => by
    intro h
    rcases mem_preorderAll_normal r _ h with h | h | h
    · exact .inl h
    · exact .inr h
    · exact mem_preorderAll_normalAll rest h

end

theorem toList_attributes (attributes : List (String × String)) :
    (String.join (attributes.map fun (name, value) =>
      " " ++ name ++ "=\"" ++ Markup.escape .value value ++ "\"")).toList =
      Markup.Token.writeAttributes attributes := by
  rw [String.toList_join, List.flatMap_map, Markup.Token.writeAttributes]
  refine List.flatMap_congr fun a _ => ?_
  simp [String.toList_append]

theorem toList_startTag (name : String) (attributes : List (String × String)) :
    (Tree.startTag name attributes).toList =
      '<' :: (name.toList ++ (Markup.Token.writeAttributes attributes ++ ['>'])) := by
  rw [← toList_attributes]
  simp [Tree.startTag]

theorem toList_tags (name : String) (attributes : List (String × String)) (body : List Char) :
    (Tree.startTag name attributes).toList ++ (body ++ (Tree.endTag name).toList) =
      writeElement name attributes body := by
  simp [toList_startTag, Tree.endTag, writeElement]

/-- Each node has names that are read back, has children that it admits and is no root. -/
inductive Writable : Rose Kind → Prop
  | node {kind : Kind} {branches : List (Rose Kind)} : kind ≠ .root → kind.Named →
      kind.Admits (branches.map fun r => r.label.text?) → (∀ r ∈ branches, Writable r) →
      Writable (.node kind branches)

/-- A raw-text element holds at most one text, which does not end it. -/
theorem Kind.Admits.rawText {name : String} {key : Option String}
    {attributes : List (String × String)} {branches : List (Rose Kind)}
    (h : (Kind.element name key attributes).Admits (branches.map fun r => r.label.text?))
    (hraw : Markup.isRawText name = true) : ∃ content,
      writtenAll true branches = content.toList ∧ normalAll branches = joinText content [] ∧
        Markup.endsRawText name content = false := by
  cases branches with
  | nil => exact ⟨"", rfl, rfl, Markup.endsRawText_of_splitRawText?_eq_none rfl⟩
  | cons r rest =>
    have htakes := h 0 r.label.text? rfl
    simp only [Kind.takes, hraw] at htakes
    cases rest with
    | cons s rest =>
      have hsecond := h 1 s.label.text? rfl
      simp [Kind.takes, hraw] at hsecond
    | nil =>
      obtain ⟨kind, below⟩ := r
      cases kind with
      | root => simp [Kind.text?] at htakes
      | element name key attributes => simp [Kind.text?] at htakes
      | text content =>
        refine ⟨content, ?_, rfl, ?_⟩
        · simp [writtenAll, written]
        · simpa [Kind.text?] using htakes.2

theorem Kind.Admits.eq_nil_of_isVoid {name : String} {key : Option String}
    {attributes : List (String × String)} {branches : List (Rose Kind)}
    (h : (Kind.element name key attributes).Admits (branches.map fun r => r.label.text?))
    (hvoid : Markup.isVoid name = true) : branches = [] := by
  cases branches with
  | nil => rfl
  | cons r rest =>
    have hcontainer := (h 0 r.label.text? rfl).1
    simp [Kind.isContainer, hvoid] at hcontainer

mutual

/-- A tree is read back from where it is written. -/
theorem readAs_written : ∀ r : Rose Kind, Writable r → ReadAs (written false r) (normal r)
  | .node kind branches, .node hroot hnamed hadmits hbranches => by
    cases kind with
    | root => exact absurd rfl hroot
    | text content => exact .text content
    | element name key attributes =>
      obtain ⟨hname, hattributes⟩ := hnamed
      rw [written, normal_element]
      cases hvoid : Markup.isVoid name with
      | true =>
        have hread := ReadAs.hollow hname hvoid hattributes
        rw [if_pos rfl, List.append_nil, toList_startTag, hadmits.eq_nil_of_isVoid hvoid]
        exact hread
      | false =>
        rw [if_neg Bool.false_ne_true, toList_tags]
        cases hraw : Markup.isRawText name with
        | true =>
          obtain ⟨content, hwritten, hnormal, hends⟩ := hadmits.rawText hraw
          have hread := ReadAs.rawText hraw hattributes hends
          rw [hwritten, hnormal]
          exact hread
        | false =>
          have hread := ReadAs.element hname hvoid hraw hattributes
            (readAs_writtenAll branches hbranches)
          rw [normalAll_eq_foldr]
          exact hread

theorem readAs_writtenAll : ∀ l : List (Rose Kind), (∀ r ∈ l, Writable r) →
    ReadAs (writtenAll false l) fun m => l.foldr normal m
  | [], _ => .nil
  | r :: rest, h =>
    (readAs_written r (h r List.mem_cons_self)).append
      (readAs_writtenAll rest fun s hs => h s (List.mem_cons_of_mem _ hs))

end

namespace Tree

variable {t : Tree}

mutual

/-- What a reachable tree holds can be written. -/
theorem writable_of_held (ht : WellLinked t) (hs : Serializable t) :
    ∀ (r : Rose (Handle × Kind)) (parent : Option Handle),
      Held t.node? (Rose.records Node.mk parent r) → r.label.2 ≠ .root → Writable (r.map Prod.snd)
  | .node (h, kind) branches, parent => by
    intro hheld hroot
    have hn := hheld _ List.mem_cons_self
    have hbelow : Held t.node? (recordsAll Node.mk (some h) branches) := hheld.tail
    rw [Rose.map]
    refine .node hroot (hs.named hn) ?_ (writableAll_of_held ht hs branches h hbelow)
    have hadmits := hs.admits hn
    have htexts : (branches.map place).map t.text? =
        (Rose.mapAll Prod.snd branches).map fun r => r.label.text? := by
      rw [Rose.mapAll_eq_map, List.map_map, List.map_map]
      refine List.map_congr_left fun r hr => ?_
      obtain ⟨⟨c, kind⟩, below⟩ := r
      exact text?_of_node? (hbelow _ (Rose.mem_recordsAll_of_mem hr))
    rwa [htexts] at hadmits

theorem writableAll_of_held (ht : WellLinked t) (hs : Serializable t) :
    ∀ (l : Branches) (parent : Handle), Held t.node? (recordsAll Node.mk (some parent) l) →
      ∀ r ∈ Rose.mapAll Prod.snd l, Writable r
  | [], _ => fun _ _ hr => nomatch hr
  | .node (h, kind) branches :: rest, parent => by
    intro hheld
    rw [recordsAll] at hheld
    have hroot : kind ≠ .root := by
      intro hkind
      have hn := hheld _ (List.mem_append_left _ List.mem_cons_self)
      have hparent := ht.parent?_root
      rw [← hs.eq_root hn hkind, parent?_of_node? hn] at hparent
      cases hparent
    have hfirst := writable_of_held ht hs (.node (h, kind) branches) (some parent) hheld.left hroot
    have hrest := writableAll_of_held ht hs rest parent hheld.right
    intro r hr
    rw [Rose.mapAll] at hr
    rcases List.mem_cons.mp hr with rfl | hr
    · exact hfirst
    · exact hrest r hr

end

theorem writable_outerContent (h : Reachable t) {n : Handle}
    (hn : n = .root ∨ (t.elementName? n).isSome = true) :
    ∀ r ∈ t.outerContent n, Writable r := by
  have ht := h.wellLinked
  have hs := h.serializable
  rw [outerContent]
  by_cases hroot : n = .root
  · subst hroot
    obtain ⟨children, hnode⟩ := ht.root
    have hheld := (stored_region ht (isLive_of_node? hnode)).held
    rw [if_pos rfl, content_of_held ht hheld]
    exact writableAll_of_held ht hs _ .root hheld.tail
  · obtain ⟨name, hname⟩ := Option.isSome_iff_exists.mp (hn.resolve_left hroot)
    obtain ⟨node, hnode, _⟩ := Option.bind_eq_some_iff.mp hname
    have hheld := (stored_region ht (isLive_of_node? hnode)).held
    have hkind : t.kindOf n ≠ .root := by
      rw [kindOf_of_node? hnode]
      exact fun hkind => hroot (hs.eq_root hnode hkind)
    rw [if_neg hroot, content_of_held ht hheld]
    intro r hr
    rw [List.mem_singleton.mp hr]
    exact writable_of_held ht hs _ _ hheld hkind

/-- The markup of the root and of every element is read as what it was written for, and as
nothing else: it has no comments and no directives, whatever the texts and the values are. -/
theorem Reachable.content_ofMarkup_outerMarkup (h : Reachable t) {n : Handle}
    (hn : n = .root ∨ (t.elementName? n).isSome = true) :
    (Fragment.ofMarkup (t.outerMarkup n)).content = normalAll (t.outerContent n) ∧
      ∀ kind ∈ Rose.preorderAll (Fragment.ofMarkup (t.outerMarkup n)).content,
        ∀ data, kind ≠ .comment data ∧ kind ≠ .directive data := by
  have hread := readAs_writtenAll (t.outerContent n) (writable_outerContent h hn)
  rw [← toList_outerMarkup h.wellLinked hn] at hread
  have hcontent := hread.content_ofMarkup
  rw [← normalAll_eq_foldr] at hcontent
  refine ⟨hcontent, fun kind hkind data => ?_⟩
  rw [hcontent] at hkind
  rcases mem_preorderAll_normalAll _ hkind with ⟨name, attributes, rfl⟩ | ⟨content, rfl⟩
  · exact ⟨by simp, by simp⟩
  · exact ⟨by simp, by simp⟩

/-- A tree with markup in a value and in its texts, a name given twice, an empty text
between two others and a script with an end tag that is not its own. -/
theorem content_ofMarkup_outerMarkup_tricky :
    let t := Tree.new.run [.begin .root,
      .perform (.openTag "p" (.explicit "k") [("a", "\"<&"), ("a", "2")]),
      .perform (.text "<!--&amp;"), .perform (.text ""), .perform (.text "-->"),
      .perform (.openTag "script" (.generated "k") []), .perform (.text "a<b&lt;</p>"),
      .finish (some .noTransaction)]
    (Fragment.ofMarkup (t.outerMarkup .root)).content =
      [.node (.tag "p" [("a", "\"<&")]) [.node (.text "<!--&amp;-->") [],
        .node (.tag "script" []) [.node (.text "a<b&lt;</p>") []]]] := by
  intro t
  rw [(Reachable.content_ofMarkup_outerMarkup (Reachable.new.run _) (.inl rfl)).1]
  rfl

end Tree

end LiveMarkup.Live
