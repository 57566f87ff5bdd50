import LiveMarkup.Proofs.Fragment.Content
import LiveMarkup.Proofs.Markup.Scan

/-!
# Reading pieces of markup

A piece of markup that is read in the same way wherever it stands adds something of its own
to the innermost open element, whatever is around it (`ReadAs`). Such pieces can be written
one after the other and inside each other, so what a text of markup is read as follows from
what its pieces are read as.
-/

namespace LiveMarkup.Fragment

open Markup (Place escape endsRawText isAttributeName isRawText isTagName isVoid)
open Markup.Token (scanList writeAttributes)

/-- Reading these characters adds `gain` to the innermost open element, whatever was read
before and whatever follows. -/
def ReadAs (cs : List Char) (gain : List (Rose Kind) → List (Rose Kind)) : Prop :=
  ∀ (rest : List Char) (n : Nest), ∃ n', n.Gains n' gain ∧
    (scanList (cs ++ rest)).foldl Nest.add n = (scanList rest).foldl Nest.add n'

/-- An element as it is written, with its body. -/
def writeElement (name : String) (attributes : List (String × String)) (body : List Char) :
    List Char :=
  '<' :: (name.toList ++ (writeAttributes attributes ++ '>' ::
    (body ++ '<' :: '/' :: (name.toList ++ ['>']))))

namespace ReadAs

variable {cs more : List Char} {gain gain' : List (Rose Kind) → List (Rose Kind)}
  {name : String} {attributes : List (String × String)}

theorem nil : ReadAs [] fun m => m := fun _ n => ⟨n, .refl n, rfl⟩

theorem append (h : ReadAs cs gain) (h' : ReadAs more gain') :
    ReadAs (cs ++ more) fun m => gain (gain' m) := by
  intro rest n
  obtain ⟨n', hgains, hread⟩ := h (more ++ rest) n
  obtain ⟨k, hmore, hrest⟩ := h' rest n'
  exact ⟨k, hgains.trans hmore, by rw [List.append_assoc, hread, hrest]⟩

/-- Escaped text is read as that text. -/
theorem text (s : String) : ReadAs (escape .content s).toList (joinText s) := by
  intro rest n
  refine ⟨_, Nest.gains_addText n s, ?_⟩
  rw [Markup.Token.scanList_escape, Nest.foldl_addText]

/-- The start tag of a void element is read as the element. -/
theorem hollow (hname : isTagName name = true) (hvoid : isVoid name = true)
    (hattributes : ∀ a ∈ attributes, isAttributeName a.1 = true) :
    ReadAs ('<' :: (name.toList ++ (writeAttributes attributes ++ ['>'])))
      (joinTree (.node (.tag name (firstOfEach attributes)) [])) := by
  intro rest n
  have hraw : isRawText name = false := by
    cases hraw : isRawText name with
    | false => rfl
    | true => rw [Markup.isVoid_eq_false_of_isRawText hraw] at hvoid; cases hvoid
  refine ⟨_, distinctAttributes_map_some attributes ▸ Nest.gains_hollow n name _, ?_⟩
  simp only [List.cons_append, List.append_assoc, List.nil_append]
  rw [Markup.Token.scanList_tag hname hraw hattributes, hvoid, List.foldl_cons]

/-- An element is read as that element, with what its body is read as. -/
theorem element (hname : isTagName name = true) (hvoid : isVoid name = false)
    (hraw : isRawText name = false) (hattributes : ∀ a ∈ attributes, isAttributeName a.1 = true)
    (h : ReadAs cs gain) : ReadAs (writeElement name attributes cs)
      (joinTree (.node (.tag name (firstOfEach attributes)) (gain []))) := by
  intro rest n
  have hend := Markup.Token.scanList_endTag (Markup.isAttributeName_of_isTagName hname) rest
  obtain ⟨n', hgains, hbody⟩ := h ('<' :: '/' :: (name.toList ++ '>' :: rest))
    (n.add (.startTag name (attributes.map fun a => (a.1, some a.2)) false))
  refine ⟨_, distinctAttributes_map_some attributes ▸ hgains.element, ?_⟩
  simp only [writeElement, List.cons_append, List.append_assoc, List.nil_append]
  rw [Markup.Token.scanList_tag hname hraw hattributes, hvoid, List.foldl_cons, hbody, hend,
    List.foldl_cons]

/-- A raw-text element is read as that element with its text as it stands. -/
theorem rawText (hraw : isRawText name = true)
    (hattributes : ∀ a ∈ attributes, isAttributeName a.1 = true) {s : String}
    (hs : endsRawText name s = false) : ReadAs (writeElement name attributes s.toList)
      (joinTree (.node (.tag name (firstOfEach attributes)) (joinText s []))) := by
  intro rest n
  have hgains := Nest.gains_addText
    (n.add (.startTag name (attributes.map fun a => (a.1, some a.2)) false)) s
  refine ⟨_, distinctAttributes_map_some attributes ▸ hgains.element, ?_⟩
  simp only [writeElement, List.cons_append, List.append_assoc, List.nil_append]
  rw [Markup.Token.scanList_rawText hraw hattributes hs, List.foldl_cons, Nest.foldl_addText,
    List.foldl_cons]

/-- A whole text of markup is read as the forest that it adds to nothing. -/
theorem content_ofMarkup {markup : String} (h : ReadAs markup.toList gain) :
    (ofMarkup markup).content = gain [] := by
  obtain ⟨n, hgains, hread⟩ := h [] Nest.empty
  rw [List.append_nil, Markup.Token.scanList_nil, List.foldl_nil] at hread
  rw [← hread] at hgains
  exact hgains.content_ofTokens

end ReadAs

end LiveMarkup.Fragment
