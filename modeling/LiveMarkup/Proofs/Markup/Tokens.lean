import LiveMarkup.Markup.Token
import LiveMarkup.Proofs.Markup.Name
import LiveMarkup.Proofs.Markup.RawText
import Mathlib.Data.List.TakeWhile

/-!
# What the scanner lets through

Whatever the markup is, the names in its start tags are names, void elements are
self-closing, and the start tag of a raw-text element is followed by its whole body and its
end tag. These are the facts about a list of tokens on which building a tree and compiling
it rely; `Regular` states them along the list.
-/

namespace LiveMarkup.Markup.Token

/-- Whether the token opens an element. -/
def isStartTag : Token → Bool
  | .startTag _ _ _ => true
  | _ => false

/-- The start tags of a list are well formed, and raw-text elements are complete. -/
inductive Regular : List Token → Prop
  | nil : Regular []
  | other {token : Token} {rest : List Token} :
      token.isStartTag = false → Regular rest → Regular (token :: rest)
  | startTag {name : String} {attributes : List (String × Option String)} {selfClosing : Bool}
      {rest : List Token} : isTagName name = true →
      (∀ a ∈ attributes, isAttributeName a.1 = true) →
      (isVoid name = true → selfClosing = true) → (isRawText name = true → selfClosing = true) →
      Regular rest → Regular (.startTag name attributes selfClosing :: rest)
  | rawText {name : String} {attributes : List (String × Option String)} {body : List Char}
      {rest : List Token} : isRawText name = true →
      (∀ a ∈ attributes, isAttributeName a.1 = true) →
      endsRawText name (String.ofList body) = false → Regular rest →
      Regular (.startTag name attributes false :: (ofText body ++ .endTag name :: rest))

namespace Regular

variable {first rest : List Token}

theorem append (h : Regular first) (hrest : Regular rest) : Regular (first ++ rest) := by
  induction h with
  | nil => exact hrest
  | other htoken _ ih => exact .other htoken ih
  | startTag hname hattributes hvoid hraw _ ih => exact .startTag hname hattributes hvoid hraw ih
  | rawText hname hattributes hbody _ ih =>
    rw [List.cons_append, List.append_assoc, List.cons_append]
    exact .rawText hname hattributes hbody ih

theorem tail_of_text {s : String} (h : Regular (.text s :: rest)) : Regular rest := by
  cases h with
  | other _ h => exact h

/-- Texts that meet do not matter. -/
theorem prepend (h : Regular first) (hrest : Regular rest) :
    Regular (Token.prepend first rest) := by
  unfold Token.prepend
  split
  · exact .other rfl hrest.tail_of_text
  · exact h.append hrest

end Regular

theorem regular_ofText (cs : List Char) : Regular (ofText cs) := by
  rw [ofText]
  split
  · exact .nil
  · exact .other rfl .nil

theorem isAttributeName_of_mem_attributes {cs : List Char} {a : String × Option String}
    (ha : a ∈ (attributes cs).1) : isAttributeName a.1 = true := by
  fun_induction attributes cs with
  | case1 => cases ha
  | case2 => cases ha
  | case3 => cases ha
  | case4 c cs _ _ hname name found others selfClosing rest hrest ih =>
    rw [hrest] at ih
    rcases List.mem_cons.mp ha with rfl | ha
    · refine isAttributeName_ofList (List.cons_ne_nil c _) fun d hd => ?_
      rcases List.mem_cons.mp hd with rfl | hd
      · exact hname
      · exact List.mem_takeWhile_imp hd
    · exact ih ha
  | case5 c cs _ _ hname ih => exact ih ha

theorem isTagName_of_isAlpha {c : Char} (hc : c.isAlpha = true) (cs : List Char) :
    isTagName (String.ofList (((c :: cs).takeWhile isNameChar).map Char.toLower)) = true := by
  rw [List.takeWhile_cons_of_pos (isNameChar_of_isAlpha hc)]
  exact isTagName_ofList hc fun d hd => List.mem_takeWhile_imp hd

theorem regular_startTagAt {c : Char} {cs : List Char} (hc : c.isAlpha = true) :
    Regular (startTagAt (c :: cs)).1 := by
  have hname := isTagName_of_isAlpha hc cs
  have hattributes : ∀ a ∈ (attributes ((c :: cs).dropWhile isNameChar)).1,
      isAttributeName a.1 = true := fun a ha => isAttributeName_of_mem_attributes ha
  simp only [startTagAt]
  split
  · next hraw =>
    rw [Bool.and_eq_true, Bool.not_eq_true'] at hraw
    obtain ⟨hraw, hopen⟩ := hraw
    rw [hopen, rawBody]
    split
    · next body rest hsplit => exact .rawText hraw hattributes (endsRawText_body hsplit) .nil
    · next hnone =>
      exact .rawText hraw hattributes (endsRawText_of_splitRawText?_eq_none hnone) .nil
  · next hraw =>
    refine .startTag hname hattributes (fun hvoid => by simp [hvoid]) (fun h => ?_) .nil
    rw [h, Bool.true_and, Bool.not_eq_true', Bool.not_eq_false] at hraw
    exact hraw

theorem regular_markupAt (cs : List Char) : Regular (markupAt cs).1 := by
  unfold markupAt
  split
  · unfold commentAt
    split <;> exact .other rfl .nil
  · split
    · unfold doctypeAt
      split
      · exact .other rfl .nil
      · exact .nil
    · split
      · exact .other rfl .nil
      · next c rest _ _ =>
        split
        · simp only [endTagAt]
          split
          · exact .nil
          · exact .other rfl .nil
        · split
          · next hc => exact regular_startTagAt hc
          · exact .other rfl .nil

theorem regular_step (c : Char) (cs : List Char) : Regular (step c cs).1 := by
  rw [step]
  split
  · exact regular_markupAt cs
  · exact regular_ofText _

/-- The tokens of any markup are regular. -/
theorem regular_scanList (cs : List Char) : Regular (scanList cs) := by
  fun_induction scanList cs with
  | case1 => exact .nil
  | case2 c cs ih => exact (regular_step c cs).prepend ih

end LiveMarkup.Markup.Token
