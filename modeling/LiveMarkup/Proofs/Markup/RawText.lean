import LiveMarkup.Markup.RawText
import LiveMarkup.Proofs.Markup.Name

/-!
# Where raw text ends

The search for an end tag finds the leftmost one. What stands before it does not end the
element, and a text that does not end the element does not do so either when an end tag
follows it: no end tag begins inside one and ends behind it.
-/

namespace LiveMarkup

namespace Text

variable {rest? : List Char → Option (List Char)} {cs before rest : List Char}

/-- A search fails when the recogniser fails everywhere. -/
theorem splitFirst?_eq_none_iff :
    splitFirst? rest? cs = none ↔ ∀ tail, tail <:+ cs → rest? tail = none := by
  induction cs with
  | nil => simp [splitFirst?]
  | cons c cs ih =>
    rw [splitFirst?]
    cases hfound : rest? (c :: cs) with
    | some found =>
      refine iff_of_false (by simp) fun hall => ?_
      rw [hall _ (List.suffix_refl _)] at hfound
      cases hfound
    | none =>
      simp only [Option.map_eq_none_iff, ih]
      constructor
      · intro hall tail htail
        rcases List.suffix_cons_iff.mp htail with rfl | htail
        · exact hfound
        · exact hall tail htail
      · intro hall tail htail
        exact hall tail (htail.trans (List.suffix_cons c cs))

/-- A search that succeeds has found a match, and none further left. -/
theorem of_splitFirst?_eq_some (h : splitFirst? rest? cs = some (before, rest)) :
    ∃ found, cs = before ++ found ∧ rest? found = some rest ∧
      ∀ tail, tail <:+ before → tail ≠ [] → rest? (tail ++ found) = none := by
  induction cs generalizing before with
  | nil =>
    obtain ⟨r, hr, heq⟩ := Option.map_eq_some_iff.mp h
    cases heq
    refine ⟨[], rfl, hr, fun tail htail hne => ?_⟩
    exact absurd (List.suffix_nil.mp htail) hne
  | cons c cs ih =>
    rw [splitFirst?] at h
    split at h
    · next r hr =>
      cases h
      refine ⟨c :: cs, rfl, hr, fun tail htail hne => ?_⟩
      exact absurd (List.suffix_nil.mp htail) hne
    · next hnone =>
      obtain ⟨⟨b, r⟩, hsplit, heq⟩ := Option.map_eq_some_iff.mp h
      cases heq
      obtain ⟨found, rfl, hfound, hleft⟩ := ih hsplit
      refine ⟨found, rfl, hfound, fun tail htail hne => ?_⟩
      rcases List.suffix_cons_iff.mp htail with rfl | htail
      · exact hnone
      · exact hleft tail htail hne

/-- A search stops at the leftmost match. -/
theorem splitFirst?_append {found : List Char} (hfound : rest? found = some rest)
    (hleft : ∀ tail, tail <:+ before → tail ≠ [] → rest? (tail ++ found) = none) :
    splitFirst? rest? (before ++ found) = some (before, rest) := by
  induction before with
  | nil =>
    cases found with
    | nil => rw [List.append_nil, splitFirst?, hfound, Option.map_some]
    | cons c cs => rw [List.nil_append, splitFirst?, hfound]
  | cons c before ih =>
    have hsplit := ih fun tail htail => hleft tail (htail.trans (List.suffix_cons c before))
    have hnone := hleft (c :: before) (List.suffix_refl _) (List.cons_ne_nil c before)
    rw [List.cons_append] at hnone
    rw [List.cons_append, splitFirst?, hnone, hsplit, Option.map_some]

/-- A word found at the start of an input is found there however the input goes on. -/
theorem afterWord?_append {word more : List Char} (h : afterWord? word cs = some rest) :
    afterWord? word (cs ++ more) = some (rest ++ more) := by
  induction word generalizing cs with
  | nil =>
    cases h
    rfl
  | cons w word ih =>
    cases cs with
    | nil => cases h
    | cons c cs =>
      rw [afterWord?] at h
      rw [List.cons_append, afterWord?]
      split at h
      · next hc => rw [if_pos hc, ih h]
      · cases h

/-- A word in lower case is found where it stands. -/
theorem afterWord?_self {word : List Char} (hword : ∀ c ∈ word, c.toLower = c)
    (more : List Char) : afterWord? word (word ++ more) = some more := by
  induction word with
  | nil => rfl
  | cons w word ih =>
    rw [List.cons_append, afterWord?, if_pos (hword w List.mem_cons_self)]
    exact ih fun c hc => hword c (List.mem_cons_of_mem _ hc)

/-- A word without `<` does not go on behind one. -/
theorem afterWord?_of_append_lt {word more : List Char} (hword : '<' ∉ word)
    (h : afterWord? word (cs ++ '<' :: more) = some rest) :
    ∃ r, afterWord? word cs = some r ∧ rest = r ++ '<' :: more := by
  induction word generalizing cs with
  | nil =>
    cases h
    exact ⟨cs, rfl, rfl⟩
  | cons w word ih =>
    rw [List.mem_cons, not_or] at hword
    obtain ⟨hw, hword⟩ := hword
    cases cs with
    | nil =>
      rw [List.nil_append, afterWord?, if_neg] at h
      · cases h
      · exact fun hlower => hw hlower
    | cons c cs =>
      rw [List.cons_append, afterWord?] at h
      rw [afterWord?]
      split at h
      · next hc =>
        rw [if_pos hc]
        exact ih hword h
      · cases h

end Text

namespace Markup

variable {element : String} {cs rest : List Char}

theorem afterEndTag?_eq_some_iff : afterEndTag? element cs = some rest ↔
    ∃ r, Text.afterWord? ('<' :: '/' :: element.toList) cs = some r ∧
      r.dropWhile Text.isSpace = '>' :: rest := by
  rw [afterEndTag?]
  constructor
  · intro h
    split at h
    · next r hr =>
      cases h
      obtain ⟨tail, htail, heq⟩ := Option.map_eq_some_iff.mp hr
      exact ⟨tail, htail, heq⟩
    · cases h
  · rintro ⟨r, hr, hclose⟩
    simp only [hr, Option.map_some, hclose]

theorem afterEndTag?_nil (element : String) : afterEndTag? element [] = none := rfl

/-- An end tag at the start of an input stays one however the input goes on. -/
theorem afterEndTag?_append (more : List Char) (h : afterEndTag? element cs = some rest) :
    afterEndTag? element (cs ++ more) = some (rest ++ more) := by
  obtain ⟨r, hr, hclose⟩ := afterEndTag?_eq_some_iff.mp h
  refine afterEndTag?_eq_some_iff.mpr ⟨r ++ more, Text.afterWord?_append hr, ?_⟩
  rw [List.dropWhile_append, hclose]
  rfl

/-- An end tag that begins before a `<` ends before it as well. -/
theorem afterEndTag?_of_append_lt (hname : '<' ∉ element.toList) {more : List Char}
    (hne : cs ≠ []) (h : afterEndTag? element (cs ++ '<' :: more) = some rest) :
    ∃ r, afterEndTag? element cs = some r := by
  obtain ⟨r, hr, hclose⟩ := afterEndTag?_eq_some_iff.mp h
  cases cs with
  | nil => exact absurd rfl hne
  | cons c cs =>
    rw [List.cons_append, Text.afterWord?] at hr
    split at hr
    · next hc =>
      obtain ⟨r', hr', rfl⟩ := Text.afterWord?_of_append_lt (by simpa using hname) hr
      rw [List.dropWhile_append] at hclose
      split at hclose
      · cases hclose
      · next hstop =>
        cases hspace : r'.dropWhile Text.isSpace with
        | nil => simp [hspace] at hstop
        | cons d tail =>
          rw [hspace, List.cons_append, List.cons.injEq] at hclose
          refine ⟨tail, afterEndTag?_eq_some_iff.mpr ⟨r', ?_, by rw [hspace, hclose.1]⟩⟩
          rw [Text.afterWord?, if_pos hc, hr']
    · cases hr

/-- The body that is cut off at the first end tag does not end the element. -/
theorem endsRawText_body {body : List Char}
    (h : splitRawText? element cs = some (body, rest)) :
    endsRawText element (String.ofList body) = false := by
  obtain ⟨found, rfl, _, hleft⟩ := Text.of_splitFirst?_eq_some h
  have hnone : splitRawText? element body = none := by
    refine Text.splitFirst?_eq_none_iff.mpr fun tail htail => ?_
    cases htag : afterEndTag? element tail with
    | none => rfl
    | some r =>
      have hne : tail ≠ [] := by
        rintro rfl
        rw [afterEndTag?_nil] at htag
        cases htag
      have hlater := hleft tail htail hne
      rw [afterEndTag?_append found htag] at hlater
      cases hlater
  simp [endsRawText, hnone]

/-- What has no end tag does not end the element. -/
theorem endsRawText_of_splitRawText?_eq_none (h : splitRawText? element cs = none) :
    endsRawText element (String.ofList cs) = false := by
  simp [endsRawText, h]

/-- A text that does not end the element is read up to the end tag behind it. -/
theorem splitRawText?_append (hname : isRawText element = true) {text : String}
    (h : endsRawText element text = false) (more : List Char) :
    splitRawText? element (text.toList ++ '<' :: '/' :: (element.toList ++ '>' :: more)) =
      some (text.toList, more) := by
  have hchars := (isAttributeName_iff.mp
    (isAttributeName_of_isTagName (isTagName_of_isRawText hname))).2
  have hlt : '<' ∉ element.toList := by
    intro hmem
    cases (hchars _ hmem).1
  have hlower : ∀ c ∈ '<' :: '/' :: element.toList, c.toLower = c := by
    intro c hc
    rcases List.mem_cons.mp hc with rfl | hc
    · rfl
    · rcases List.mem_cons.mp hc with rfl | hc
      · rfl
      · exact toLower_eq_self (hchars c hc).2
  have hnone : splitRawText? element text.toList = none := by
    simpa [endsRawText, hname] using h
  refine Text.splitFirst?_append ?_ fun tail htail hne => ?_
  · exact afterEndTag?_eq_some_iff.mpr ⟨_, Text.afterWord?_self hlower _, rfl⟩
  · cases htag : afterEndTag? element (tail ++ '<' :: '/' :: (element.toList ++ '>' :: more)) with
    | none => rfl
    | some r =>
      obtain ⟨r', hr'⟩ := afterEndTag?_of_append_lt hlt hne htag
      rw [Text.splitFirst?_eq_none_iff.mp hnone tail htail] at hr'
      cases hr'

end Markup

end LiveMarkup
