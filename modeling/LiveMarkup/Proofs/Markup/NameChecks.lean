import LiveMarkup.Proofs.Markup.Stream

/-!
# Checking names

A name passes its check exactly if it is read back where it is written: a tag name right behind a
`<`, and an attribute name in front of an equals sign in a tag (`isName_iff_scan`). So a check that
is passed is a promise about what stands in the markup.

That a name with any other character is not read back needs no look at that character. What the
scanner gives as a name is one, whatever it has passed over on the way, so a text that it gives back
unchanged is one as well.
-/

namespace LiveMarkup.Markup

/-- A text without the characters that are written as references in a value is written as it is. -/
theorem escape_value_eq_self {s : String} (hquote : '"' ∉ s.toList) (hampersand : '&' ∉ s.toList) :
    escape .value s = s := by
  have hchar : ∀ c ∈ s.toList, escapeChar .value c = [c] := by
    intro c hc
    unfold escapeChar
    split
    · contradiction
    · exact absurd hc hampersand
    · contradiction
    · contradiction
    · exact absurd hc hquote
    · rfl
  have hall : s.toList.flatMap (escapeChar .value) = s.toList := by
    rw [List.flatMap_congr hchar, List.flatMap_singleton']
  rw [escape, hall, String.ofList_toList]

namespace Token

/-- A tag name in angle brackets is read as its start tag. A raw-text element has more tokens. -/
theorem head?_scanList_tagName {name : String} (hname : isTagName name = true) (rest : List Char) :
    (scanList ('<' :: (name.toList ++ '>' :: rest))).head? =
      some (.startTag name [] (isVoid name)) := by
  have htag := @startTagAt_writeAttributes name hname [] nofun rest
  rw [writeAttributes, List.flatMap_nil, List.nil_append] at htag
  rw [scanList_startTag hname, htag]
  cases hraw : isRawText name with
  | true =>
    obtain ⟨body, hbody⟩ := rawBody_fst name rest
    simp [hbody, prepend, isVoid_eq_false_of_isRawText hraw]
  | false => rfl

/-- An attribute name with a plain value in quotes is read as that attribute. -/
theorem scanList_attribute {name value : String} (hname : isAttributeName name = true)
    (hquote : '"' ∉ value.toList) (hampersand : '&' ∉ value.toList) (rest : List Char) :
    scanList ('<' :: 'x' :: ' ' ::
        (name.toList ++ '=' :: '"' :: (value.toList ++ '"' :: '>' :: rest))) =
      .startTag "x" [(name, some value)] false :: scanList rest := by
  have hvoid : isVoid "x" = false := by decide
  have htag := @scanList_tag "x" (by decide) (by decide) [(name, value)] (by simpa using hname) rest
  simpa [writeAttributes, escape_value_eq_self hquote hampersand, hvoid] using htag

/-- The checks of names are exact. A text passes as a tag name if and only if, in angle brackets, it
is read as a start tag of that name. It passes as an attribute name if and only if, in a tag and
with a value that is written as it is, it is read as the only attribute of that tag, by that name
and with that value. -/
theorem isName_iff_scan (name : String) :
    (isTagName name = true ↔ ∃ attributes selfClosing,
      (scan ("<" ++ name ++ ">")).head? = some (.startTag name attributes selfClosing)) ∧
    ∀ value : String, '"' ∉ value.toList → '&' ∉ value.toList →
      (isAttributeName name = true ↔
        scan ("<x " ++ name ++ "=\"" ++ value ++ "\">") =
          [.startTag "x" [(name, some value)] false]) := by
  refine ⟨⟨fun hname => ?_, ?_⟩, fun value hquote hampersand => ⟨fun hname => ?_, fun hscan => ?_⟩⟩
  · refine ⟨[], isVoid name, ?_⟩
    simpa [scan] using head?_scanList_tagName hname []
  · rintro ⟨attributes, selfClosing, hhead⟩
    exact ((sound_scanList _).1 _ (List.mem_of_mem_head? hhead)).1
  · simpa [scan] using scanList_attribute hname hquote hampersand []
  · have hsound := (sound_scanList ("<x " ++ name ++ "=\"" ++ value ++ "\">").toList).1
    rw [← scan, hscan] at hsound
    exact (hsound _ List.mem_cons_self).2.1 _ List.mem_cons_self

/-- A name that passes is read back with a value in which all but a quote and an ampersand may
stand. One that brings an attribute of its own does not pass, and is not read back. -/
theorem isName_iff_scan_brought :
    ('"' ∉ "'> /<é".toList ∧ '&' ∉ "'> /<é".toList ∧
      scan ("<x " ++ "on:click" ++ "=\"" ++ "'> /<é" ++ "\">") =
        [.startTag "x" [("on:click", some "'> /<é")] false]) ∧
    isAttributeName "a=1 b" = false ∧
    scan ("<x " ++ "a=1 b" ++ "=\"" ++ "'> /<é" ++ "\">") ≠
      [.startTag "x" [("a=1 b", some "'> /<é")] false] := by
  have hquote : '"' ∉ "'> /<é".toList := by decide
  have hampersand : '&' ∉ "'> /<é".toList := by decide
  have hread := (isName_iff_scan "on:click").2 "'> /<é" hquote hampersand
  have hrefused := (isName_iff_scan "a=1 b").2 "'> /<é" hquote hampersand
  have hname : isAttributeName "a=1 b" = false := by decide
  refine ⟨⟨hquote, hampersand, hread.mp (by decide)⟩, hname, fun hscan => ?_⟩
  rw [hrefused.mpr hscan] at hname
  cases hname

end Token

end LiveMarkup.Markup
