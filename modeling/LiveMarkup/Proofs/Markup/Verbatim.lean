import LiveMarkup.Proofs.Markup.Scan

/-!
# Texts written verbatim

A text is written into a `script` or a `style` element as it stands. `endsRawText` tells whether it
is read back: a text that passes is the whole body, whatever it ends with and whatever follows the
element, and one that does not is cut off at the first end tag in it (`scan_verbatim`).

An end tag that begins in the text ends in it as well, since no end tag has a `<` behind its first
character. So nothing that stands behind the text makes a difference to where the body ends.
-/

namespace LiveMarkup

namespace Text

/-- What a search for a word passes over is the word, in any case. -/
theorem afterWord?_eq_some_iff {word cs rest : List Char} :
    afterWord? word cs = some rest ↔
      ∃ found, cs = found ++ rest ∧ found.map Char.toLower = word := by
  induction word generalizing cs with
  | nil =>
    rw [afterWord?, Option.some_inj]
    constructor
    · exact fun h => ⟨[], h, rfl⟩
    · rintro ⟨found, h, hnil⟩
      simpa [List.map_eq_nil_iff.mp hnil] using h
  | cons w word ih =>
    cases cs with
    | nil =>
      refine iff_of_false (by simp [afterWord?]) ?_
      rintro ⟨found, h, hfound⟩
      obtain ⟨rfl, -⟩ := List.append_eq_nil_iff.mp h.symm
      cases hfound
    | cons c cs =>
      rw [afterWord?]
      split
      · next hc =>
        rw [ih]
        constructor
        · rintro ⟨found, rfl, rfl⟩
          exact ⟨c :: found, rfl, by rw [List.map_cons, hc]⟩
        · rintro ⟨found, h, hfound⟩
          obtain ⟨d, more, rfl, -, hmore⟩ := List.map_eq_cons_iff.mp hfound
          obtain ⟨rfl, rfl⟩ := List.cons.inj h
          exact ⟨more, rfl, hmore⟩
      · next hc =>
        refine iff_of_false (by simp) ?_
        rintro ⟨found, h, hfound⟩
        obtain ⟨d, more, rfl, hd, -⟩ := List.map_eq_cons_iff.mp hfound
        obtain ⟨rfl, -⟩ := List.cons.inj h
        exact hc hd

end Text

namespace Markup

variable {name : String} {text body rest : List Char}

/-- The end tags of a raw-text element: `</`, the name in any case, spaces, `>`. -/
def IsEndTag (name : String) (tag : List Char) : Prop :=
  ∃ word spaces, tag = '<' :: '/' :: (word ++ (spaces ++ ['>'])) ∧
    word.map Char.toLower = name.toList ∧ ∀ c ∈ spaces, Text.isSpace c = true

/-- Only letters have a small letter of their own. -/
theorem eq_of_toLower_eq {c d : Char} (hd : d.isAlpha = false) (h : c.toLower = d) : c = d := by
  cases hc : c.isUpper with
  | true =>
    have halpha : c.toLower.isAlpha = true := by
      rw [Char.isAlpha_toLower_eq_isAlpha, Char.isAlpha, hc, Bool.true_or]
    rw [h, hd] at halpha
    cases halpha
  | false => rw [← h, toLower_eq_self hc]

theorem afterEndTag?_eq_some_iff_isEndTag : afterEndTag? name text = some rest ↔
    ∃ tag, text = tag ++ rest ∧ IsEndTag name tag := by
  simp only [afterEndTag?_eq_some_iff, Text.afterWord?_eq_some_iff]
  constructor
  · rintro ⟨r, ⟨found, rfl, hfound⟩, hclose⟩
    obtain ⟨a, found, rfl, ha, hfound⟩ := List.map_eq_cons_iff.mp hfound
    obtain ⟨b, word, rfl, hb, hword⟩ := List.map_eq_cons_iff.mp hfound
    obtain rfl := eq_of_toLower_eq (by decide) ha
    obtain rfl := eq_of_toLower_eq (by decide) hb
    obtain ⟨spaces, hspaces, rfl⟩ :
        ∃ spaces, (∀ c ∈ spaces, Text.isSpace c = true) ∧ r = spaces ++ '>' :: rest :=
      ⟨r.takeWhile Text.isSpace, fun c hc => List.mem_takeWhile_imp hc,
        by rw [← hclose, List.takeWhile_append_dropWhile]⟩
    exact ⟨'<' :: '/' :: (word ++ (spaces ++ ['>'])), by simp, word, spaces, rfl, hword, hspaces⟩
  · rintro ⟨_, rfl, word, spaces, rfl, hword, hspaces⟩
    refine ⟨spaces ++ '>' :: rest, ⟨'<' :: '/' :: word, by simp, by simp [hword]⟩, ?_⟩
    rw [List.dropWhile_append_of_pos hspaces, List.dropWhile_cons_of_neg (by decide)]

/-- The body ends at the first end tag in it. -/
theorem splitRawText?_eq_some (h : splitRawText? name text = some (body, rest)) :
    ∃ tag, text = body ++ (tag ++ rest) ∧ IsEndTag name tag ∧
      ∀ front other back, text = front ++ (other ++ back) → IsEndTag name other →
        body.length ≤ front.length := by
  obtain ⟨found, rfl, hfound, hleft⟩ := Text.of_splitFirst?_eq_some h
  obtain ⟨tag, rfl, htag⟩ := afterEndTag?_eq_some_iff_isEndTag.mp hfound
  refine ⟨tag, rfl, htag, fun front other back heq hother => ?_⟩
  by_contra hlt
  -- An end tag further left would begin in the body, where the search has found none.
  obtain ⟨tail, rfl⟩ : front <+: body :=
    List.prefix_of_prefix_length_le ⟨_, heq.symm⟩ (List.prefix_append _ _) (by omega)
  rw [List.append_assoc, List.append_cancel_left_eq] at heq
  have hne : tail ≠ [] := by
    rintro rfl
    simp at hlt
  have hnone := hleft tail (List.suffix_append _ _) hne
  rw [afterEndTag?_eq_some_iff_isEndTag.mpr ⟨other, heq, hother⟩] at hnone
  cases hnone

/-- What stands behind a text that ends the element does not matter. -/
theorem splitRawText?_append_of_isSome (hname : isRawText name = true)
    (h : splitRawText? name text = some (body, rest)) (more : List Char) :
    splitRawText? name (text ++ more) = some (body, rest ++ more) := by
  have hlt : '<' ∉ name.toList := by
    intro hmem
    have hchars :=
      isAttributeName_iff.mp (isAttributeName_of_isTagName (isTagName_of_isRawText hname))
    cases (hchars.2 _ hmem).1
  obtain ⟨found, rfl, hfound, hleft⟩ := Text.of_splitFirst?_eq_some h
  rw [List.append_assoc]
  refine Text.splitFirst?_append (afterEndTag?_append more hfound) fun tail htail hne => ?_
  cases htag : afterEndTag? name (tail ++ (found ++ more)) with
  | none => rfl
  | some r =>
    obtain ⟨tag, rfl, word, spaces, rfl, -⟩ := afterEndTag?_eq_some_iff_isEndTag.mp hfound
    obtain ⟨r', hr'⟩ := afterEndTag?_of_append_lt hlt hne htag
    have hnone := hleft tail htail hne
    rw [afterEndTag?_append _ hr'] at hnone
    cases hnone

namespace Token

/-- A raw-text element without attributes is read with its body. -/
theorem scanList_rawBody (hname : isRawText name = true) (cs : List Char) :
    scanList ('<' :: (name.toList ++ '>' :: cs)) =
      .startTag name [] false :: ((rawBody name cs).1 ++ scanList (rawBody name cs).2) := by
  have htag := isTagName_of_isRawText hname
  have hread : startTagAt (name.toList ++ (writeAttributes [] ++ '>' :: cs)) = _ :=
    startTagAt_writeAttributes htag (by simp) cs
  simp only [writeAttributes, List.flatMap_nil, List.nil_append, hname, if_true] at hread
  rw [scanList_startTag htag, hread]
  simp [prepend]

theorem toList_element (name text rest : String) :
    ("<" ++ name ++ ">" ++ text ++ "</" ++ name ++ ">" ++ rest).toList =
      '<' :: (name.toList ++ '>' ::
        (text.toList ++ '<' :: '/' :: (name.toList ++ '>' :: rest.toList))) := by
  simp

/-- A text in front of an end tag is a token of its own. -/
theorem ofText_append_ne {text : List Char} {after tokens : List Token} (hne : text ≠ body) :
    ofText body ++ .endTag name :: after ≠ .text (String.ofList text) :: tokens := by
  rw [ofText]
  split
  · simp
  · simp [String.ofList_inj, Ne.symm hne]

/-- A text that does not end the raw-text element that it is written into is read back as its body,
and what follows the element is read for itself. A text that ends it is not read back: the body
that is read stops in front of the first end tag in the text. -/
theorem scan_verbatim {name : String} (hname : name = "script" ∨ name = "style")
    (text rest : String) :
    (endsRawText name text = false →
      scan ("<" ++ name ++ ">" ++ text ++ "</" ++ name ++ ">" ++ rest) =
        .startTag name [] false :: ((if text = "" then [] else [.text text]) ++
          .endTag name :: scan rest)) ∧
    (endsRawText name text = true → ∃ body tag after : List Char,
      text.toList = body ++ (tag ++ after) ∧ IsEndTag name tag ∧
      (∀ front other back, text.toList = front ++ (other ++ back) → IsEndTag name other →
        body.length ≤ front.length) ∧
      scan ("<" ++ name ++ ">" ++ text ++ "</" ++ name ++ ">" ++ rest) =
        .startTag name [] false :: (ofText body ++
          .endTag name :: scan (String.ofList after ++ "</" ++ name ++ ">" ++ rest)) ∧
      ∀ more, scan ("<" ++ name ++ ">" ++ text ++ "</" ++ name ++ ">" ++ rest) ≠
        .startTag name [] false :: .text text :: more) := by
  have hraw := isRawText_iff.mpr hname
  simp only [scan, toList_element, scanList_rawBody hraw]
  constructor
  · intro hends
    rw [rawBody, splitRawText?_append hraw hends, ← ofText_toList]
    simp
  · intro hends
    simp only [endsRawText, hraw, Bool.true_and, Option.isSome_iff_exists] at hends
    obtain ⟨⟨body, after⟩, hsplit⟩ := hends
    obtain ⟨tag, htext, htag, hleft⟩ := splitRawText?_eq_some hsplit
    have hne : text.toList ≠ body := by
      obtain ⟨word, spaces, rfl, -⟩ := htag
      intro heq
      simp [heq] at htext
    refine ⟨body, tag, after, htext, htag, hleft, ?_, fun more => ?_⟩
    · rw [rawBody, splitRawText?_append_of_isSome hraw hsplit]
      simp
    · rw [rawBody, splitRawText?_append_of_isSome hraw hsplit]
      simpa using ofText_append_ne hne

/-- A text that ends in the middle of an end tag is a whole body. One that has a complete end tag,
in capitals and with a space in it, is cut off there, and what is left of it is read as markup. -/
theorem scan_verbatim_cut :
    scan ("<script>" ++ "a</script" ++ "</script>" ++ "") =
      [.startTag "script" [] false, .text "a</script", .endTag "script"] ∧
    (∀ more, scan ("<style>" ++ "a</STYLE >b" ++ "</style>" ++ "c") ≠
      .startTag "style" [] false :: .text "a</STYLE >b" :: more) := by
  constructor
  · have h := (scan_verbatim (.inl rfl) "a</script" "").1 (by decide)
    simpa [scan] using h
  · obtain ⟨_, _, _, _, _, _, _, h⟩ := (scan_verbatim (.inr rfl) "a</STYLE >b" "c").2 (by decide)
    simpa using h

end Token

end Markup

end LiveMarkup
