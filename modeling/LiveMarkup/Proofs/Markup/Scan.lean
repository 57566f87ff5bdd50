import LiveMarkup.Proofs.Markup.Name
import LiveMarkup.Proofs.Markup.RawText
import LiveMarkup.Proofs.Markup.Reference
import LiveMarkup.Markup.Token
import Mathlib.Data.List.TakeWhile

/-!
# Scanning what was written

The scanner reads a written piece as one token and goes on behind it, whatever stands
there: an escaped text, an end tag, a start tag with its attributes, and a whole raw-text
element. A text is the exception that it joins a text that follows.
-/

namespace LiveMarkup.Markup.Token

/-- Puts a text in front of tokens; an empty one is none. -/
def addText (s : String) (tokens : List Token) : List Token :=
  if s = "" then tokens else prepend [.text s] tokens

@[simp] theorem prepend_nil (tokens : List Token) : prepend [] tokens = tokens := rfl

theorem ofText_toList (s : String) : ofText s.toList = if s = "" then [] else [.text s] := by
  by_cases hs : s = ""
  · subst hs
    rfl
  · rw [ofText, if_neg hs, if_neg (by simpa using hs), String.ofList_toList]

theorem prepend_ofText (s : String) (tokens : List Token) :
    prepend (ofText s.toList) tokens = addText s tokens := by
  rw [ofText_toList, addText]
  split
  · rfl
  · rfl

theorem addText_addText (s s' : String) (tokens : List Token) :
    addText s (addText s' tokens) = addText (s ++ s') tokens := by
  by_cases hs : s = ""
  · subst hs
    rw [String.empty_append]
    rfl
  · by_cases hs' : s' = ""
    · subst hs'
      rw [String.append_empty]
      rfl
    · have hne : s ++ s' ≠ "" := by simp [hs]
      simp only [addText, if_neg hs, if_neg hs', if_neg hne]
      cases tokens with
      | nil => rfl
      | cons token rest =>
        cases token with
        | text u => simp [prepend, String.append_assoc]
        | doctype u => rfl
        | comment u => rfl
        | endTag u => rfl
        | startTag name attributes selfClosing => rfl

theorem prepend_ofText_append (s : String) (cs : List Char) (tokens : List Token) :
    prepend (ofText (s.toList ++ cs)) tokens = addText s (prepend (ofText cs) tokens) := by
  have hcs := prepend_ofText (String.ofList cs) tokens
  have hall := prepend_ofText (s ++ String.ofList cs) tokens
  rw [String.toList_ofList] at hcs
  rw [String.toList_append, String.toList_ofList] at hall
  rw [hcs, hall, addText_addText]

/-- The text in front of a tag or of the end stays a token of its own. -/
theorem ofText_append_endTag (s name : String) (tokens : List Token) :
    ofText s.toList ++ .endTag name :: tokens = addText s (.endTag name :: tokens) := by
  rw [ofText_toList, addText]
  split <;> rfl

/-- The text up to the first `<` is read in one piece. -/
theorem scanList_eq (cs : List Char) : scanList cs =
    prepend (ofText (Reference.decode (cs.takeWhile (· != '<'))))
      (scanList (cs.dropWhile (· != '<'))) := by
  cases cs with
  | nil => simp [ofText]
  | cons c cs =>
    by_cases hc : c = '<'
    · subst hc
      simp [ofText]
    · rw [scanList_cons, step, if_neg (by simpa using hc),
        List.takeWhile_cons_of_pos (by simpa using hc),
        List.dropWhile_cons_of_pos (by simpa using hc)]

/-- Nothing stops a reading before the character that it goes up to. -/
theorem takeWhile_append_of_not_mem {c : Char} {cs : List Char} (h : c ∉ cs)
    (rest : List Char) : (cs ++ rest).takeWhile (· != c) = cs ++ rest.takeWhile (· != c) ∧
      (cs ++ rest).dropWhile (· != c) = rest.dropWhile (· != c) := by
  have hchars : ∀ d ∈ cs, (d != c) = true := by
    intro d hd
    rw [bne_iff_ne]
    rintro rfl
    exact h hd
  exact ⟨List.takeWhile_append_of_pos hchars, List.dropWhile_append_of_pos hchars⟩

/-- Escaped text is read back and joins a text behind it. -/
theorem scanList_escape (s : String) (rest : List Char) :
    scanList ((escape .content s).toList ++ rest) = addText s (scanList rest) := by
  obtain ⟨htake, hdrop⟩ := takeWhile_append_of_not_mem (lt_not_mem_escape s) rest
  rw [scanList_eq, htake, hdrop, Reference.decode_escape, prepend_ofText_append, ← scanList_eq]

/-- A name is read up to the first character that is in none. -/
theorem takeWhile_name {name : String} (hname : isAttributeName name = true) {c : Char}
    (hc : isNameChar c = false) (rest : List Char) :
    (name.toList ++ c :: rest).takeWhile isNameChar = name.toList ∧
      (name.toList ++ c :: rest).dropWhile isNameChar = c :: rest := by
  have hchars : ∀ d ∈ name.toList, isNameChar d = true := fun d hd =>
    ((isAttributeName_iff.mp hname).2 d hd).1
  rw [List.takeWhile_append_of_pos hchars, List.dropWhile_append_of_pos hchars,
    List.takeWhile_cons_of_neg (by simp [hc]), List.dropWhile_cons_of_neg (by simp [hc]),
    List.append_nil]
  exact ⟨rfl, rfl⟩

/-- An end tag is read back. -/
theorem scanList_endTag {name : String} (hname : isAttributeName name = true)
    (rest : List Char) :
    scanList ('<' :: '/' :: (name.toList ++ '>' :: rest)) = .endTag name :: scanList rest := by
  obtain ⟨htake, hdrop⟩ := takeWhile_name hname (c := '>') (by decide) rest
  have hne := (isAttributeName_iff.mp hname).1
  have hread : endTagAt (name.toList ++ '>' :: rest) = ([.endTag name], rest) := by
    rw [endTagAt, htake, hdrop, map_toLower_of_isAttributeName hname, String.ofList_toList]
    simp only [List.isEmpty_iff, hne, if_false]
    rfl
  have hstep : step '<' ('/' :: (name.toList ++ '>' :: rest)) =
      endTagAt (name.toList ++ '>' :: rest) := rfl
  rw [scanList_cons, hstep, hread]
  rfl

/-- A value is read up to its quote. -/
theorem quoted_append {quote : Char} {value : List Char} (hvalue : quote ∉ value)
    (rest : List Char) : quoted quote (value ++ quote :: rest) = (value, rest) := by
  obtain ⟨htake, hdrop⟩ := takeWhile_append_of_not_mem hvalue (quote :: rest)
  rw [quoted, htake, hdrop]
  simp

/-- Attributes as they are written behind the name of their tag. -/
def writeAttributes (attributes : List (String × String)) : List Char :=
  attributes.flatMap fun (name, value) =>
    ' ' :: (name.toList ++ '=' :: '"' :: ((escape .value value).toList ++ ['"']))

/-- An escaped value is read back. -/
theorem assigned_escape (value : String) (rest : List Char) :
    assigned ('=' :: '"' :: ((escape .value value).toList ++ '"' :: rest)) =
      (some value, rest) := by
  have hvalue : Token.value ('"' :: ((escape .value value).toList ++ '"' :: rest)) =
      ((escape .value value).toList, rest) := quoted_append (quote_not_mem_escape value) rest
  have hdecode := Reference.decode_escape .value value []
  rw [List.append_nil, Reference.decode_nil, List.append_nil] at hdecode
  have hspace : ∀ cs : List Char, ('"' :: cs).dropWhile Text.isSpace = '"' :: cs :=
    fun cs => rfl
  have hequals : ∀ cs : List Char, ('=' :: cs).dropWhile Text.isSpace = '=' :: cs :=
    fun cs => rfl
  simp only [assigned, hequals, hspace, hvalue, hdecode, String.ofList_toList]

/-- An attribute is read as its name and the value assigned behind that. -/
theorem attributes_name {name : String} (hname : isAttributeName name = true) {c : Char}
    (hc : isNameChar c = false) (rest : List Char) :
    attributes (name.toList ++ c :: rest) =
      ((name, (assigned (c :: rest)).1) :: (attributes (assigned (c :: rest)).2).1,
        (attributes (assigned (c :: rest)).2).2) := by
  obtain ⟨htake, hdrop⟩ := takeWhile_name hname hc rest
  have hlower := map_toLower_of_isAttributeName hname
  obtain ⟨hne, hchars⟩ := isAttributeName_iff.mp hname
  obtain ⟨d, ds, hds⟩ := List.exists_cons_of_ne_nil hne
  have hd : isNameChar d = true := (hchars d (hds ▸ List.mem_cons_self)).1
  rw [hds, List.cons_append] at htake hdrop
  rw [List.takeWhile_cons_of_pos hd, List.cons.injEq] at htake
  rw [List.dropWhile_cons_of_pos hd] at hdrop
  rw [hds, List.cons_append, attributes]
  · simp only [hd, if_true, htake.2, hdrop, ← hds, hlower, String.ofList_toList]
  · rintro rfl
    cases hd
  · rintro cs rfl
    cases hd

theorem attributes_space (cs : List Char) : attributes (' ' :: cs) = attributes cs := by
  rw [attributes]
  · rfl
  · exact fun heq => absurd heq (by decide)
  · exact fun _ heq => absurd heq (by decide)

/-- The attributes that are written are read back in order. -/
theorem attributes_writeAttributes {pairs : List (String × String)}
    (hpairs : ∀ a ∈ pairs, isAttributeName a.1 = true) (rest : List Char) :
    attributes (writeAttributes pairs ++ '>' :: rest) =
      (pairs.map fun a => (a.1, some a.2), false, rest) := by
  induction pairs with
  | nil =>
    rw [writeAttributes, List.flatMap_nil, List.nil_append, attributes]
    rfl
  | cons a pairs ih =>
    obtain ⟨name, value⟩ := a
    have hname := hpairs _ List.mem_cons_self
    have hothers := ih fun a ha => hpairs a (List.mem_cons_of_mem _ ha)
    have hcut : writeAttributes ((name, value) :: pairs) ++ '>' :: rest =
        ' ' :: (name.toList ++ '=' :: '"' :: ((escape .value value).toList ++
          '"' :: (writeAttributes pairs ++ '>' :: rest))) := by
      simp [writeAttributes]
    rw [hcut, attributes_space, attributes_name hname (by decide), assigned_escape, hothers]
    rfl

/-- A start tag without its `<`, up to behind its end. -/
theorem startTagAt_writeAttributes {name : String} (hname : isTagName name = true)
    {pairs : List (String × String)} (hpairs : ∀ a ∈ pairs, isAttributeName a.1 = true)
    (rest : List Char) : startTagAt (name.toList ++ (writeAttributes pairs ++ '>' :: rest)) =
      if isRawText name then
        (.startTag name (pairs.map fun a => (a.1, some a.2)) false :: (rawBody name rest).1,
          (rawBody name rest).2)
      else ([.startTag name (pairs.map fun a => (a.1, some a.2)) (isVoid name)], rest) := by
  have hlower := map_toLower_of_isAttributeName (isAttributeName_of_isTagName hname)
  obtain ⟨c, more, hc, hmore⟩ : ∃ c more, isNameChar c = false ∧
      writeAttributes pairs ++ '>' :: rest = c :: more := by
    cases pairs with
    | nil => exact ⟨'>', rest, by decide, rfl⟩
    | cons a pairs => exact ⟨' ', _, by decide, rfl⟩
  obtain ⟨htake, hdrop⟩ := takeWhile_name (isAttributeName_of_isTagName hname) hc more
  have hread := attributes_writeAttributes hpairs rest
  rw [hmore] at hread ⊢
  rw [startTagAt, htake, hdrop, hread, hlower, String.ofList_toList]
  cases hraw : isRawText name with
  | true => simp [isVoid_eq_false_of_isRawText hraw]
  | false => simp

/-- Where a letter follows `<`, there is a start tag. -/
theorem step_lt_of_isAlpha {c : Char} (hc : c.isAlpha = true) (cs : List Char) :
    step '<' (c :: cs) = startTagAt (c :: cs) := by
  have hbang : '!' ≠ c := by
    rintro rfl
    cases hc
  have hlower : c.toLower ≠ '!' := by
    intro heq
    rw [← Char.isAlpha_toLower_eq_isAlpha, heq] at hc
    cases hc
  have hslash : c ≠ '/' := by
    rintro rfl
    cases hc
  simp [step, markupAt, Text.afterWord?, List.isPrefixOf?, hbang, hlower, hslash, hc]

/-- What `<` and a tag name begin is read as a start tag. -/
theorem scanList_startTag {name : String} (hname : isTagName name = true) (cs : List Char) :
    scanList ('<' :: (name.toList ++ cs)) =
      prepend (startTagAt (name.toList ++ cs)).1 (scanList (startTagAt (name.toList ++ cs)).2) := by
  obtain ⟨hne, _⟩ := isAttributeName_iff.mp (isAttributeName_of_isTagName hname)
  obtain ⟨c, rest, hc⟩ := List.exists_cons_of_ne_nil hne
  have halpha : c.isAlpha = true := by
    simpa [isTagName, hc, isAttributeName_of_isTagName hname] using hname
  rw [scanList_cons, hc, List.cons_append, step_lt_of_isAlpha halpha]

/-- The start tag of an element whose content is markup. -/
theorem scanList_tag {name : String} (hname : isTagName name = true)
    (hraw : isRawText name = false) {pairs : List (String × String)}
    (hpairs : ∀ a ∈ pairs, isAttributeName a.1 = true) (rest : List Char) :
    scanList ('<' :: (name.toList ++ (writeAttributes pairs ++ '>' :: rest))) =
      .startTag name (pairs.map fun a => (a.1, some a.2)) (isVoid name) :: scanList rest := by
  rw [scanList_startTag hname, startTagAt_writeAttributes hname hpairs, hraw]
  rfl

/-- A raw-text element with its body and its end tag. -/
theorem scanList_rawText {name : String} (hraw : isRawText name = true)
    {pairs : List (String × String)} (hpairs : ∀ a ∈ pairs, isAttributeName a.1 = true)
    {text : String} (htext : endsRawText name text = false) (rest : List Char) :
    scanList ('<' :: (name.toList ++ (writeAttributes pairs ++ '>' ::
        (text.toList ++ '<' :: '/' :: (name.toList ++ '>' :: rest))))) =
      .startTag name (pairs.map fun a => (a.1, some a.2)) false ::
        addText text (.endTag name :: scanList rest) := by
  have hname := isTagName_of_isRawText hraw
  rw [scanList_startTag hname, startTagAt_writeAttributes hname hpairs, hraw, rawBody,
    splitRawText?_append hraw htext, ← ofText_append_endTag]
  simp [prepend]

end LiveMarkup.Markup.Token
