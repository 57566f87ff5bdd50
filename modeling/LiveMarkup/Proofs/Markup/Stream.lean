import LiveMarkup.Proofs.Markup.Scan
import LiveMarkup.Proofs.Markup.Tokens
import Mathlib.Data.List.Infix

/-!
# What a stream of tokens is like

Each token of a stream is sound by itself: the names in tags are names, a text is not empty, and a
comment or a doctype does not contain what ends it. Texts that meet are one token, and the start
tag of a raw-text element is followed by its body, if it has one, and its end tag. The scanner
gives a stream of this kind for any markup (`wellFormed_scan`).

A construct adds its tokens in front of those of the rest. All that can go wrong there is that two
texts meet, which is why a construct gives either a single text or tokens of which the last is no
text (`Piece`).
-/

namespace LiveMarkup

namespace Text

variable {word cs before rest : List Char}

/-- What is in front of the leftmost occurrence of a word does not contain the word. -/
theorem not_infix_of_splitFirst? (hne : word ≠ [])
    (h : splitFirst? (word.isPrefixOf? ·) cs = some (before, rest)) : ¬ word <:+: before := by
  obtain ⟨found, -, -, hleft⟩ := of_splitFirst?_eq_some h
  rintro ⟨front, back, rfl⟩
  have hnone := hleft (word ++ back) ⟨front, by simp⟩ (by simp [hne])
  have hsome : word.isPrefixOf? (word ++ back ++ found) = some (back ++ found) :=
    List.isPrefixOf?_eq_some_iff_append_eq.mpr (by simp)
  rw [hsome] at hnone
  cases hnone

theorem not_infix_of_splitFirst?_eq_none
    (h : splitFirst? (word.isPrefixOf? ·) cs = none) : ¬ word <:+: cs := by
  rintro ⟨front, back, rfl⟩
  have hnone := splitFirst?_eq_none_iff.mp h (word ++ back) ⟨front, by simp⟩
  have hsome : word.isPrefixOf? (word ++ back) = some back :=
    List.isPrefixOf?_eq_some_iff_append_eq.mpr rfl
  rw [hsome] at hnone
  cases hnone

theorem trim_subset (cs : List Char) : trim cs ⊆ cs := by
  intro c hc
  rw [trim, List.mem_reverse] at hc
  exact (List.dropWhile_suffix _).subset (List.mem_reverse.mp ((List.dropWhile_suffix _).subset hc))

end Text

namespace Markup.Token

variable {first rest tokens : List Token}

/-- Whether the token is a run of text. -/
def isText : Token → Bool
  | .text _ => true
  | _ => false

/-- What holds of a token by itself. -/
def Sound : Token → Prop
  | .doctype body => '>' ∉ body.toList
  | .startTag name attributes selfClosing => isTagName name = true ∧
    (∀ a ∈ attributes, isAttributeName a.1 = true) ∧ (isVoid name = true → selfClosing = true)
  | .endTag name => name ≠ "" ∧ isAttributeName name = true
  | .comment body => ¬ "-->".toList <:+: body.toList
  | .text content => content ≠ ""

/-- Two tokens that may follow one another: they are not both texts. -/
def Apart (a b : Token) : Prop := a.isText = false ∨ b.isText = false

/-- A stream of tokens in which all that stands together belongs together. -/
structure WellFormed (tokens : List Token) : Prop where
  sound : ∀ token ∈ tokens, token.Sound
  apart : tokens.IsChain Apart
  rawText : ∀ name attributes rest, .startTag name attributes false :: rest <:+ tokens →
    isRawText name = true → ∃ after, rest = .endTag name :: after ∨
      ∃ body, rest = .text body :: .endTag name :: after ∧ endsRawText name body = false

/-- The start tags of regular tokens are sound. -/
theorem Regular.sound_startTag {name : String} {attributes : List (String × Option String)}
    {selfClosing : Bool} (h : Regular tokens)
    (hmem : .startTag name attributes selfClosing ∈ tokens) :
    (Token.startTag name attributes selfClosing).Sound := by
  induction h with
  | nil => cases hmem
  | other htoken _ ih =>
    rcases List.mem_cons.mp hmem with rfl | hmem
    · cases htoken
    · exact ih hmem
  | startTag hname hattributes hvoid _ _ ih =>
    rcases List.mem_cons.mp hmem with heq | hmem
    · cases heq
      exact ⟨hname, hattributes, hvoid⟩
    · exact ih hmem
  | rawText hraw hattributes _ _ ih =>
    rcases List.mem_cons.mp hmem with heq | hmem
    · cases heq
      exact ⟨isTagName_of_isRawText hraw, hattributes, by simp [isVoid_eq_false_of_isRawText hraw]⟩
    · rcases List.mem_append.mp hmem with hmem | hmem
      · rw [ofText] at hmem
        split at hmem <;> simp at hmem
      · exact ih (by simpa using hmem)

theorem startTag_suffix_ofText {name other : String} {attributes : List (String × Option String)}
    {selfClosing : Bool} {body : List Char} {after : List Token}
    (h : .startTag name attributes selfClosing :: after <:+ ofText body ++ .endTag other :: rest) :
    .startTag name attributes selfClosing :: after <:+ rest := by
  rw [ofText] at h
  split at h
  · simpa [List.suffix_cons_iff] using h
  · simpa [List.suffix_cons_iff] using h

/-- Behind the start tag of a raw-text element stands the rest of the element. -/
theorem Regular.rawText_suffix {name : String} {attributes : List (String × Option String)}
    (h : Regular tokens) (hsuffix : .startTag name attributes false :: rest <:+ tokens)
    (hraw : isRawText name = true) : ∃ after, rest = .endTag name :: after ∨
      ∃ body, rest = .text body :: .endTag name :: after ∧ endsRawText name body = false := by
  induction h with
  | nil => simp at hsuffix
  | other htoken _ ih =>
    rcases List.suffix_cons_iff.mp hsuffix with heq | hsuffix
    · cases heq
      cases htoken
    · exact ih hsuffix
  | startTag _ _ _ hclosing _ ih =>
    rcases List.suffix_cons_iff.mp hsuffix with heq | hsuffix
    · cases heq
      cases hclosing hraw
    · exact ih hsuffix
  | @rawText _ _ body after _ _ hbody _ ih =>
    rcases List.suffix_cons_iff.mp hsuffix with heq | hsuffix
    · cases heq
      refine ⟨after, ?_⟩
      rw [ofText]
      split
      · exact .inl rfl
      · exact .inr ⟨_, rfl, hbody⟩
    · exact ih (startTag_suffix_ofText hsuffix)

theorem sound_ofText {cs : List Char} : ∀ token ∈ ofText cs, token.Sound := by
  intro token hmem
  rw [ofText] at hmem
  split at hmem
  · cases hmem
  · next hne =>
    obtain rfl := List.mem_singleton.mp hmem
    simpa [Sound] using hne

theorem sound_commentAt (cs : List Char) : ∀ token ∈ (commentAt cs).1, token.Sound := by
  intro token hmem
  unfold commentAt at hmem
  split at hmem
  · next body rest h =>
    obtain rfl := List.mem_singleton.mp hmem
    rw [Sound, String.toList_ofList (l := body)]
    exact Text.not_infix_of_splitFirst? (by decide) h
  · next h =>
    obtain rfl := List.mem_singleton.mp hmem
    rw [Sound, String.toList_ofList (l := cs)]
    exact Text.not_infix_of_splitFirst?_eq_none h

theorem sound_doctypeAt (cs : List Char) : ∀ token ∈ (doctypeAt cs).1, token.Sound := by
  intro token hmem
  unfold doctypeAt at hmem
  split at hmem
  · next h =>
    obtain rfl := List.mem_singleton.mp hmem
    rw [Sound, String.toList_ofList]
    intro hgt
    obtain ⟨front, back, heq⟩ := List.append_of_mem (Text.trim_subset _ hgt)
    exact Text.not_infix_of_splitFirst? (by decide) h ⟨front, back, by simp [heq]⟩
  · cases hmem

theorem sound_endTag {name : String} (hname : isAttributeName name = true) :
    (Token.endTag name).Sound := by
  refine ⟨?_, hname⟩
  rintro rfl
  cases hname

theorem sound_endTagAt (cs : List Char) : ∀ token ∈ (endTagAt cs).1, token.Sound := by
  intro token hmem
  simp only [endTagAt] at hmem
  split at hmem
  · cases hmem
  · next hne =>
    obtain rfl := List.mem_singleton.mp hmem
    refine sound_endTag (isAttributeName_ofList (by simpa using hne) fun c hc => ?_)
    exact List.mem_takeWhile_imp hc

theorem rawBody_fst (element : String) (cs : List Char) :
    ∃ body, (rawBody element cs).1 = ofText body ++ [.endTag element] := by
  unfold rawBody
  split
  · exact ⟨_, rfl⟩
  · exact ⟨_, rfl⟩

theorem startTagAt_cases {c : Char} (hc : c.isAlpha = true) (cs : List Char) :
    ∃ name attributes selfClosing, isTagName name = true ∧
      ((startTagAt (c :: cs)).1 = [.startTag name attributes selfClosing] ∨
        ∃ body, (startTagAt (c :: cs)).1 =
          .startTag name attributes selfClosing :: (ofText body ++ [.endTag name])) := by
  have hname := isTagName_of_isAlpha hc cs
  simp only [startTagAt]
  split
  · obtain ⟨body, hbody⟩ := rawBody_fst
      (String.ofList (((c :: cs).takeWhile isNameChar).map Char.toLower))
      (Token.attributes ((c :: cs).dropWhile isNameChar)).2.2
    exact ⟨_, _, _, hname, .inr ⟨body, congrArg _ hbody⟩⟩
  · exact ⟨_, _, _, hname, .inl rfl⟩

theorem sound_startTagAt {c : Char} (hc : c.isAlpha = true) (cs : List Char) :
    ∀ token ∈ (startTagAt (c :: cs)).1, token.Sound := by
  intro token hmem
  have hregular : Regular (startTagAt (c :: cs)).1 := regular_startTagAt hc
  obtain ⟨name, attributes, selfClosing, hname, htag | ⟨body, htag⟩⟩ := startTagAt_cases hc cs
  · rw [htag] at hmem hregular
    obtain rfl := List.mem_singleton.mp hmem
    exact hregular.sound_startTag List.mem_cons_self
  · rw [htag] at hmem hregular
    rcases List.mem_cons.mp hmem with rfl | hmem
    · exact hregular.sound_startTag List.mem_cons_self
    · rcases List.mem_append.mp hmem with hmem | hmem
      · exact sound_ofText token hmem
      · obtain rfl := List.mem_singleton.mp hmem
        exact sound_endTag (isAttributeName_of_isTagName hname)

/-- The tokens of a construct: one text, or tokens that end in no text. -/
inductive Piece : List Token → Prop
  | text (s : String) : Piece [.text s]
  | other {tokens : List Token} : tokens.IsChain Apart →
    (∀ token ∈ tokens.getLast?, token.isText = false) → Piece tokens

theorem Piece.nil : Piece [] := .other .nil nofun

theorem Piece.single {token : Token} (h : token.isText = false) : Piece [token] :=
  .other (.singleton _) (by simpa using h)

theorem piece_ofText (cs : List Char) : Piece (ofText cs) := by
  rw [ofText]
  split
  · exact .nil
  · exact .text _

theorem piece_startTagAt {c : Char} (hc : c.isAlpha = true) (cs : List Char) :
    Piece (startTagAt (c :: cs)).1 := by
  obtain ⟨name, attributes, selfClosing, -, htag | ⟨body, htag⟩⟩ := startTagAt_cases hc cs
  · rw [htag]
    exact .single rfl
  · rw [htag, ofText]
    split
    · exact .other (by simp [Apart, isText]) (by simp [isText])
    · exact .other (by simp [Apart, isText]) (by simp [isText])

/-- Each construct gives sound tokens that keep apart. -/
theorem sound_markupAt (cs : List Char) :
    (∀ token ∈ (markupAt cs).1, token.Sound) ∧ Piece (markupAt cs).1 := by
  have hlt : ∀ token ∈ [Token.text "<"], token.Sound := by simp [Sound]
  unfold markupAt
  split
  · refine ⟨sound_commentAt _, ?_⟩
    unfold commentAt
    split <;> exact .single rfl
  · split
    · refine ⟨sound_doctypeAt _, ?_⟩
      unfold doctypeAt
      split
      · exact .single rfl
      · exact .nil
    · split
      · exact ⟨hlt, .text _⟩
      · next c rest _ _ =>
        split
        · refine ⟨sound_endTagAt rest, ?_⟩
          simp only [endTagAt]
          split
          · exact .nil
          · exact .single rfl
        · split
          · next hc => exact ⟨sound_startTagAt hc rest, piece_startTagAt hc rest⟩
          · exact ⟨hlt, .text _⟩

theorem sound_step (c : Char) (cs : List Char) :
    (∀ token ∈ (step c cs).1, token.Sound) ∧ Piece (step c cs).1 := by
  rw [step]
  split
  · exact sound_markupAt cs
  · exact ⟨sound_ofText, piece_ofText _⟩

theorem sound_prepend (hfirst : ∀ token ∈ first, token.Sound)
    (hrest : ∀ token ∈ rest, token.Sound) :
    ∀ token ∈ prepend first rest, token.Sound := by
  intro token hmem
  unfold prepend at hmem
  split at hmem
  · next s t after =>
    rcases List.mem_cons.mp hmem with rfl | hmem
    · have hs : s ≠ "" := hfirst _ List.mem_cons_self
      simp [Sound, hs]
    · exact hrest token (List.mem_cons_of_mem _ hmem)
  · rcases List.mem_append.mp hmem with hmem | hmem
    · exact hfirst token hmem
    · exact hrest token hmem

theorem isChain_prepend (hfirst : Piece first) (hrest : rest.IsChain Apart) :
    (prepend first rest).IsChain Apart := by
  unfold prepend
  split
  · next s t after =>
    rw [List.isChain_cons] at hrest ⊢
    exact hrest
  · next hnotext =>
    cases hfirst with
    | text s =>
      refine List.isChain_cons.mpr ⟨fun token htoken => .inr ?_, hrest⟩
      cases token with
      | text t =>
        obtain ⟨after, rfl⟩ := List.head?_eq_some_iff.mp htoken
        exact absurd rfl (hnotext s t after rfl)
      | doctype _ => rfl
      | startTag _ _ _ => rfl
      | endTag _ => rfl
      | comment _ => rfl
    | other hchain hlast =>
      exact List.isChain_append.mpr ⟨hchain, hrest, fun a ha b _ => .inl (hlast a ha)⟩

/-- The tokens are sound, and no two texts are next to each other. -/
theorem sound_scanList (cs : List Char) :
    (∀ token ∈ scanList cs, token.Sound) ∧ (scanList cs).IsChain Apart := by
  fun_induction scanList cs with
  | case1 => exact ⟨by simp, .nil⟩
  | case2 c cs ih =>
    obtain ⟨hsound, hpiece⟩ := sound_step c cs
    exact ⟨sound_prepend hsound ih.1, isChain_prepend hpiece ih.2⟩

/-- Whatever the markup is, its tokens are a well-formed stream. -/
theorem wellFormed_scan (markup : String) : WellFormed (scan markup) := by
  obtain ⟨hsound, hapart⟩ := sound_scanList markup.toList
  refine ⟨hsound, hapart, fun name attributes rest hsuffix hraw => ?_⟩
  exact (regular_scanList _).rawText_suffix hsuffix hraw

end Markup.Token

end LiveMarkup
