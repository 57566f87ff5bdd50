import LiveMarkup.Proofs.Markup.Cursor.Decoding
import LiveMarkup.Proofs.Markup.Verbatim

/-!
# Tags by byte positions

What is read inside a tag, and the body of a raw-text element, read from a position that characters
follow: each reader has an answer there, which is the one that `Token` has for those characters, and
the position that it gives has the characters behind it that `Token` leaves.

A round of the loop over attributes adds what it finds to the attributes in front. These and the
ones that are still to be read make the same list before the round and after it, which is the
invariant of the loop (`Inside.Makes`). The search for an end tag looks at the next `<` only, so it
keeps what a search through all characters finds from its position on (`FindsEndTag`).
-/

namespace LiveMarkup.Markup

open Text (utf8 At bytes slice? from? byte? skipWhile indexOf? standsAt)

theorem ascii_of_isNameChar {c : Char} (h : isNameChar c = true) : c.toNat < 128 := by
  simp only [isNameChar, Char.isAlphanum, Bool.or_eq_true, beq_iff_eq] at h
  obtain (((h | h) | rfl) | rfl) | rfl := h
  · exact Text.ascii_of_isAlpha h
  · exact Text.ascii_of_isDigit h
  · decide
  · decide
  · decide

theorem uniform_isNameChar : Text.Uniform isNameChar :=
  Text.uniform_of_ascii fun _ => ascii_of_isNameChar

namespace Cursor

open Reference (decode decodeBytes decodeBytes_eq)
open Token (unquoted quoted value assigned attributes)

variable {s : String} {pos : Nat} {cs rest : List Char}

theorem quotedAt_spec {quote : Char} (hquote : quote.toNat < 128) (h : At s pos rest) :
    ∃ next, quotedAt s quote pos = some (String.ofList (decode (quoted quote rest).1), next) ∧
      At s next (quoted quote rest).2 := by
  have hpass := h.pass hquote
  have hnext : min ((indexOf? quote (utf8 rest)).elim s.utf8ByteSize (pos + ·) + 1) s.utf8ByteSize =
      (indexOf? quote (utf8 rest)).elim s.utf8ByteSize (pos + · + 1) := by
    cases hindex : indexOf? quote (utf8 rest) with
    | none => simp
    | some i =>
      rw [hindex] at hpass
      exact Nat.min_eq_left hpass.le_size
  rw [quotedAt, h.from?]
  simp only [Option.bind_eq_bind, Option.bind_some, hnext]
  rw [h.seek_eq hquote, h.slice?_run, Option.bind_some, decodeBytes_eq, Option.bind_some,
    String.toList_ofList]
  exact ⟨_, rfl, hpass⟩

/-- A character beyond ASCII does not end an unquoted value. -/
theorem endsUnquoted_eq_false {c : Char} (hc : 128 ≤ c.toNat) (closes : Bool) :
    (Text.isSpace c || c == '>' || (c == '/' && closes)) = false := by
  have hspace : Text.isSpace c = false := by
    rw [← Bool.not_eq_true]
    intro hspace
    exact absurd (Text.ascii_of_isSpace hspace) (Nat.not_lt.mpr hc)
  have hne : ∀ a : Char, a.toNat < 128 → (c == a) = false := by
    intro a ha
    rw [beq_eq_false_iff_ne]
    rintro rfl
    omega
  rw [hspace, hne '>' (by decide), hne '/' (by decide)]
  rfl

/-- The bytes of such a character are all part of the value. -/
theorem unquotedLength_append {front : List UInt8} (bs : List UInt8)
    (hfront : ∀ b ∈ front, 128 ≤ (Char.ofUInt8 b).toNat) :
    unquotedLength (front ++ bs) = front.length + unquotedLength bs := by
  induction front with
  | nil => simp
  | cons b front ih =>
    obtain ⟨hb, hfront⟩ := List.forall_mem_cons.mp hfront
    rw [List.cons_append, unquotedLength]
    simp only [endsUnquoted_eq_false hb]
    rw [if_neg Bool.false_ne_true, ih hfront, List.length_cons]
    omega

theorem unquotedLength_utf8 (cs : List Char) :
    unquotedLength (utf8 cs) = (utf8 (unquoted cs).1).length := by
  induction cs with
  | nil => rfl
  | cons c cs ih =>
    by_cases hc : c.toNat < 128
    · have hclose : (byte? (utf8 cs) 0 == some '>') = (cs.head? == some '>') := by
        have hiff := (Text.at_ofList cs).byte?_eq_some_iff (a := '>') (by decide)
        rw [Text.bytes_ofList] at hiff
        rw [beq_eq_decide, beq_eq_decide, decide_eq_decide]
        exact hiff
      rw [Text.utf8_cons, Text.utf8EncodeChar_of_ascii hc, List.singleton_append, unquotedLength,
        unquoted, Text.ofUInt8_ofNat hc, hclose]
      split
      · rfl
      · rw [ih, Text.utf8_cons, Text.utf8EncodeChar_of_ascii hc, List.singleton_append,
          List.length_cons]
    · have hle : 128 ≤ c.toNat := Nat.le_of_not_lt hc
      rw [Text.utf8_cons, unquotedLength_append _ fun b => Text.le_toNat_of_mem_utf8EncodeChar hle,
        unquoted, endsUnquoted_eq_false hle, if_neg Bool.false_ne_true, ih, Text.utf8_cons,
        List.length_append]

theorem append_unquoted (cs : List Char) : (unquoted cs).1 ++ (unquoted cs).2 = cs := by
  induction cs with
  | nil => rfl
  | cons c cs ih =>
    rw [unquoted]
    split
    · rfl
    · rw [List.cons_append, ih]

/-- A value without a quote in front is not quoted. -/
theorem value_eq_unquoted (hdouble : rest.head? ≠ some '"') (hsingle : rest.head? ≠ some '\'') :
    value rest = unquoted rest := by
  unfold value
  split
  · exact absurd rfl hdouble
  · exact absurd rfl hsingle
  · rfl

theorem valueAt_spec (h : At s pos rest) :
    ∃ next, valueAt s pos = some (String.ofList (decode (value rest).1), next) ∧
      At s next (value rest).2 := by
  unfold valueAt
  split
  · next hbyte =>
    obtain ⟨after, rfl⟩ := List.head?_eq_some_iff.mp ((h.byte?_eq_some_iff (by decide)).mp hbyte)
    exact quotedAt_spec (by decide) (h.next (by decide))
  · next hbyte =>
    obtain ⟨after, rfl⟩ := List.head?_eq_some_iff.mp ((h.byte?_eq_some_iff (by decide)).mp hbyte)
    exact quotedAt_spec (by decide) (h.next (by decide))
  · next hdouble hsingle =>
    have hvalue : value rest = unquoted rest := by
      refine value_eq_unquoted (fun hhead => ?_) (fun hhead => ?_)
      · exact hdouble ((h.byte?_eq_some_iff (by decide)).mpr hhead)
      · exact hsingle ((h.byte?_eq_some_iff (by decide)).mpr hhead)
    have hat : At s pos ((unquoted rest).1 ++ (unquoted rest).2) := by
      rwa [append_unquoted]
    rw [h.drop_bytes, unquotedLength_utf8, hvalue]
    simp only [hat.slice?, Option.bind_eq_bind, Option.bind_some, decodeBytes_eq,
      String.toList_ofList]
    exact ⟨_, rfl, hat.advance⟩

theorem assignedAt_spec (h : At s pos rest) :
    ∃ next, assignedAt s pos = some ((assigned rest).1, next) ∧ At s next (assigned rest).2 := by
  have hspaces := h.skipWhile Text.uniform_isSpace
  rw [assignedAt]
  by_cases hhead : (rest.dropWhile Text.isSpace).head? = some '='
  · obtain ⟨after, hafter⟩ := List.head?_eq_some_iff.mp hhead
    rw [if_pos ((hspaces.byte?_eq_some_iff (by decide)).mpr hhead)]
    rw [hafter] at hspaces
    obtain ⟨next, hvalue, hnext⟩ :=
      valueAt_spec ((hspaces.next (by decide)).skipWhile Text.uniform_isSpace)
    simp only [hvalue, Option.bind_eq_bind, Option.bind_some]
    simp only [assigned, hafter]
    exact ⟨next, rfl, hnext⟩
  · rw [if_neg (fun hbyte => hhead ((hspaces.byte?_eq_some_iff (by decide)).mp hbyte))]
    have hassigned : assigned rest = (none, rest.dropWhile Text.isSpace) := by
      simp only [assigned]
      split
      · next after hafter =>
        rw [hafter] at hhead
        exact absurd rfl hhead
      · rfl
    rw [hassigned]
    exact ⟨_, rfl, hspaces⟩

/-- A character that neither starts a name nor ends the tag is passed over. -/
theorem attributes_skip {c : Char} (hname : isNameChar c = false) (hclose : c ≠ '>')
    (hslash : c = '/' → cs.head? ≠ some '>') : attributes (c :: cs) = attributes cs := by
  rw [attributes]
  · rw [if_neg (by simp [hname])]
  · exact hclose
  · rintro tail rfl rfl
    exact hslash rfl rfl

theorem attributes_dropWhile (cs : List Char) :
    attributes (cs.dropWhile Text.isSpace) = attributes cs := by
  induction cs with
  | nil => rfl
  | cons c cs ih =>
    by_cases hc : Text.isSpace c = true
    · have hne : isNameChar c = false ∧ c ≠ '>' ∧ c ≠ '/' := by
        simp only [Text.isSpace, Bool.or_eq_true, beq_iff_eq] at hc
        rcases hc with (((h | h) | h) | h) | h <;> subst h <;> decide
      rw [List.dropWhile_cons_of_pos hc, ih,
        attributes_skip hne.1 hne.2.1 fun hslash => absurd hslash hne.2.2]
    · rw [List.dropWhile_cons_of_neg hc]

/-- A name is read with what stands behind it. -/
theorem attributes_of_isNameChar {c : Char} (hname : isNameChar c = true) (cs : List Char) :
    attributes (c :: cs) =
      ((lowerName (String.ofList ((c :: cs).takeWhile isNameChar)),
          (assigned ((c :: cs).dropWhile isNameChar)).1) ::
        (attributes (assigned ((c :: cs).dropWhile isNameChar)).2).1,
        (attributes (assigned ((c :: cs).dropWhile isNameChar)).2).2) := by
  rw [attributes]
  · rw [if_pos hname, List.takeWhile_cons_of_pos hname, List.dropWhile_cons_of_pos hname, lowerName,
      String.toList_ofList]
  · rintro rfl
    cases hname
  · rintro tail rfl
    cases hname

/-- What the attributes of a tag are once it is read to its end, and what is behind it. -/
structure Inside.Ends (s : String) (found : List (String × Option String)) (slash : Bool)
    (after : List Char) (tag : Inside) : Prop where
  position : At s tag.pos after
  attributes_eq : tag.attributes = found
  slash_eq : tag.selfClosing = slash

/-- What the attributes so far and those that are still to be read make. -/
def Inside.Makes (s : String) (found : List (String × Option String)) (slash : Bool)
    (after : List Char) (tag : Inside) : Prop :=
  ∃ rest, At s tag.pos rest ∧ tag.attributes ++ (Token.attributes rest).1 = found ∧
    (tag.selfClosing || (Token.attributes rest).2.1) = slash ∧
    (Token.attributes rest).2.2 = after

section Attributes

variable {found : List (String × Option String)} {slash : Bool} {after : List Char} {tag : Inside}

theorem Inside.Makes.le_size (h : tag.Makes s found slash after) : tag.pos ≤ s.utf8ByteSize := by
  obtain ⟨rest, hat, -⟩ := h
  exact hat.le_size

/-- Spaces in front make no difference. -/
theorem Inside.Makes.skipSpaces (h : tag.Makes s found slash after) :
    Inside.Makes s found slash after { tag with
        pos := skipWhile Text.isSpace (bytes s) tag.pos } ∧
      tag.pos ≤ skipWhile Text.isSpace (bytes s) tag.pos := by
  obtain ⟨rest, hat, hmakes⟩ := h
  have hspaces := hat.skipWhile Text.uniform_isSpace
  rw [← attributes_dropWhile] at hmakes
  exact ⟨⟨_, hspaces, hmakes⟩, hat.le_of_suffix hspaces (List.dropWhile_suffix _)⟩

/-- What is read where the tag does not end adds to the attributes. -/
theorem attributeAt_spec {c : Char} (hclose : c ≠ '>') (hsolidus : c ≠ '/')
    (hat : At s tag.pos (c :: cs)) (hfound : tag.attributes ++ (attributes (c :: cs)).1 = found)
    (hslash : (tag.selfClosing || (attributes (c :: cs)).2.1) = slash)
    (hafter : (attributes (c :: cs)).2.2 = after) :
    ∃ next, attributeAt s tag = some next ∧ next.Makes s found slash after ∧
      tag.pos < next.pos := by
  rw [attributeAt, hat.slice?_skipWhile uniform_isNameChar]
  simp only [Option.bind_eq_bind, Option.bind_some]
  by_cases hname : isNameChar c = true
  · obtain ⟨next, hassigned, hnext⟩ := assignedAt_spec (hat.skipWhile uniform_isNameChar)
    have hsuffix : (assigned ((c :: cs).dropWhile isNameChar)).2 <:+ cs := by
      rw [List.dropWhile_cons_of_pos hname]
      exact (Token.suffix_assigned _).trans (List.dropWhile_suffix _)
    have hempty : (String.ofList ((c :: cs).takeWhile isNameChar)).isEmpty = false := by
      rw [List.takeWhile_cons_of_pos hname]
      simp
    rw [attributes_of_isNameChar hname] at hfound hslash hafter
    rw [hempty, if_neg Bool.false_ne_true, hassigned]
    refine ⟨_, rfl, ⟨_, hnext, ?_, hslash, hafter⟩, hat.lt_of_suffix hnext hsuffix⟩
    simpa using hfound
  · -- The character is passed over as a whole, however many bytes it has.
    have hempty : (String.ofList ((c :: cs).takeWhile isNameChar)).isEmpty = true := by
      rw [List.takeWhile_cons_of_neg hname]
      rfl
    rw [attributes_skip (by simpa using hname) hclose fun h => absurd h hsolidus]
      at hfound hslash hafter
    rw [hempty, if_pos rfl, hat.slice?_end]
    simp only [Option.bind_some, String.toList_ofList, List.head?_cons, Option.elim_some]
    exact ⟨_, rfl, ⟨cs, hat.tail, hfound, hslash, hafter⟩, Nat.lt_add_of_pos_right c.utf8Size_pos⟩

/-- A round has an answer, moves on and makes the same attributes. -/
theorem attributeRound_spec (h : tag.Makes s found slash after) :
    ∃ round, attributeRound s tag = some round ∧
      round.Leads (fun next => next.Makes s found slash after ∧ tag.pos < next.pos)
        (Inside.Ends s found slash after) := by
  obtain ⟨⟨rest, hat, hfound, hslash, hafter⟩, hle⟩ := h.skipSpaces
  unfold attributeRound
  generalize skipWhile Text.isSpace (bytes s) tag.pos = pos at hat hle
  cases rest with
  | nil =>
    simp only [attributes, List.append_nil, Bool.or_false] at hfound hslash hafter
    simp only [hat.byte?_eq, Text.utf8_nil, List.head?_nil, Option.map_none]
    exact ⟨_, rfl, hafter ▸ hat, hfound, hslash⟩
  | cons c cs =>
    obtain ⟨b, hb, hbyte⟩ := hat.exists_byte
    simp only [hb]
    by_cases hclose : c = '>'
    · obtain rfl := (hbyte '>' (by decide)).mpr hclose
      subst hclose
      simp only [attributes, List.append_nil, Bool.or_false] at hfound hslash hafter
      exact ⟨_, rfl, hafter ▸ hat.next (by decide), hfound, hslash⟩
    · by_cases hsolidus : c = '/'
      · obtain rfl := (hbyte '/' (by decide)).mpr hsolidus
        subst hsolidus
        have hnext := hat.next (by decide)
        by_cases hhead : cs.head? = some '>'
        · obtain ⟨cs, rfl⟩ := List.head?_eq_some_iff.mp hhead
          simp only [attributes, List.append_nil, Bool.or_true] at hfound hslash hafter
          simp only [(hnext.byte?_eq_some_iff (by decide)).mpr hhead, if_true]
          exact ⟨_, rfl, hafter ▸ hnext.next (by decide), hfound, hslash⟩
        · rw [attributes_skip rfl hclose fun _ => hhead] at hfound hslash hafter
          simp only [mt (hnext.byte?_eq_some_iff (by decide)).mp hhead, if_false]
          exact ⟨_, rfl, ⟨cs, hnext, hfound, hslash, hafter⟩, Nat.lt_succ_of_le hle⟩
      · split
        · next heq => cases heq
        · next heq => exact absurd ((hbyte '>' (by decide)).mp (Option.some.inj heq)) hclose
        · next heq => exact absurd ((hbyte '/' (by decide)).mp (Option.some.inj heq)) hsolidus
        · obtain ⟨next, hattribute, hmakes, hlt⟩ :=
            attributeAt_spec hclose hsolidus hat hfound hslash hafter
          rw [hattribute]
          exact ⟨_, rfl, hmakes, Nat.lt_of_le_of_lt hle hlt⟩

/-- The end of a tag is behind where its attributes are read from. -/
theorem suffix_attributes_tail (d : Char) (cs : List Char) :
    (attributes (d :: cs)).2.2 <:+ cs := by
  rw [attributes.eq_def]
  split
  · next h => cases h
  · next h => cases h; exact List.suffix_refl _
  · next h => cases h; exact List.suffix_cons _ _
  · next h =>
    obtain ⟨rfl, rfl⟩ := List.cons.inj h
    split
    · exact (Token.suffix_attributes _).trans
        ((Token.suffix_assigned _).trans (List.dropWhile_suffix _))
    · exact Token.suffix_attributes _

/-- A start tag whose name begins behind the position's `<`. -/
theorem startTag_spec {c : Cursor} {name : String} (h : At s c.pos ('<' :: cs))
    (hname : lowerName (String.ofList (cs.takeWhile isNameChar)) = name)
    (hattributes : attributes (cs.dropWhile isNameChar) = (found, slash, after)) :
    ∃ next, startTag s c = some (⟨next, .startTag name found (slash || isVoid name) :: c.out⟩,
        if isRawText name && !(slash || isVoid name) then some name else none) ∧
      At s next after := by
  have hcs := h.next (by decide)
  have hmakes : Inside.Makes s found slash after
      ⟨skipWhile isNameChar (bytes s) (c.pos + 1), [], false⟩ := by
    refine ⟨_, hcs.skipWhile uniform_isNameChar, ?_, ?_, ?_⟩
    · rw [hattributes, List.nil_append]
    · rw [hattributes, Bool.false_or]
    · rw [hattributes]
  obtain ⟨tag, htag, hends⟩ := iterate_spec Inside.pos (fun _ => Inside.Makes.le_size)
    (fun _ => attributeRound_spec) hmakes
  rw [startTag, hcs.slice?_skipWhile uniform_isNameChar]
  simp only [Option.bind_eq_bind, Option.bind_some, htag, hname, hends.attributes_eq,
    hends.slash_eq]
  exact ⟨_, rfl, hends.position⟩

end Attributes

/-- The characters that an end tag begins with. -/
def endTagWord (name : String) : List Char := '<' :: '/' :: name.toList

section EndTags

variable {name : String}

theorem splitRawText?_cons (name : String) (c : Char) (cs : List Char) :
    splitRawText? name (c :: cs) = match afterEndTag? name (c :: cs) with
      | some after => some ([], after)
      | none => (splitRawText? name cs).map fun (body, after) => (c :: body, after) := rfl

/-- The search passes over what is not a `<`. -/
theorem splitRawText?_append_of_not_mem (h : '<' ∉ cs) (rest : List Char) :
    splitRawText? name (cs ++ rest) =
      (splitRawText? name rest).map fun (body, after) => (cs ++ body, after) := by
  induction cs with
  | nil => simp
  | cons c cs ih =>
    rw [List.mem_cons, not_or] at h
    have hnone : afterEndTag? name (c :: (cs ++ rest)) = none := by
      cases hfound : afterEndTag? name (c :: (cs ++ rest)) with
      | none => rfl
      | some after =>
        obtain ⟨tag, heq, word, spaces, rfl, -⟩ := afterEndTag?_eq_some_iff_isEndTag.mp hfound
        exact absurd (List.cons.inj heq).1.symm h.1
    rw [List.cons_append, splitRawText?_cons, hnone, ih h.2, Option.map_map]
    rfl

theorem splitRawText?_eq_none_of_not_mem (h : '<' ∉ cs) : splitRawText? name cs = none := by
  have hnone : splitRawText? name (cs ++ []) = none := splitRawText?_append_of_not_mem h []
  rwa [List.append_nil] at hnone

/-- An end tag takes as many bytes as its first characters at least. -/
theorem splitRawText?_eq_none_of_lt (h : (utf8 cs).length < (endTagWord name).length) :
    splitRawText? name cs = none := by
  rw [Option.eq_none_iff_forall_ne_some]
  rintro ⟨body, after⟩ hsplit
  obtain ⟨tag, rfl, ⟨word, spaces, rfl, hword, -⟩, -⟩ := splitRawText?_eq_some hsplit
  have hlength : word.length = name.toList.length := by rw [← hword, List.length_map]
  have hle := Nat.lt_of_le_of_lt (Text.length_le_length_utf8 _) h
  simp only [endTagWord, List.length_cons, List.length_append] at hle
  omega

/-- The bytes at a position tell whether an end tag stands there. -/
theorem endTag_iff (hname : ∀ c ∈ endTagWord name, c.toNat < 128) (h : At s pos cs) :
    (standsAt (bytes s) pos (endTagWord name) &&
        byte? (bytes s) (skipWhile Text.isSpace (bytes s) (pos + (endTagWord name).length)) ==
          some '>') = true ↔ ∃ after, afterEndTag? name cs = some after := by
  rw [Bool.and_eq_true, beq_iff_eq, h.standsAt_iff hname]
  constructor
  · rintro ⟨⟨r, hr⟩, hbyte⟩
    have hclose := (h.afterWord hname hr).skipWhile Text.uniform_isSpace
    obtain ⟨after, hafter⟩ :=
      List.head?_eq_some_iff.mp ((hclose.byte?_eq_some_iff (by decide)).mp hbyte)
    exact ⟨after, afterEndTag?_eq_some_iff.mpr ⟨r, hr, hafter⟩⟩
  · rintro ⟨after, hafter⟩
    obtain ⟨r, hr, hclose⟩ := afterEndTag?_eq_some_iff.mp hafter
    have hat := (h.afterWord hname hr).skipWhile Text.uniform_isSpace
    exact ⟨⟨r, hr⟩, (hat.byte?_eq_some_iff (by decide)).mpr (by rw [hclose]; rfl)⟩

theorem at_afterEndTag {after : List Char} (hname : ∀ c ∈ endTagWord name, c.toNat < 128)
    (h : At s pos cs) (hafter : afterEndTag? name cs = some after) :
    At s (skipWhile Text.isSpace (bytes s) (pos + (endTagWord name).length) + 1) after := by
  obtain ⟨r, hr, hclose⟩ := afterEndTag?_eq_some_iff.mp hafter
  have hat := (h.afterWord hname hr).skipWhile Text.uniform_isSpace
  rw [hclose] at hat
  exact hat.next (by decide)

/-- What the search for an end tag finds from a position on. -/
def FindsEndTag (s name : String) (found : Option (Nat × Nat)) (i : Nat) : Prop :=
  ∃ rest, At s i rest ∧ (splitRawText? name rest).map (fun (body, after) =>
    (i + (utf8 body).length, s.utf8ByteSize - (utf8 after).length)) = found

theorem endTagRound_spec (hname : ∀ c ∈ endTagWord name, c.toNat < 128)
    {found : Option (Nat × Nat)} {i : Nat} (h : FindsEndTag s name found i) :
    ∃ round, endTagRound (bytes s) (endTagWord name) i = some round ∧
      round.Leads (fun next => FindsEndTag s name found next ∧ i < next) (· = found) := by
  obtain ⟨rest, hat, rfl⟩ := h
  unfold endTagRound
  by_cases hlength : i + (endTagWord name).length ≤ (bytes s).length
  · rw [if_pos hlength, hat.from?, Option.bind_eq_bind, Option.bind_some]
    by_cases hmem : '<' ∈ rest
    · obtain ⟨front, cs, rfl, hfront⟩ := List.eq_append_cons_of_mem hmem
      have hlt : At s (i + (utf8 front).length) ('<' :: cs) := hat.advance
      rw [Text.indexOf?_append (by decide) hfront, splitRawText?_append_of_not_mem hfront,
        splitRawText?_cons]
      dsimp only
      split
      · next hcond =>
        obtain ⟨after, hafter⟩ := (endTag_iff hname hlt).mp hcond
        have hsize := (at_afterEndTag hname hlt hafter).size_eq
        refine ⟨_, rfl, ?_⟩
        rw [hafter]
        simp only [Round.Leads, Option.map_some, List.append_nil, Option.some_inj, Prod.mk.injEq,
          true_and]
        omega
      · next hcond =>
        have hnone : afterEndTag? name ('<' :: cs) = none := by
          rw [Option.eq_none_iff_forall_ne_some]
          exact fun after hafter => hcond ((endTag_iff hname hlt).mpr ⟨after, hafter⟩)
        refine ⟨_, rfl, ⟨cs, hlt.next (by decide), ?_⟩, by omega⟩
        simp only [hnone, Option.map_map]
        refine congrArg (Option.map · (splitRawText? name cs)) (funext fun (body, after) => ?_)
        simp only [Function.comp_apply, Text.utf8_append, List.length_append, Text.length_utf8_cons,
          show '<'.utf8Size = 1 from rfl, Prod.mk.injEq, and_true]
        omega
    · rw [Text.indexOf?_eq_none (by decide) hmem, splitRawText?_eq_none_of_not_mem hmem]
      exact ⟨_, rfl, rfl⟩
  · -- What is left is too short for an end tag.
    have hshort : (utf8 rest).length < (endTagWord name).length := by
      have := hat.size_eq
      rw [Text.length_bytes] at hlength
      omega
    rw [if_neg hlength, splitRawText?_eq_none_of_lt hshort]
    exact ⟨_, rfl, rfl⟩

theorem FindsEndTag.le_size {found : Option (Nat × Nat)} {i : Nat}
    (h : FindsEndTag s name found i) : i ≤ s.utf8ByteSize := by
  obtain ⟨rest, hat, -⟩ := h
  exact hat.le_size

theorem ascii_endTagWord (hraw : isRawText name = true) :
    ∀ c ∈ endTagWord name, c.toNat < 128 := by
  have hname := isAttributeName_of_isTagName (isTagName_of_isRawText hraw)
  have hchars := (isAttributeName_iff.mp hname).2
  rw [endTagWord, List.forall_mem_cons, List.forall_mem_cons]
  exact ⟨by decide, by decide, fun c hc => ascii_of_isNameChar (hchars c hc).1⟩

theorem iterate_endTagRound (hraw : isRawText name = true) (rest : List Char) :
    iterate (endTagRound (utf8 rest) (endTagWord name)) ((utf8 rest).length + 1) 0 =
      some ((splitRawText? name rest).map fun (body, after) =>
        ((utf8 body).length, (utf8 rest).length - (utf8 after).length)) := by
  have hfinds : FindsEndTag (String.ofList rest) name
      ((splitRawText? name rest).map fun (body, after) =>
        ((utf8 body).length, (utf8 rest).length - (utf8 after).length)) 0 := by
    refine ⟨rest, Text.at_ofList rest, ?_⟩
    simp only [Nat.zero_add, Text.utf8ByteSize_eq, String.toList_ofList]
  obtain ⟨found, hfound, heq⟩ := iterate_spec (fun i => i) (fun _ => FindsEndTag.le_size)
    (fun _ => endTagRound_spec (ascii_endTagWord hraw)) hfinds
  rw [Text.bytes_ofList, Text.utf8ByteSize_eq, String.toList_ofList] at hfound
  rw [hfound, heq]

theorem reverse_ofText (cs : List Char) (name : String) (out : List Token) :
    (Token.ofText cs ++ [Token.endTag name]).reverse ++ out =
      .endTag name :: if (String.ofList cs).isEmpty = true then out
        else .text (String.ofList cs) :: out := by
  cases cs with
  | nil => rfl
  | cons c cs => simp [Token.ofText]

/-- The tokens of a raw-text body. -/
theorem rawText_spec {c : Cursor} (hraw : isRawText name = true) (h : At s c.pos rest) :
    ∃ next, rawText s c name = some (⟨next, (Token.rawBody name rest).1.reverse ++ c.out⟩,
        (splitRawText? name rest).isSome) ∧ At s next (Token.rawBody name rest).2 := by
  have hsearch := iterate_endTagRound hraw rest
  rw [endTagWord] at hsearch
  rw [rawText, h.from?]
  simp only [Option.bind_eq_bind, Option.bind_some, hsearch, Token.rawBody]
  cases hsplit : splitRawText? name rest with
  | none =>
    simp only [Option.map_none, Option.elim_none, h.slice?_end, Option.bind_some]
    refine ⟨_, ?_, h.at_end⟩
    rw [reverse_ofText]
    rfl
  | some found =>
    obtain ⟨body, after⟩ := found
    obtain ⟨tag, rfl, -⟩ := splitRawText?_eq_some hsplit
    simp only [Option.map_some, Option.elim_some, h.slice?, Option.bind_some]
    refine ⟨_, ?_, h.skip (suffix_of_splitRawText? hsplit)⟩
    rw [reverse_ofText]
    rfl

end EndTags

end Cursor

end LiveMarkup.Markup
