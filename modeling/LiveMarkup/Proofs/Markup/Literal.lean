import LiveMarkup.Proofs.Markup.Cursor.Scan
import LiveMarkup.Proofs.Markup.Occurrences

/-!
# Text that only looks like markup

A `<` begins a construct only in front of a letter or a solidus, and where it is the start of a
comment or of a doctype (`OpensMarkup`). A text without such a `<` is a single token, and no other
text is read as what it decodes to (`scan_eq_text_iff`).

The scanner cuts a text at every `<`, decodes the parts one by one and puts them together again.
That this is the decoded text needs no more than that there is no `<` in a reference. A construct,
on the other hand, is a token of another kind, or it is passed over. What is passed over is missing
in the end, since the text behind it does not decode to more than it does in its place.
-/

namespace LiveMarkup.Markup

variable {cs rest front back text : List Char} {c x : Char}

namespace Reference

theorem not_mem_of_isNumeral {base n : Nat} (hbase : base ≤ 16) (hx : Text.isDigitOf base x = false)
    (h : Text.IsNumeral base cs n) : x ∉ cs := by
  intro hmem
  have hdigit := List.all_eq_true.mp ((Text.isNumeral_iff hbase).mp h).1 x hmem
  rw [hx] at hdigit
  cases hdigit

/-- Angle brackets stand in no reference. -/
theorem IsReference.bracket_not_mem (h : IsReference text c) (hx : x = '<' ∨ x = '>') :
    x ∉ text := by
  obtain ⟨hdecimal, hhexadecimal, hother⟩ : Text.isDigitOf 10 x = false ∧
      Text.isDigitOf 16 x = false ∧ x ∉ ['&', '#', ';', 'x', 'X'] := by
    rcases hx with rfl | rfl <;> exact ⟨rfl, rfl, by decide⟩
  cases h with
  | named hname => rcases hx with rfl | rfl <;> cases hname <;> decide
  | decimal _ _ hdigits =>
    have hnumeral := not_mem_of_isNumeral (by decide) hdecimal hdigits
    simp_all
  | hexadecimal hletter _ _ hdigits =>
    have hnumeral := not_mem_of_isNumeral (by decide) hhexadecimal hdigits
    rcases hletter with rfl | rfl <;> simp_all

theorem read?_append_bracket (hx : x = '<' ∨ x = '>') (h : read? cs = none) (rest : List Char) :
    read? (cs ++ x :: rest) = none := by
  rw [Option.eq_none_iff_forall_ne_some]
  rintro ⟨d, after⟩ hread
  obtain ⟨text, href, heq⟩ := read?_eq_some_iff.mp hread
  have hnot : ∀ back, cs ≠ text ++ back := by
    intro back hcs
    rw [read?_eq_some_iff.mpr ⟨text, href, hcs⟩] at h
    cases h
  rcases List.append_eq_append_iff.mp heq with ⟨more, htext, hmore⟩ | ⟨more, hcs, -⟩
  · cases more with
    | nil => exact hnot [] (by simpa using htext.symm)
    | cons y more =>
      obtain ⟨rfl, -⟩ := List.cons.inj hmore
      exact href.bracket_not_mem hx (by simp [htext])
  · exact hnot more hcs

/-- Decoding can stop at an angle bracket and begin anew behind it. -/
theorem decode_append_bracket (hx : x = '<' ∨ x = '>') (cs rest : List Char) :
    decode (cs ++ x :: rest) = decode cs ++ x :: decode rest := by
  have hne : x ≠ '&' := by rcases hx with rfl | rfl <;> decide
  fun_induction decode cs with
  | case1 => exact decode_cons hne
  | case2 cs d after hread ih =>
    obtain ⟨text, href, rfl⟩ := read?_eq_some_iff.mp hread
    have hfound : read? (text ++ after ++ x :: rest) = some (d, after ++ x :: rest) :=
      read?_eq_some_iff.mpr ⟨text, href, by simp⟩
    rw [List.cons_append, decode_reference hfound, ih, List.cons_append]
  | case3 cs hread ih =>
    rw [List.cons_append, decode_ampersand (read?_append_bracket hx hread rest), ih,
      List.cons_append]
  | case4 y cs hy ih => rw [List.cons_append, decode_cons hy, ih, List.cons_append]

theorem decode_eq_nil_iff : decode cs = [] ↔ cs = [] := by
  refine ⟨fun h => ?_, fun h => by rw [h, decode_nil]⟩
  cases cs with
  | nil => rfl
  | cons c cs =>
    rw [decode] at h
    split at h
    · split at h <;> cases h
    · cases h

end Reference

open Reference (decode decodeBytes)

/-- What is left when all up to a character is dropped begins with that character. -/
theorem dropWhile_bne_cases (x : Char) (cs : List Char) :
    cs.dropWhile (· != x) = [] ∨ ∃ after, cs.dropWhile (· != x) = x :: after := by
  cases hdrop : cs.dropWhile (· != x) with
  | nil => exact .inl rfl
  | cons y after =>
    have hy := List.head?_dropWhile_not (· != x) cs
    rw [hdrop, List.head?_cons] at hy
    obtain rfl : y = x := by simpa using hy
    exact .inr ⟨after, rfl⟩

/-- What stands behind a `<` makes it the beginning of a construct: a letter, a solidus, the rest of
the mark of a comment, or the word of a doctype in any case. -/
inductive OpensMarkup : List Char → Prop
  | tag {c : Char} {rest : List Char} : c.isAlpha = true → OpensMarkup (c :: rest)
  | endTag {rest : List Char} : OpensMarkup ('/' :: rest)
  | comment {rest : List Char} : OpensMarkup ("!--".toList ++ rest)
  | doctype {word rest : List Char} : word.map Char.toLower = "!doctype".toList →
      OpensMarkup (word ++ rest)

/-- No `<` begins a construct. -/
def Literal (cs : List Char) : Prop := ∀ front back, cs = front ++ '<' :: back → ¬ OpensMarkup back

theorem Literal.of_append (h : Literal (front ++ cs)) : Literal cs := by
  rintro before back rfl
  exact h (front ++ before) back (by simp)

theorem literal_append_of_not_mem (hfront : '<' ∉ front) : Literal (front ++ cs) ↔ Literal cs := by
  refine ⟨Literal.of_append, fun h before back heq => ?_⟩
  rcases List.append_eq_append_iff.mp heq with ⟨more, -, hcs⟩ | ⟨more, hmore, hback⟩
  · exact h more back hcs
  · cases more with
    | nil => exact h [] back hback.symm
    | cons y more =>
      obtain ⟨rfl, -⟩ := List.cons.inj hback
      exact absurd (by simp [hmore]) hfront

theorem literal_cons_lt (h : ¬ OpensMarkup cs) : Literal ('<' :: cs) ↔ Literal cs := by
  refine ⟨@Literal.of_append cs ['<'], fun hcs before back heq => ?_⟩
  cases before with
  | nil =>
    obtain ⟨-, rfl⟩ := List.cons.inj heq
    exact h
  | cons y before => exact hcs before back (List.cons.inj heq).2

namespace Token

/-- A `<` that begins no construct is a text. -/
theorem markupAt_of_not_opensMarkup (h : ¬ OpensMarkup cs) : markupAt cs = ([.text "<"], cs) := by
  unfold markupAt
  split
  · next body hbody =>
    rw [← Text.append_of_isPrefixOf? hbody] at h
    exact absurd .comment h
  · split
    · next after hafter =>
      obtain ⟨word, rfl, hword⟩ := Text.afterWord?_eq_some_iff.mp hafter
      exact absurd (.doctype hword) h
    · split
      · rfl
      · next c more _ _ =>
        have hslash : ¬ (c == '/') = true := fun heq => by
          rw [beq_iff_eq.mp heq] at h
          exact h .endTag
        have halpha : ¬ c.isAlpha = true := fun halpha => h (.tag halpha)
        rw [if_neg hslash, if_neg halpha]

/-- An end tag takes everything up to the next `>`, or to the end. -/
theorem endTagAt_snd (cs : List Char) :
    (endTagAt cs).2 = [] ∨ ∃ front, cs = front ++ '>' :: (endTagAt cs).2 := by
  have hsuffix : (cs.dropWhile isNameChar).dropWhile (· != '>') <:+ cs :=
    (List.dropWhile_suffix _).trans (List.dropWhile_suffix _)
  rw [endTagAt]
  rcases dropWhile_bne_cases '>' (cs.dropWhile isNameChar) with hdrop | ⟨after, hdrop⟩
  · exact .inl (by rw [hdrop, List.drop_nil])
  · obtain ⟨front, hfront⟩ := hdrop ▸ hsuffix
    exact .inr ⟨front, by rw [hdrop]; exact hfront.symm⟩

/-- Behind what is passed over there is not more to decode than in its place. -/
theorem length_decode_endTagAt (cs : List Char) :
    (decode (endTagAt cs).2).length ≤ (decode ('/' :: cs)).length := by
  rcases endTagAt_snd cs with hnil | ⟨front, hfront⟩
  · simp [hnil]
  · have hcut : decode ('/' :: cs) = decode ('/' :: front) ++ '>' :: decode (endTagAt cs).2 := by
      rw [← Reference.decode_append_bracket (.inr rfl), List.cons_append, ← hfront]
    rw [hcut, List.length_append, List.length_cons]
    omega

/-- A construct gives a token that is no text, or nothing at all. -/
theorem markupAt_of_opensMarkup (h : OpensMarkup cs) :
    (∃ token tokens, (markupAt cs).1 = token :: tokens ∧ token.isText = false) ∨
      (markupAt cs).1 = [] ∧ (decode (markupAt cs).2).length ≤ (decode cs).length := by
  unfold markupAt
  split
  · unfold commentAt
    split
    · exact .inl ⟨_, _, rfl, rfl⟩
    · exact .inl ⟨_, _, rfl, rfl⟩
  · next hcomment =>
    split
    · unfold doctypeAt
      split
      · exact .inl ⟨_, _, rfl, rfl⟩
      · exact .inr ⟨rfl, by simp⟩
    · next hdoctype =>
      cases h with
      | comment => cases hcomment
      | doctype hword =>
        rw [Text.afterWord?_eq_some_iff.mpr ⟨_, rfl, hword⟩] at hdoctype
        cases hdoctype
      | @endTag more =>
        have hread : endTagAt more = ((endTagAt more).1, (endTagAt more).2) := rfl
        by_cases hname : (more.takeWhile isNameChar).isEmpty = true
        · exact .inr ⟨if_pos hname, length_decode_endTagAt more⟩
        · exact .inl ⟨_, _, if_neg hname, rfl⟩
      | @tag c more hc =>
        have hslash : ¬ (c == '/') = true := by
          rw [beq_iff_eq]
          rintro rfl
          cases hc
        simp only [if_neg hslash, if_pos hc]
        obtain ⟨name, found, selfClosing, -, htag | ⟨body, htag⟩⟩ := startTagAt_cases hc more
        · exact .inl ⟨_, _, htag, rfl⟩
        · exact .inl ⟨_, _, htag, rfl⟩

/-- What the first step gives of a text, and what it leaves: a piece that stands for itself, a token
of another kind, or nothing. -/
inductive First (cs : List Char) : List Token → List Char → Prop
  | piece {decoded rest : List Char} : decoded ≠ [] → decode cs = decoded ++ decode rest →
      (Literal cs ↔ Literal rest) → First cs (ofText decoded) rest
  | construct {token : Token} {tokens : List Token} {rest : List Char} : ¬ Literal cs →
      token.isText = false → First cs (token :: tokens) rest
  | dropped {rest : List Char} : ¬ Literal cs → (decode rest).length < (decode cs).length →
      First cs [] rest

theorem first_markupAt (cs : List Char) : First ('<' :: cs) (markupAt cs).1 (markupAt cs).2 := by
  have hdecode : decode ('<' :: cs) = '<' :: decode cs := Reference.decode_cons (by decide)
  by_cases h : OpensMarkup cs
  · have hnot : ¬ Literal ('<' :: cs) := fun hliteral => hliteral [] cs rfl h
    rcases markupAt_of_opensMarkup h with ⟨token, tokens, htokens, htext⟩ | ⟨hnil, hle⟩
    · rw [htokens]
      exact .construct hnot htext
    · rw [hnil]
      exact .dropped hnot (by rw [hdecode, List.length_cons]; omega)
  · rw [markupAt_of_not_opensMarkup h]
    exact .piece (List.cons_ne_nil '<' []) hdecode (literal_cons_lt h)

theorem first_step (c : Char) (cs : List Char) : First (c :: cs) (step c cs).1 (step c cs).2 := by
  by_cases hc : c = '<'
  · subst hc
    exact first_markupAt cs
  · have htake : '<' ∉ c :: cs.takeWhile (· != '<') := by
      rw [List.mem_cons, not_or]
      exact ⟨Ne.symm hc, fun hmem => by simpa using List.mem_takeWhile_imp hmem⟩
    have hcut : c :: cs = c :: cs.takeWhile (· != '<') ++ cs.dropWhile (· != '<') := by simp
    rw [step, if_neg (by simpa using hc)]
    refine .piece (by simp [Reference.decode_eq_nil_iff]) ?_ ?_
    · conv_lhs => rw [hcut]
      rcases dropWhile_bne_cases '<' cs with hdrop | ⟨after, hdrop⟩
      · simp [hdrop]
      · rw [hdrop, Reference.decode_append_bracket (.inl rfl),
          Reference.decode_cons (c := '<') (by decide)]
    · conv_lhs => rw [hcut]
      exact literal_append_of_not_mem htake

theorem prepend_ofText_ofText (decoded more : List Char) :
    prepend (ofText decoded) (ofText more) = ofText (decoded ++ more) := by
  cases decoded with
  | nil => rfl
  | cons d decoded =>
    cases more with
    | nil => simp [ofText, prepend]
    | cons e more => simp [ofText, prepend, String.append_assoc]

theorem ofText_eq_cons {whole : List Char} {token : Token} {tokens : List Token}
    (h : ofText whole = token :: tokens) : token = .text (String.ofList whole) ∧ tokens = [] := by
  rw [ofText] at h
  split at h
  · cases h
  · cases h
    exact ⟨rfl, rfl⟩

theorem prepend_of_isText_eq_false {token : Token} (h : token.isText = false)
    (tokens more : List Token) : prepend (token :: tokens) more = token :: (tokens ++ more) := by
  unfold prepend
  split
  · next heq =>
    cases heq
    cases h
  · rfl

/-- A text in front of sound tokens is a text only if these are one. -/
theorem of_prepend_ofText {decoded whole : List Char} {tokens : List Token} (hne : decoded ≠ [])
    (hsound : ∀ token ∈ tokens, token.Sound) (h : prepend (ofText decoded) tokens = ofText whole) :
    ∃ more, tokens = ofText more ∧ whole = decoded ++ more := by
  have hfirst : ofText decoded = [.text (String.ofList decoded)] := if_neg (by simpa using hne)
  rw [hfirst] at h
  unfold prepend at h
  split at h
  · next d u after heq =>
    cases heq
    obtain ⟨htext, rfl⟩ := ofText_eq_cons h.symm
    have hu : u ≠ "" := hsound _ List.mem_cons_self
    refine ⟨u.toList, by rw [ofText_toList, if_neg hu], ?_⟩
    rw [Token.text.injEq] at htext
    simpa using (congrArg String.toList htext).symm
  · obtain ⟨htext, rfl⟩ := ofText_eq_cons h.symm
    rw [Token.text.injEq, String.ofList_inj] at htext
    exact ⟨[], rfl, by simp [htext]⟩

/-- A text without constructs is read as what it decodes to. What is read as a single text is no
more than that, and less if there is a construct. -/
theorem scanList_literal (cs : List Char) :
    (Literal cs → scanList cs = ofText (decode cs)) ∧
    ∀ whole, scanList cs = ofText whole → whole.length ≤ (decode cs).length ∧
      (whole.length = (decode cs).length → Literal cs) := by
  fun_induction scanList cs with
  | case1 =>
    refine ⟨fun _ => by simp [ofText], fun whole h => ?_⟩
    have hwhole : whole = [] := by
      by_contra hne
      rw [ofText, if_neg (by simpa using hne)] at h
      cases h
    exact ⟨by simp [hwhole], fun _ front back heq => by simp at heq⟩
  | case2 c cs ih =>
    obtain ⟨htokens, hrest⟩ := ih
    have hfirst := first_step c cs
    generalize (step c cs).1 = tokens at hfirst
    generalize (step c cs).2 = rest at hfirst htokens hrest
    cases hfirst with
    | @piece decoded _ hne hdecode hliteral =>
      rw [hdecode, hliteral, List.length_append]
      refine ⟨fun h => by rw [htokens h, prepend_ofText_ofText], fun whole h => ?_⟩
      obtain ⟨more, hmore, rfl⟩ := of_prepend_ofText hne (sound_scanList rest).1 h
      obtain ⟨hle, heq⟩ := hrest more hmore
      rw [List.length_append]
      exact ⟨by omega, fun h => heq (by omega)⟩
    | construct hnot htext =>
      refine ⟨fun h => absurd h hnot, fun whole h => ?_⟩
      rw [prepend_of_isText_eq_false htext] at h
      rw [(ofText_eq_cons h.symm).1] at htext
      cases htext
    | dropped hnot hlt =>
      refine ⟨fun h => absurd h hnot, fun whole h => ?_⟩
      -- What is left gives all of the text, and it is too short to decode to it.
      have hle := (hrest whole h).1
      exact ⟨by omega, by omega⟩

/-- A text is read as what it decodes to exactly if it has no construct in it. -/
theorem scanList_eq_ofText_iff (cs : List Char) :
    scanList cs = ofText (decode cs) ↔ Literal cs :=
  ⟨fun h => ((scanList_literal cs).2 _ h).2 rfl, (scanList_literal cs).1⟩

end Token

/-- A text in which no `<` has a letter, a solidus, the rest of the mark of a comment or, in any
case, the word of a doctype behind it is scanned into a single token, which is the decoded text; the
empty text has no token. Only such a text is scanned into this. -/
theorem Cursor.scan_eq_text_iff (s : String) : ∃ decoded, decodeBytes s = some decoded ∧
    (Cursor.scan s = some (if s = "" then [] else [.text decoded]) ↔
      ∀ front back, s.toList = front ++ '<' :: back → ¬ OpensMarkup back) := by
  refine ⟨_, Reference.decodeBytes_eq s, ?_⟩
  have htext : Token.ofText (decode s.toList) =
      if s = "" then [] else [.text (String.ofList (decode s.toList))] := by
    rw [Token.ofText]
    simp [Reference.decode_eq_nil_iff]
  rw [Cursor.scan_eq, Option.some_inj, ← htext]
  exact Token.scanList_eq_ofText_iff s.toList

-- Brackets in front of a bracket, a digit, an umlaut and half the mark of a comment are text. A
-- doctype without an end leaves nothing.
example : Token.scan "<<3 &amp;<ü<!-&lt;p>" = [.text "<<3 &<ü<!-<p>"] ∧
    Token.scan "a<!DocType" = [.text "a"] := by
  constructor <;> cbv

end LiveMarkup.Markup
