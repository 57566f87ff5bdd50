import LiveMarkup.Proofs.Markup.Cursor.Tags
import LiveMarkup.Proofs.Markup.Stream

/-!
# Scanning by byte positions

The scanner that runs over bytes has an answer for every text, and it is `Token.scan` (`scan_eq`).
A round of its loop is one step of the scanner that runs over characters (`scanRound_spec`): it
adds the tokens of that step, and its position comes to stand in front of what the step leaves.
With this a position between two rounds is a boundary of characters, and moves forward, as a step
leaves less than it is given.
-/

namespace LiveMarkup.Markup.Cursor

open Text (utf8 At bytes slice? from? byte? skipWhile indexOf? standsAt IsBoundary)
open Reference (decode decodeBytes decodeBytes_eq)
open Token (Apart prepend scanList step ofText)

variable {s : String} {c : Cursor} {cs : List Char}

theorem push_eq_cons {out : List Token} {token : Token} (h : ∀ last ∈ out.head?, Apart last token) :
    push out token = token :: out := by
  unfold push
  split
  · next s out t =>
    rcases h _ rfl with h | h
    · cases h
    · cases h
  · rfl

theorem push_of_isText_eq_false {token : Token} (h : token.isText = false) (out : List Token) :
    push out token = token :: out :=
  push_eq_cons fun _ _ => .inr h

theorem foldl_push_prepend (first rest out : List Token) :
    (prepend first rest).foldl push out = rest.foldl push (first.foldl push out) := by
  unfold prepend
  split
  · next s t rest =>
    have hjoin : push out (.text (s ++ t)) = push (push out (.text s)) (.text t) := by
      cases out with
      | nil => rfl
      | cons last out =>
        cases last with
        | text u => simp only [push, String.append_assoc]
        | doctype _ => rfl
        | startTag _ _ _ => rfl
        | endTag _ => rfl
        | comment _ => rfl
    simp only [List.foldl_cons, List.foldl_nil, hjoin]
  · rw [List.foldl_append]

/-- Tokens of which no two texts meet are all added. -/
theorem foldl_push_of_isChain {tokens out : List Token} (htokens : tokens.IsChain Apart)
    (hout : ∀ last ∈ out.head?, ∀ first ∈ tokens.head?, Apart last first) :
    tokens.foldl push out = tokens.reverse ++ out := by
  induction tokens generalizing out with
  | nil => rfl
  | cons token tokens ih =>
    obtain ⟨hnext, htokens⟩ := List.isChain_cons.mp htokens
    rw [List.foldl_cons, push_eq_cons fun last hlast => hout last hlast _ rfl, ih htokens]
    · simp
    · intro last hlast
      obtain rfl := Option.some.inj hlast
      exact hnext

/-- The cursor `next` is behind a construct that begins at the cursor `c`, and has its tokens. -/
structure Takes (s : String) (c : Cursor) (construct : List Token × List Char) (next : Cursor) :
    Prop where
  position : At s next.pos construct.2
  out_eq : next.out = construct.1.foldl push c.out

/-- What a round comes to at a construct. The loop ends behind a construct that is the rest of the
text, or in front of a doctype that has no end. -/
inductive Reads (s : String) (c : Cursor) (construct : List Token × List Char) :
    Round Cursor Cursor → Prop
  | again {next : Cursor} : Takes s c construct next → Reads s c construct (.again next)
  | done {result : Cursor} : Takes s c construct result → construct.2 = [] →
      Reads s c construct (.done result)
  | unended : standsAt (bytes s) c.pos "<!doctype".toList = true → doctype s c = some none →
      construct = ([], []) → Reads s c construct (.done c)

theorem pushText_eq (out : List Token) (cs : List Char) :
    pushText out (String.ofList cs) = some ((ofText (decode cs)).foldl push out) := by
  rw [pushText, decodeBytes_eq, String.toList_ofList, ofText]
  cases decode cs with
  | nil => rfl
  | cons d ds => simp

theorem textRun_spec {d : Char} (hd : d ≠ '<') (h : At s c.pos (d :: cs)) :
    ∃ next, textRun s c = some next ∧ Takes s c (step d cs) next := by
  have hstep : step d cs = (ofText (decode ((d :: cs).takeWhile (· != '<'))),
      (d :: cs).dropWhile (· != '<')) := by
    rw [step, if_neg (by simpa using hd), List.takeWhile_cons_of_pos (by simpa using hd),
      List.dropWhile_cons_of_pos (by simpa using hd)]
  rw [textRun, h.from?]
  simp only [Option.bind_eq_bind, Option.bind_some, h.seek_eq (a := '<') (by decide),
    h.slice?_run, pushText_eq, hstep]
  exact ⟨_, rfl, h.run _, rfl⟩

/-- The position of a word in a text, and what is behind it. -/
theorem find?_eq {word : List Char} (cs : List Char) : find? word (String.ofList cs) =
    (Text.splitFirst? (word.isPrefixOf? ·) cs).map fun (before, _) => (utf8 before).length := by
  simp only [find?, String.toList_ofList, Text.utf8ByteSize_eq]

theorem append_of_splitFirst? {word before rest : List Char}
    (h : Text.splitFirst? (word.isPrefixOf? ·) cs = some (before, rest)) :
    cs = before ++ (word ++ rest) := by
  obtain ⟨found, rfl, hfound, -⟩ := Text.of_splitFirst?_eq_some h
  rw [Text.append_of_isPrefixOf? hfound]

theorem comment_spec (h : At s c.pos ("<!--".toList ++ cs)) :
    ∃ next, comment s c = some next ∧ Takes s c (Token.commentAt cs) next := by
  have hbody : At s (c.pos + 4) cs := h.advance
  rw [comment, hbody.slice?_end, Option.bind_eq_bind, Option.bind_some, find?_eq, Token.commentAt]
  cases hsplit : Text.splitFirst? ("-->".toList.isPrefixOf? ·) cs with
  | some found =>
    obtain ⟨before, after⟩ := found
    obtain rfl := append_of_splitFirst? hsplit
    simp only [Option.map_some, hbody.slice?, Option.bind_some]
    exact ⟨_, rfl, hbody.advance.advance, (push_of_isText_eq_false rfl _).symm⟩
  | none => exact ⟨_, rfl, hbody.at_end, (push_of_isText_eq_false rfl _).symm⟩

/-- A doctype without an end is the last construct. -/
theorem doctype_spec (h : At s c.pos ('<' :: '!' :: cs)) :
    (∃ next, doctype s c = some (some next) ∧ Takes s c (Token.doctypeAt cs) next) ∨
      doctype s c = some none ∧ Token.doctypeAt cs = ([], []) := by
  have hbody : At s (c.pos + 2) cs := (h.next (by decide)).next (by decide)
  rw [doctype, hbody.slice?_end, Option.bind_eq_bind, Option.bind_some, find?_eq, Token.doctypeAt]
  cases hsplit : Text.splitFirst? ([ '>' ].isPrefixOf? ·) cs with
  | some found =>
    obtain ⟨before, after⟩ := found
    obtain rfl := append_of_splitFirst? hsplit
    have hslice : slice? (String.ofList (before ++ (['>'] ++ after))) 0 (utf8 before).length =
        some (String.ofList before) := by
      simpa using (Text.at_ofList (before ++ (['>'] ++ after))).slice?
    refine .inl ?_
    simp only [Option.map_some, hslice, Option.bind_some, String.toList_ofList]
    exact ⟨_, rfl, hbody.advance.advance, (push_of_isText_eq_false rfl _).symm⟩
  | none => exact .inr ⟨rfl, rfl⟩

theorem endTag_spec (h : At s c.pos ('<' :: '/' :: cs)) :
    ∃ next, endTag s c = some next ∧ Takes s c (Token.endTagAt cs) next := by
  have hname : At s (c.pos + 2) cs := (h.next (by decide)).next (by decide)
  have hrest := hname.skipWhile uniform_isNameChar
  rw [endTag, hname.slice?_skipWhile uniform_isNameChar, Option.bind_eq_bind, Option.bind_some,
    hrest.from?]
  refine ⟨_, rfl, hrest.pass (by decide), ?_⟩
  simp only [Token.endTagAt, lowerName, String.toList_ofList]
  cases cs.takeWhile isNameChar with
  | nil => rfl
  | cons d ds =>
    have hempty : (String.ofList ((d :: ds).map Char.toLower)).isEmpty = false := by simp
    rw [hempty, if_neg Bool.false_ne_true]
    exact (push_of_isText_eq_false rfl _).symm

theorem isChain_ofText_endTag (body : List Char) (name : String) :
    (ofText body ++ [Token.endTag name]).IsChain Apart := by
  rw [ofText]
  split
  · exact .singleton _
  · exact .cons_cons (.inr rfl) (.singleton _)

/-- The tokens of a raw-text element are added as they are. -/
theorem foldl_push_rawBody (tag : Token) (htag : tag.isText = false) (name : String)
    (cs : List Char) (out : List Token) :
    (tag :: (Token.rawBody name cs).1).foldl push out =
      (Token.rawBody name cs).1.reverse ++ tag :: out := by
  obtain ⟨body, hbody⟩ := Token.rawBody_fst name cs
  rw [List.foldl_cons, push_of_isText_eq_false htag, hbody]
  refine foldl_push_of_isChain (isChain_ofText_endTag body name) fun last hlast _ _ => .inl ?_
  obtain rfl := Option.some.inj hlast
  exact htag

/-- A start tag is read alone or with the raw text behind it, which may be the rest of the text. -/
theorem element_spec {d : Char} (h : At s c.pos ('<' :: d :: cs)) :
    ∃ tag name, startTag s c = some (tag, name) ∧
      match name with
      | none => Takes s c (Token.startTagAt (d :: cs)) tag
      | some name => ∃ next closed, rawText s tag name = some (next, closed) ∧
          Takes s c (Token.startTagAt (d :: cs)) next ∧
          (closed = false → (Token.startTagAt (d :: cs)).2 = []) := by
  rcases hattributes : Token.attributes ((d :: cs).dropWhile isNameChar) with ⟨found, slash, after⟩
  obtain ⟨next, hstart, hnext⟩ := startTag_spec h rfl hattributes
  simp only [Token.startTagAt, hattributes]
  generalize hname : lowerName (String.ofList ((d :: cs).takeWhile isNameChar)) = name at hstart
  rw [lowerName, String.toList_ofList] at hname
  rw [hname]
  refine ⟨_, _, hstart, ?_⟩
  by_cases hraw : (isRawText name && !(slash || isVoid name)) = true
  · rw [if_pos hraw, if_pos hraw]
    have hrawText : isRawText name = true := (Bool.and_eq_true_iff.mp hraw).1
    obtain ⟨after', hbody, hafter⟩ := rawText_spec (c := ⟨next, _ :: c.out⟩) hrawText hnext
    refine ⟨_, _, hbody, ⟨hafter, (foldl_push_rawBody _ rfl _ _ _).symm⟩, fun hclosed => ?_⟩
    rw [Option.isSome_eq_false_iff, Option.isNone_iff_eq_none] at hclosed
    rw [Token.rawBody, hclosed]
  · rw [if_neg hraw, if_neg hraw]
    exact ⟨hnext, (push_of_isText_eq_false rfl _).symm⟩

/-- A `<` that begins nothing is text. -/
theorem loneRound_spec (h : At s c.pos ('<' :: cs)) :
    ∃ out, pushText c.out "<" = some out ∧
      Takes s c ([.text "<"], cs) ⟨c.pos + 1, out⟩ := by
  refine ⟨_, pushText_eq c.out ['<'], h.next (by decide), ?_⟩
  rw [Reference.decode_eq_self (by decide)]
  rfl

theorem standsAt_doctype_iff (h : At s c.pos ('<' :: cs)) :
    standsAt (bytes s) c.pos "<!doctype".toList = true ↔
      ∃ after, Text.afterWord? "!doctype".toList cs = some after :=
  h.standsAt_iff (by simp)

/-- Where a doctype begins there is an exclamation mark. -/
theorem eq_cons_of_doctype {after : List Char}
    (h : Text.afterWord? "!doctype".toList cs = some after) : cs = '!' :: cs.drop 1 := by
  cases cs with
  | nil => cases h
  | cons a cs =>
    by_cases ha : a.toLower = '!'
    · rw [eq_of_toLower_eq (by decide) ha, List.drop_one, List.tail_cons]
    · have hnone : Text.afterWord? "!doctype".toList (a :: cs) = none := if_neg ha
      rw [hnone] at h
      cases h

theorem isPrefixOf_lt (h : "!--".toList.isPrefixOf? cs = none) :
    "<!--".toList.isPrefixOf ('<' :: cs) = false := by
  rw [← Bool.not_eq_true, List.isPrefixOf_iff_prefix]
  rintro ⟨body, hbody⟩
  have hcs : "!--".toList ++ body = cs := (List.cons.inj hbody).2
  rw [List.isPrefixOf?_eq_some_iff_append_eq.mpr hcs] at h
  cases h

/-- The construct whose `<` is read, if it is neither a comment nor a doctype. -/
def tagAt : List Char → List Token × List Char
  | [] => ([.text "<"], [])
  | a :: cs =>
    if a == '/' then Token.endTagAt cs
    else if a.isAlpha then Token.startTagAt (a :: cs)
    else ([.text "<"], a :: cs)

theorem markupAt_eq (cs : List Char) : Token.markupAt cs =
    match "!--".toList.isPrefixOf? cs, Text.afterWord? "!doctype".toList cs with
    | some body, _ => Token.commentAt body
    | none, some _ => Token.doctypeAt (cs.drop 1)
    | none, none => tagAt cs := by
  unfold Token.markupAt tagAt
  cases "!--".toList.isPrefixOf? cs with
  | some body => rfl
  | none =>
    cases Text.afterWord? "!doctype".toList cs with
    | some after => rfl
    | none => cases cs <;> rfl

theorem tagRound_spec (h : At s c.pos ('<' :: cs)) :
    ∃ round, tagRound s c = some round ∧ Reads s c (tagAt cs) round := by
  have hcs : At s (c.pos + 1) cs := h.next (by decide)
  have hslash := hcs.byte?_eq_some_iff (a := '/') (by decide)
  have halpha := hcs.byte?_any Text.uniform_isAlpha
  obtain ⟨out, hout, hlone⟩ := loneRound_spec h
  unfold tagRound tagAt
  cases cs with
  | nil =>
    rw [if_neg (mt hslash.mp (by simp)), halpha, if_neg (by simp), hout]
    exact ⟨_, rfl, .again hlone⟩
  | cons a cs =>
    rw [List.head?_cons, Option.some_inj] at hslash
    rw [List.head?_cons, Option.any_some] at halpha
    dsimp only
    by_cases hend : a = '/'
    · subst hend
      obtain ⟨next, hnext, htakes⟩ := endTag_spec h
      rw [if_pos (hslash.mpr rfl), hnext]
      exact ⟨_, rfl, .again htakes⟩
    · rw [if_neg (mt hslash.mp hend), if_neg (show ¬ (a == '/') = true by simpa using hend)]
      by_cases ha : a.isAlpha = true
      · obtain ⟨tag, name, htag, hbody⟩ := element_spec h
        rw [if_pos (halpha.trans ha), if_pos ha, htag]
        cases name with
        | none => exact ⟨_, rfl, .again hbody⟩
        | some name =>
          obtain ⟨next, closed, hrawText, htakes, hclosed⟩ := hbody
          simp only [Option.bind_eq_bind, Option.bind_some, hrawText]
          cases closed with
          | true => exact ⟨_, rfl, .again htakes⟩
          | false => exact ⟨_, rfl, .done htakes (hclosed rfl)⟩
      · rw [if_neg (fun h => ha (halpha.symm.trans h)), if_neg ha, hout]
        exact ⟨_, rfl, .again hlone⟩

/-- A `<` at the position begins what the scanner reads there. -/
theorem markupRound_spec (h : At s c.pos ('<' :: cs)) :
    ∃ round, scanRound s c = some round ∧ Reads s c (Token.markupAt cs) round := by
  have hlt : c.pos < s.utf8ByteSize := h.lt_size_iff.mpr (List.cons_ne_nil _ _)
  have hbyte : byte? (bytes s) c.pos = some '<' := (h.byte?_eq_some_iff (by decide)).mpr rfl
  rw [scanRound, if_pos hlt, hbyte, markupAt_eq]
  simp only [Option.bind_eq_bind, Option.bind_some, ne_eq, not_true_eq_false, if_false,
    h.slice?_end, String.toList_ofList]
  cases hcomment : "!--".toList.isPrefixOf? cs with
  | some body =>
    obtain rfl := Text.append_of_isPrefixOf? hcomment
    obtain ⟨next, hnext, htakes⟩ := comment_spec h
    have hmark : "<!--".toList.isPrefixOf ('<' :: ("!--".toList ++ body)) = true := rfl
    rw [if_pos hmark, hnext]
    exact ⟨_, rfl, .again htakes⟩
  | none =>
    rw [isPrefixOf_lt hcomment, if_neg Bool.false_ne_true]
    cases hdoctype : Text.afterWord? "!doctype".toList cs with
    | some after =>
      have hstands := (standsAt_doctype_iff h).mpr ⟨after, hdoctype⟩
      rw [if_pos hstands]
      rw [eq_cons_of_doctype hdoctype] at h
      rcases doctype_spec h with ⟨next, hnext, htakes⟩ | ⟨hnone, htokens⟩
      · rw [hnext]
        exact ⟨_, rfl, .again htakes⟩
      · rw [hnone]
        exact ⟨_, rfl, .unended hstands hnone htokens⟩
    | none =>
      have hstands : ¬ standsAt (bytes s) c.pos "<!doctype".toList = true := by
        rw [standsAt_doctype_iff h, hdoctype]
        simp
      rw [if_neg hstands]
      exact tagRound_spec h

/-- A round has an answer at every boundary in front of the end. -/
theorem scanRound_spec {d : Char} (h : At s c.pos (d :: cs)) :
    ∃ round, scanRound s c = some round ∧ Reads s c (step d cs) round := by
  by_cases hd : d = '<'
  · subst hd
    exact markupRound_spec h
  · obtain ⟨b, hb, hbyte⟩ := h.exists_byte
    obtain ⟨next, hnext, htakes⟩ := textRun_spec hd h
    refine ⟨.again next, ?_, .again htakes⟩
    unfold scanRound
    rw [if_pos (h.lt_size_iff.mpr (List.cons_ne_nil _ _)), hb]
    simp only [Option.bind_eq_bind, Option.bind_some]
    rw [if_pos (mt (hbyte '<' (by decide)).mp hd), hnext]
    rfl

/-- What the tokens so far and those of the rest make. -/
def Makes (s : String) (tokens : List Token) (c : Cursor) : Prop :=
  ∃ rest, At s c.pos rest ∧ (scanList rest).foldl push c.out = tokens

theorem Makes.le_size {tokens : List Token} (h : c.Makes s tokens) : c.pos ≤ s.utf8ByteSize := by
  obtain ⟨rest, hat, -⟩ := h
  exact hat.le_size

/-- Behind a construct its tokens and those of the rest make the same. -/
theorem Takes.foldl_push_eq {d : Char} {next : Cursor} (h : Takes s c (step d cs) next) :
    (scanList (step d cs).2).foldl push next.out = (scanList (d :: cs)).foldl push c.out := by
  rw [h.out_eq, Token.scanList_cons, foldl_push_prepend]

theorem Takes.lt_pos {d : Char} {next : Cursor} (hat : At s c.pos (d :: cs))
    (h : Takes s c (step d cs) next) : c.pos < next.pos :=
  hat.lt_of_suffix h.position (Token.suffix_step d cs)

theorem Makes.scanRound_spec {tokens : List Token} (h : c.Makes s tokens) :
    ∃ round, scanRound s c = some round ∧
      round.Leads (fun next => next.Makes s tokens ∧ c.pos < next.pos) (·.out = tokens) := by
  obtain ⟨rest, hat, htokens⟩ := h
  cases rest with
  | nil =>
    have hend := hat.eq_size
    refine ⟨.done c, ?_, ?_⟩
    · rw [scanRound, if_neg (by omega)]
      rfl
    · rwa [Token.scanList_nil] at htokens
  | cons d cs =>
    obtain ⟨round, hround, hreads⟩ := Cursor.scanRound_spec hat
    refine ⟨round, hround, ?_⟩
    rw [← htokens]
    cases hreads with
    | again htakes => exact ⟨⟨_, htakes.position, htakes.foldl_push_eq⟩, htakes.lt_pos hat⟩
    | done htakes hrest =>
      have hout := htakes.foldl_push_eq
      rwa [hrest, Token.scanList_nil] at hout
    | unended _ _ hstep =>
      rw [Round.Leads, Token.scanList_cons, hstep, Token.scanList_nil]
      rfl

/-- The scanner that runs over bytes has an answer for every text. -/
theorem scan_eq (s : String) : scan s = some (Token.scan s) := by
  have hmakes : Makes s ((Token.scan s).foldl push []) ⟨0, []⟩ := ⟨_, Text.at_start s, rfl⟩
  obtain ⟨c, hc, hout⟩ := iterate_spec Cursor.pos (fun _ => Makes.le_size)
    (fun _ => Makes.scanRound_spec) hmakes
  have hapart : (Token.scan s).IsChain Token.Apart := (Token.sound_scanList s.toList).2
  rw [scan, hc, Option.bind_eq_bind, Option.bind_some, hout,
    foldl_push_of_isChain hapart (by simp), List.append_nil, List.reverse_reverse]
  rfl

/-- A round at a boundary moves on to a boundary, unless a doctype there has no end. -/
theorem scanRound_isBoundary (h : IsBoundary s c.pos) (hlt : c.pos < s.utf8ByteSize) :
    ∃ round, scanRound s c = some round ∧ round.Leads
      (fun next => c.pos < next.pos ∧ next.pos ≤ s.utf8ByteSize ∧ IsBoundary s next.pos)
      (fun result => c.pos < result.pos ∧ result.pos = s.utf8ByteSize ∨
        result = c ∧ standsAt (bytes s) c.pos "<!doctype".toList = true ∧
          doctype s c = some none) := by
  obtain ⟨rest, hat⟩ := Text.isBoundary_iff_at.mp h
  obtain ⟨d, cs, rfl⟩ := List.exists_cons_of_ne_nil (hat.lt_size_iff.mp hlt)
  obtain ⟨round, hround, hreads⟩ := Cursor.scanRound_spec hat
  refine ⟨round, hround, ?_⟩
  cases hreads with
  | again htakes =>
    exact ⟨htakes.lt_pos hat, htakes.position.le_size, htakes.position.isBoundary⟩
  | done htakes hrest =>
    have hend := htakes.position
    rw [hrest] at hend
    exact .inl ⟨htakes.lt_pos hat, hend.eq_size⟩
  | unended hstands hdoctype _ => exact .inr ⟨rfl, hstands, hdoctype⟩

/-- A round of the loop over attributes moves on as well, unless it is at the end of the text. -/
theorem attributeRound_isBoundary {tag : Inside} (h : IsBoundary s tag.pos) :
    ∃ round, attributeRound s tag = some round ∧ round.Leads
      (fun next => tag.pos < next.pos ∧ next.pos ≤ s.utf8ByteSize ∧ IsBoundary s next.pos)
      (fun result => (tag.pos < result.pos ∨ tag.pos = s.utf8ByteSize) ∧
        result.pos ≤ s.utf8ByteSize ∧ IsBoundary s result.pos) := by
  obtain ⟨rest, hat⟩ := Text.isBoundary_iff_at.mp h
  have hmakes : tag.Makes s _ _ _ := ⟨rest, hat, rfl, rfl, rfl⟩
  obtain ⟨round, hround, hleads⟩ := attributeRound_spec hmakes
  refine ⟨round, hround, ?_⟩
  cases round with
  | again next =>
    obtain ⟨⟨later, hlater, -⟩, hlt⟩ := hleads
    exact ⟨hlt, hlater.le_size, hlater.isBoundary⟩
  | done result =>
    refine ⟨?_, hleads.position.le_size, hleads.position.isBoundary⟩
    cases rest with
    | nil => exact .inr hat.eq_size
    | cons d cs => exact .inl (hat.lt_of_suffix hleads.position (suffix_attributes_tail d cs))

/-- The scanner ends, and it never asks for a piece of the text that is not there. A round of its
loop that is followed by another moves the position on, from one boundary of characters to another
within the text. So does a round of the loop over the attributes of a tag. A round that is the last
one goes to the end of the text, and only stays where it is at a doctype without an end; the loop
over attributes stays only at the end of the text. So each text is decoded, and is scanned into its
tokens. -/
theorem scan_on_boundaries (s : String) :
    (∀ c : Cursor, IsBoundary s c.pos → c.pos < s.utf8ByteSize →
      ∃ round, scanRound s c = some round ∧ round.Leads
        (fun next => c.pos < next.pos ∧ next.pos ≤ s.utf8ByteSize ∧ IsBoundary s next.pos)
        (fun result => c.pos < result.pos ∧ result.pos = s.utf8ByteSize ∨
          result = c ∧ standsAt (bytes s) c.pos "<!doctype".toList = true ∧
            doctype s c = some none)) ∧
    (∀ tag : Inside, IsBoundary s tag.pos →
      ∃ round, attributeRound s tag = some round ∧ round.Leads
        (fun next => tag.pos < next.pos ∧ next.pos ≤ s.utf8ByteSize ∧ IsBoundary s next.pos)
        (fun result => (tag.pos < result.pos ∨ tag.pos = s.utf8ByteSize) ∧
          result.pos ≤ s.utf8ByteSize ∧ IsBoundary s result.pos)) ∧
    decodeBytes s = some (String.ofList (decode s.toList)) ∧
    scan s = some (Token.scan s) :=
  ⟨fun _ => scanRound_isBoundary, fun _ => attributeRound_isBoundary, decodeBytes_eq s, scan_eq s⟩

/-- A tag with characters of two bytes in it: one that is passed over, between spaces, and one in
front of a reference, in a value. -/
theorem scan_on_boundaries_umlaut :
    IsBoundary "<p é a=ü&lt;>" 3 ∧ ¬ IsBoundary "<p é a=ü&lt;>" 4 ∧
    (∃ round, scanRound "<p é a=ü&lt;>" ⟨0, []⟩ = some round) ∧
    (∃ round, attributeRound "<p é a=ü&lt;>" ⟨3, [], false⟩ = some round) ∧
    scan "<p é a=ü&lt;>" = some [.startTag "p" [("a", some "ü<")] false] := by
  obtain ⟨hscanRound, hattributeRound, -, hscan⟩ := scan_on_boundaries "<p é a=ü&lt;>"
  refine ⟨by decide, by decide, ?_, ?_, hscan.trans (congrArg some (by cbv))⟩
  · obtain ⟨round, hround, -⟩ := hscanRound ⟨0, []⟩ (by decide) (by decide)
    exact ⟨round, hround⟩
  · obtain ⟨round, hround, -⟩ := hattributeRound ⟨3, [], false⟩ (by decide)
    exact ⟨round, hround⟩

/-- At a doctype without an end the scanner stops where it is. -/
theorem scanRound_unended_doctype :
    scanRound "<!doctype x" ⟨0, []⟩ = some (.done ⟨0, []⟩) := by
  cbv

/-- Behind the name of a tag without an end there is nothing to move on to. -/
theorem attributeRound_unended_tag :
    attributeRound "<p" ⟨2, [], false⟩ = some (.done ⟨2, [], false⟩) := by
  cbv

/-- Neither loop moves on in each of its rounds. -/
theorem not_every_round_advances :
    (¬ ∀ (s : String) (c : Cursor), IsBoundary s c.pos → c.pos < s.utf8ByteSize →
      ∃ round, scanRound s c = some round ∧
        round.Leads (fun next => c.pos < next.pos) fun result => c.pos < result.pos) ∧
    ¬ ∀ (s : String) (tag : Inside), IsBoundary s tag.pos →
      ∃ round, attributeRound s tag = some round ∧
        round.Leads (fun next => tag.pos < next.pos) fun result => tag.pos < result.pos := by
  constructor
  · intro hall
    obtain ⟨round, hround, hleads⟩ := hall "<!doctype x" ⟨0, []⟩ (by decide) (by decide)
    rw [scanRound_unended_doctype, Option.some_inj] at hround
    subst hround
    exact Nat.lt_irrefl _ hleads
  · intro hall
    obtain ⟨round, hround, hleads⟩ := hall "<p" ⟨2, [], false⟩ (by decide)
    rw [attributeRound_unended_tag, Option.some_inj] at hround
    subst hround
    exact Nat.lt_irrefl _ hleads

end LiveMarkup.Markup.Cursor
