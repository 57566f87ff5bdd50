import LiveMarkup.Markup.RawText
import LiveMarkup.Markup.Reference

/-!
# Tokens of a fragment of markup

`Token.scan` cuts markup into tags, comments, doctypes and the text between them. No
input is refused: a stray `<` is text, an unknown character inside a tag is passed over,
a comment, a tag or a raw-text body that is never ended runs to the end of the input,
and so does an unended doctype, which leaves no token.

The scanner recurses on what each construct leaves. Every reader below therefore comes
with a lemma that it leaves a suffix of its input; `suffix_step` is their conclusion, and
says that the scanner moves forward by at least one character at a time.
-/

namespace LiveMarkup.Markup

/-- A token of markup. References are already replaced, except in comments, doctypes and
raw text, which have none. -/
inductive Token where
  | doctype (text : String)
  | startTag (name : String) (attributes : List (String × Option String)) (selfClosing : Bool)
  | endTag (name : String)
  | comment (text : String)
  | text (content : String)
deriving DecidableEq, Repr, Inhabited

namespace Token

/-- An unquoted value: up to a space, `>` or `/>`. -/
def unquoted : List Char → List Char × List Char
  | [] => ([], [])
  | c :: cs =>
    if Text.isSpace c || c == '>' || (c == '/' && cs.head? == some '>') then ([], c :: cs)
    else
      let (value, rest) := unquoted cs
      (c :: value, rest)

/-- A quoted value whose opening quote is already read: up to the same quote, or all of
the input where there is none. -/
def quoted (quote : Char) (cs : List Char) : List Char × List Char :=
  (cs.takeWhile (· != quote), (cs.dropWhile (· != quote)).drop 1)

/-- The value of an attribute after its equals sign. -/
def value : List Char → List Char × List Char
  | '"' :: cs => quoted '"' cs
  | '\'' :: cs => quoted '\'' cs
  | cs => unquoted cs

/-- The value after an attribute's name, `none` where no equals sign follows. -/
def assigned (cs : List Char) : Option String × List Char :=
  match cs.dropWhile Text.isSpace with
  | '=' :: rest =>
    let (raw, rest) := value (rest.dropWhile Text.isSpace)
    (some (String.ofList (Reference.decode raw)), rest)
  | rest => (none, rest)

theorem suffix_unquoted (cs : List Char) : (unquoted cs).2 <:+ cs := by
  induction cs with
  | nil => exact List.suffix_refl _
  | cons c cs ih =>
    simp only [unquoted]
    split
    · exact List.suffix_refl _
    · exact ih.trans (List.suffix_cons c cs)

theorem suffix_quoted (quote : Char) (cs : List Char) : (quoted quote cs).2 <:+ cs :=
  (List.drop_suffix _ _).trans (List.dropWhile_suffix _)

theorem suffix_value (cs : List Char) : (value cs).2 <:+ cs := by
  unfold value
  split
  · exact (suffix_quoted _ _).trans (List.suffix_cons _ _)
  · exact (suffix_quoted _ _).trans (List.suffix_cons _ _)
  · exact suffix_unquoted _

theorem suffix_assigned (cs : List Char) : (assigned cs).2 <:+ cs := by
  simp only [assigned]
  split
  · next rest hrest =>
    refine (suffix_value _).trans ((List.dropWhile_suffix _).trans ?_)
    exact (List.suffix_cons '=' rest).trans (hrest ▸ List.dropWhile_suffix _)
  · next rest _ => exact List.dropWhile_suffix _

/-- The inside of a start tag, from behind its name to behind its end: the attributes in
order, whether the tag ends in `/>`, and what follows it. Characters that can start
neither an attribute nor the end are passed over. -/
def attributes : List Char → List (String × Option String) × Bool × List Char
  | [] => ([], false, [])
  | '>' :: cs => ([], false, cs)
  | '/' :: '>' :: cs => ([], true, cs)
  | c :: cs =>
    if isNameChar c then
      let name := String.ofList ((c :: cs.takeWhile isNameChar).map Char.toLower)
      let found := assigned (cs.dropWhile isNameChar)
      let (others, selfClosing, rest) := attributes found.2
      ((name, found.1) :: others, selfClosing, rest)
    else attributes cs
termination_by cs => cs.length
decreasing_by
  · exact Nat.lt_succ_of_le ((suffix_assigned _).trans (List.dropWhile_suffix _)).length_le
  · exact Nat.lt_succ_self _

/-- The text token of a run of characters; no characters make no token. -/
def ofText (cs : List Char) : List Token :=
  if cs.isEmpty then [] else [.text (String.ofList cs)]

/-- The body of a raw-text element and its end tag, which is supplied where the input ends
first. -/
def rawBody (element : String) (cs : List Char) : List Token × List Char :=
  match splitRawText? element cs with
  | some (body, rest) => (ofText body ++ [.endTag element], rest)
  | none => (ofText cs ++ [.endTag element], [])

/-- A start tag from its name on. Void elements are self-closing however they are written,
and the body of a raw-text element is read along with its tag. -/
def startTagAt (cs : List Char) : List Token × List Char :=
  let name := String.ofList ((cs.takeWhile isNameChar).map Char.toLower)
  let (found, slash, rest) := attributes (cs.dropWhile isNameChar)
  let selfClosing := slash || isVoid name
  if isRawText name && !selfClosing then
    let (body, rest) := rawBody name rest
    (.startTag name found selfClosing :: body, rest)
  else ([.startTag name found selfClosing], rest)

/-- An end tag from its name on: what stands between the name and `>` is passed over, and
an end tag without a name is no token. -/
def endTagAt (cs : List Char) : List Token × List Char :=
  let name := cs.takeWhile isNameChar
  let rest := ((cs.dropWhile isNameChar).dropWhile (· != '>')).drop 1
  (if name.isEmpty then [] else [.endTag (String.ofList (name.map Char.toLower))], rest)

/-- A comment from behind its opening mark. -/
def commentAt (cs : List Char) : List Token × List Char :=
  match Text.splitFirst? ("-->".toList.isPrefixOf? ·) cs with
  | some (body, rest) => ([.comment (String.ofList body)], rest)
  | none => ([.comment (String.ofList cs)], [])

/-- A doctype from the word itself on. -/
def doctypeAt (cs : List Char) : List Token × List Char :=
  match Text.splitFirst? ([ '>' ].isPrefixOf? ·) cs with
  | some (body, rest) => ([.doctype (String.ofList (Text.trim body))], rest)
  | none => ([], [])

/-- The construct whose `<` is already read. -/
def markupAt (cs : List Char) : List Token × List Char :=
  match "!--".toList.isPrefixOf? cs with
  | some body => commentAt body
  | none =>
    match Text.afterWord? "!doctype".toList cs with
    | some _ => doctypeAt (cs.drop 1)
    | none =>
      match cs with
      | [] => ([.text "<"], [])
      | c :: rest =>
        if c == '/' then endTagAt rest
        else if c.isAlpha then startTagAt cs
        else ([.text "<"], cs)

/-- The tokens of the first construct of the input `c :: cs`, and what it leaves. -/
def step (c : Char) (cs : List Char) : List Token × List Char :=
  if c == '<' then markupAt cs
  else (ofText (Reference.decode (c :: cs.takeWhile (· != '<'))), cs.dropWhile (· != '<'))

theorem suffix_attributes (cs : List Char) : (attributes cs).2.2 <:+ cs := by
  fun_induction attributes cs with
  | case1 => exact List.suffix_refl _
  | case2 cs => exact List.suffix_cons _ _
  | case3 cs => exact (List.suffix_cons _ _).trans (List.suffix_cons _ _)
  | case4 c cs _ _ hname name found others selfClosing rest hrest ih =>
    rw [hrest] at ih
    exact ih.trans ((suffix_assigned _).trans
      ((List.dropWhile_suffix _).trans (List.suffix_cons _ _)))
  | case5 c cs _ _ hname ih => exact ih.trans (List.suffix_cons _ _)

theorem suffix_rawBody (element : String) (cs : List Char) : (rawBody element cs).2 <:+ cs := by
  unfold rawBody
  split
  · next h => exact suffix_of_splitRawText? h
  · exact List.nil_suffix

theorem suffix_startTagAt (cs : List Char) : (startTagAt cs).2 <:+ cs := by
  have h := (suffix_attributes (cs.dropWhile isNameChar)).trans (List.dropWhile_suffix _)
  simp only [startTagAt]
  split
  · exact (suffix_rawBody _ _).trans h
  · exact h

theorem suffix_endTagAt (cs : List Char) : (endTagAt cs).2 <:+ cs :=
  (List.drop_suffix _ _).trans ((List.dropWhile_suffix _).trans (List.dropWhile_suffix _))

theorem suffix_commentAt (cs : List Char) : (commentAt cs).2 <:+ cs := by
  unfold commentAt
  split
  · next h =>
    exact Text.suffix_of_splitFirst? (fun hw => ⟨_, Text.append_of_isPrefixOf? hw⟩) h
  · exact List.nil_suffix

theorem suffix_doctypeAt (cs : List Char) : (doctypeAt cs).2 <:+ cs := by
  unfold doctypeAt
  split
  · next h =>
    exact Text.suffix_of_splitFirst? (fun hw => ⟨_, Text.append_of_isPrefixOf? hw⟩) h
  · exact List.nil_suffix

theorem suffix_markupAt (cs : List Char) : (markupAt cs).2 <:+ cs := by
  unfold markupAt
  split
  · next body h => exact (suffix_commentAt body).trans ⟨_, Text.append_of_isPrefixOf? h⟩
  · split
    · exact (suffix_doctypeAt _).trans (List.drop_suffix _ _)
    · split
      · exact List.suffix_refl _
      · next c rest _ _ =>
        split
        · exact (suffix_endTagAt rest).trans (List.suffix_cons c rest)
        · split
          · exact suffix_startTagAt _
          · exact List.suffix_refl _

/-- Each construct takes at least its first character. -/
theorem suffix_step (c : Char) (cs : List Char) : (step c cs).2 <:+ cs := by
  unfold step
  split
  · exact suffix_markupAt cs
  · exact List.dropWhile_suffix _

/-- Puts the tokens of a construct in front of those that follow. Text that meets text
becomes one token. -/
def prepend : List Token → List Token → List Token
  | [.text s], .text t :: rest => .text (s ++ t) :: rest
  | first, rest => first ++ rest

/-- The tokens of the input, in order. -/
def scanList : List Char → List Token
  | [] => []
  | c :: cs => prepend (step c cs).1 (scanList (step c cs).2)
termination_by cs => cs.length
decreasing_by exact Nat.lt_succ_of_le (suffix_step c cs).length_le

/-- The tokens of a text of markup, in order. -/
def scan (markup : String) : List Token := scanList markup.toList

@[simp] theorem scanList_nil : scanList [] = [] := by simp [scanList]

theorem scanList_cons (c : Char) (cs : List Char) :
    scanList (c :: cs) = prepend (step c cs).1 (scanList (step c cs).2) := by
  rw [scanList]

end Token

end LiveMarkup.Markup
