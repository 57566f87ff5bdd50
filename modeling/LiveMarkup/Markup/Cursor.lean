import LiveMarkup.Markup.Token
import LiveMarkup.Text.Bytes

/-!
# The scanner by byte positions

The scanner as it runs over the bytes of its input. It has a position, looks at the byte there and
at a few behind it, moves the position forward by bytes, and takes the text of a token as the piece
of the input between two positions. Nothing in its steps says that the position moves on, that it
stays within the input or that it never comes to stand inside a character. Where a piece or a byte
that it asks for does not exist, it has no answer. A loop has no answer either if it does not end
after as many rounds as there are positions, which is the case if a round stays where it is.
-/

namespace LiveMarkup.Markup

open Text (bytes slice? from? byte? skipWhile indexOf? standsAt)

/-- What a round of a loop comes to: another round, or the end of the loop. -/
inductive Round (σ ρ : Type) where
  | again (state : σ)
  | done (result : ρ)

/-- Runs at most so many rounds of a loop. A loop that needs more has no answer. -/
def iterate {σ ρ : Type} (round : σ → Option (Round σ ρ)) : (rounds : Nat) → σ → Option ρ
  | 0, _ => none
  | rounds + 1, state => do
    match ← round state with
    | .again next => iterate round rounds next
    | .done result => some result

namespace Reference

/-- A number and its semicolon at the start of a text: the character of the number, and how many
bytes there are. -/
def numberBytes? (base width : Nat) (digits : String) : Option (Option (Char × Nat)) := do
  match indexOf? ';' ((bytes digits).take (width + 1)) with
  | none => return none
  | some stop =>
    if stop = 0 then return none
    else
      let raw ← slice? digits 0 stop
      let value := Text.numeralValue base raw.toList
      if (bytes raw).all (fun b => Text.isDigitOf base (Char.ofUInt8 b)) && value.isValidChar then
        return some (Char.ofNat value, stop + 1)
      else return none

/-- The reference at the start of a text that begins with an ampersand: its character, and the
number of its bytes. -/
def readBytes? (rest : String) : Option (Option (Char × Nat)) := do
  match named.find? fun (name, _) => ('&' :: name).isPrefixOf rest.toList with
  | some (name, c) => return some (c, (String.ofList ('&' :: name)).utf8ByteSize)
  | none =>
    if "&#".toList.isPrefixOf rest.toList then
      let hex := byte? (bytes rest) 2 == some 'x' || byte? (bytes rest) 2 == some 'X'
      let start := if hex then 3 else 2
      let digits ← slice? rest start rest.utf8ByteSize
      let found ← if hex then numberBytes? 16 6 digits else numberBytes? 10 7 digits
      return found.map fun (c, length) => (c, start + length)
    else return none

/-- How far a text is decoded, and what it has been decoded to. -/
structure Progress where
  pos : Nat
  out : String

/-- Copies the text up to the next ampersand, or the reference or the ampersand at the position. -/
def decodeRound (s : String) (p : Progress) : Option (Round Progress String) := do
  if p.pos < s.utf8ByteSize then
    let c ← byte? (bytes s) p.pos
    if c = '&' then
      match ← readBytes? (← slice? s p.pos s.utf8ByteSize) with
      | some (d, consumed) => return .again ⟨p.pos + consumed, p.out.push d⟩
      | none => return .again ⟨p.pos + 1, p.out.push '&'⟩
    else
      let stop := (indexOf? '&' (← from? (bytes s) p.pos)).elim s.utf8ByteSize (p.pos + ·)
      return .again ⟨stop, p.out ++ (← slice? s p.pos stop)⟩
  else return .done p.out

/-- Replaces every reference by its character. -/
def decodeBytes (s : String) : Option String := do
  match indexOf? '&' (bytes s) with
  | none => return s
  | some first => iterate (decodeRound s) (s.utf8ByteSize + 1) ⟨first, ← slice? s 0 first⟩

end Reference

/-- The scanner: its position, and the tokens so far with the last one in front. -/
structure Cursor where
  pos : Nat
  out : List Token

namespace Cursor

open Reference (decodeBytes)

/-- Adds a token. A text behind a text becomes part of it. -/
def push : List Token → Token → List Token
  | .text s :: out, .text t => .text (s ++ t) :: out
  | out, token => token :: out

/-- Adds a text with its references. -/
def pushText (out : List Token) (raw : String) : Option (List Token) := do
  let decoded ← decodeBytes raw
  return if decoded.isEmpty then out else push out (.text decoded)

/-- A quoted value whose opening quote stands in front of the position, and the position behind
its end. -/
def quotedAt (s : String) (quote : Char) (start : Nat) : Option (String × Nat) := do
  let stop := (indexOf? quote (← from? (bytes s) start)).elim s.utf8ByteSize (start + ·)
  let value ← decodeBytes (← slice? s start stop)
  return (value, min (stop + 1) s.utf8ByteSize)

/-- The number of bytes of an unquoted value. -/
def unquotedLength : List UInt8 → Nat
  | [] => 0
  | b :: bs =>
    let c := Char.ofUInt8 b
    if Text.isSpace c || c == '>' || (c == '/' && byte? bs 0 == some '>') then 0
    else unquotedLength bs + 1

/-- The value of an attribute, and the position behind it. -/
def valueAt (s : String) (pos : Nat) : Option (String × Nat) := do
  match byte? (bytes s) pos with
  | some '"' => quotedAt s '"' (pos + 1)
  | some '\'' => quotedAt s '\'' (pos + 1)
  | _ =>
    let stop := pos + unquotedLength ((bytes s).drop pos)
    return (← decodeBytes (← slice? s pos stop), stop)

/-- What stands behind an attribute's name: its value, if there is one, and the position behind
it. -/
def assignedAt (s : String) (pos : Nat) : Option (Option String × Nat) := do
  let pos := skipWhile Text.isSpace (bytes s) pos
  if byte? (bytes s) pos = some '=' then
    let (value, pos) ← valueAt s (skipWhile Text.isSpace (bytes s) (pos + 1))
    return (some value, pos)
  else return (none, pos)

/-- A start tag that is read up to a position behind its name. -/
structure Inside where
  pos : Nat
  attributes : List (String × Option String)
  selfClosing : Bool

/-- Reads one attribute, or passes over a character that begins none. -/
def attributeAt (s : String) (tag : Inside) : Option Inside := do
  let stop := skipWhile isNameChar (bytes s) tag.pos
  let name ← slice? s tag.pos stop
  if name.isEmpty then
    let rest ← slice? s tag.pos s.utf8ByteSize
    return { tag with pos := tag.pos + (rest.toList.head?.elim 1 Char.utf8Size) }
  else
    let (value, pos) ← assignedAt s stop
    return { tag with pos := pos, attributes := tag.attributes ++ [(lowerName name, value)] }

/-- Reads the end of the tag, or what stands in front of it. -/
def attributeRound (s : String) (tag : Inside) : Option (Round Inside Inside) := do
  let pos := skipWhile Text.isSpace (bytes s) tag.pos
  match byte? (bytes s) pos with
  | none => return .done { tag with pos := pos }
  | some '>' => return .done { tag with pos := pos + 1 }
  | some '/' =>
    if byte? (bytes s) (pos + 1) = some '>' then
      return .done { tag with pos := pos + 2, selfClosing := true }
    else return .again { tag with pos := pos + 1 }
  | some _ => return .again (← attributeAt s { tag with pos := pos })

/-- A start tag, with its name if its body is raw text. -/
def startTag (s : String) (c : Cursor) : Option (Cursor × Option String) := do
  let stop := skipWhile isNameChar (bytes s) (c.pos + 1)
  let name := lowerName (← slice? s (c.pos + 1) stop)
  let tag ← iterate (attributeRound s) (s.utf8ByteSize + 1) ⟨stop, [], false⟩
  let selfClosing := tag.selfClosing || isVoid name
  return (⟨tag.pos, .startTag name tag.attributes selfClosing :: c.out⟩,
    if isRawText name && !selfClosing then some name else none)

/-- Looks for the next `<` and for an end tag there, given without its spaces and its `>`. An end
tag is given by its first position and the one behind it. -/
def endTagRound (bs : List UInt8) (word : List Char) (i : Nat) :
    Option (Round Nat (Option (Nat × Nat))) := do
  if i + word.length ≤ bs.length then
    match indexOf? '<' (← from? bs i) with
    | none => return .done none
    | some skipped =>
      let i := i + skipped
      let stop := skipWhile Text.isSpace bs (i + word.length)
      if standsAt bs i word && byte? bs stop == some '>' then return .done (some (i, stop + 1))
      else return .again (i + 1)
  else return .done none

/-- The body and the end tag of a raw-text element, and whether the input has the end tag. -/
def rawText (s : String) (c : Cursor) (name : String) : Option (Cursor × Bool) := do
  let haystack ← from? (bytes s) c.pos
  let found ← iterate (endTagRound haystack ('<' :: '/' :: name.toList)) (haystack.length + 1) 0
  let body ← slice? s c.pos (found.elim s.utf8ByteSize fun (start, _) => c.pos + start)
  return (⟨found.elim s.utf8ByteSize fun (_, stop) => c.pos + stop,
    .endTag name :: if body.isEmpty then c.out else .text body :: c.out⟩, found.isSome)

/-- An end tag. -/
def endTag (s : String) (c : Cursor) : Option Cursor := do
  let stop := skipWhile isNameChar (bytes s) (c.pos + 2)
  let name := lowerName (← slice? s (c.pos + 2) stop)
  let next := (indexOf? '>' (← from? (bytes s) stop)).elim s.utf8ByteSize (stop + · + 1)
  return ⟨next, if name.isEmpty then c.out else .endTag name :: c.out⟩

/-- The byte position of the first occurrence of a word in a text. -/
def find? (word : List Char) (s : String) : Option Nat :=
  (Text.splitFirst? (word.isPrefixOf? ·) s.toList).map fun (before, _) =>
    (String.ofList before).utf8ByteSize

/-- A comment. -/
def comment (s : String) (c : Cursor) : Option Cursor := do
  let start := c.pos + 4
  match find? "-->".toList (← slice? s start s.utf8ByteSize) with
  | some length =>
    let body ← slice? s start (start + length)
    return ⟨start + length + 3, .comment body :: c.out⟩
  | none => return ⟨s.utf8ByteSize, .comment (← slice? s start s.utf8ByteSize) :: c.out⟩

/-- A doctype, if it has an end. -/
def doctype (s : String) (c : Cursor) : Option (Option Cursor) := do
  let rest ← slice? s (c.pos + 2) s.utf8ByteSize
  match find? ['>'] rest with
  | some length =>
    let body ← slice? rest 0 length
    return some ⟨c.pos + 2 + length + 1,
      .doctype (String.ofList (Text.trim body.toList)) :: c.out⟩
  | none => return none

/-- A run of text. -/
def textRun (s : String) (c : Cursor) : Option Cursor := do
  let stop := (indexOf? '<' (← from? (bytes s) c.pos)).elim s.utf8ByteSize (c.pos + ·)
  return ⟨stop, ← pushText c.out (← slice? s c.pos stop)⟩

/-- Reads a tag, with its body if that is raw text. A `<` that begins no tag is text. -/
def tagRound (s : String) (c : Cursor) : Option (Round Cursor Cursor) := do
  if byte? (bytes s) (c.pos + 1) = some '/' then return .again (← endTag s c)
  else if (byte? (bytes s) (c.pos + 1)).any Char.isAlpha then
    match ← startTag s c with
    | (c, none) => return .again c
    | (c, some name) =>
      let (c, closed) ← rawText s c name
      return if closed then .again c else .done c
  else return .again ⟨c.pos + 1, ← pushText c.out "<"⟩

/-- Reads the construct at the position. -/
def scanRound (s : String) (c : Cursor) : Option (Round Cursor Cursor) := do
  if c.pos < s.utf8ByteSize then
    let first ← byte? (bytes s) c.pos
    if first ≠ '<' then return .again (← textRun s c)
    else if "<!--".toList.isPrefixOf (← slice? s c.pos s.utf8ByteSize).toList then
      return .again (← comment s c)
    else if standsAt (bytes s) c.pos "<!doctype".toList then
      return (← doctype s c).elim (.done c) .again
    else tagRound s c
  else return .done c

/-- The tokens of a text of markup, in order. -/
def scan (s : String) : Option (List Token) := do
  return (← iterate (scanRound s) (s.utf8ByteSize + 1) ⟨0, []⟩).out.reverse

end Cursor

end LiveMarkup.Markup
