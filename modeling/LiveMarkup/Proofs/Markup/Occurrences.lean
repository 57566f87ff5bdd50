import LiveMarkup.Proofs.Markup.Cursor.Decoding
import Mathlib.Data.Nat.Digits.Defs

/-!
# References in a text

What a reference is can be said without reading one: it is an ampersand with one of six names, or
with the digits of a character's number (`IsReference`). The decoder finds all that are in a text
and takes nothing else for one. A text is cut into its references and its other characters in one
way, and decoding puts the character of a reference in its place and leaves the others alone
(`decodeBytes_exact`).

A search from left to right misses none, because a reference has one ampersand, at its start. So a
reference that begins in front of another one ends in front of it.
-/

namespace LiveMarkup

namespace Text

variable {base : Nat} {c : Char} {cs : List Char}

/-- The character is the digit `d` in this base, a letter in either case. -/
def IsDigit (base : Nat) (c : Char) (d : Nat) : Prop := d < base ∧ c.toLower = Nat.digitChar d

/-- The characters are digits of `n` in this base, the most significant one in front. Zeros may
stand before them. -/
def IsNumeral (base : Nat) (cs : List Char) (n : Nat) : Prop :=
  ∃ ds, List.Forall₂ (IsDigit base) cs ds ∧ n = Nat.ofDigits base ds.reverse

theorem hexValue?_eq_some_iff {d : Nat} : hexValue? c = some d ↔ IsDigit 16 c d := by
  -- There are finitely many ASCII characters, and no digit is another character.
  have hfound : ∀ n : Fin 128, ∀ d ∈ hexValue? (Char.ofNat n),
      d < 16 ∧ (Char.ofNat n).toLower = Nat.digitChar d := by decide +kernel
  have hdigit : ∀ d : Fin 16, ∀ n : Fin 128, (Char.ofNat n).toLower = Nat.digitChar d →
      hexValue? (Char.ofNat n) = some d.val := by decide +kernel
  have hbound : ∀ d : Fin 16, (Nat.digitChar d).toNat < 128 := by decide
  constructor
  · intro hvalue
    have hascii : c.toNat < 128 :=
      @ascii_of_isDigitOf (d + 1) c (by simp [isDigitOf, digitValue?, hvalue])
    simpa [IsDigit] using hfound ⟨c.toNat, hascii⟩ d (by simpa using hvalue)
  · rintro ⟨hd, hlower⟩
    have hascii : c.toNat < 128 := ascii_of_toLower (hlower ▸ hbound ⟨d, hd⟩)
    simpa using hdigit ⟨d, hd⟩ ⟨c.toNat, hascii⟩ (by simpa using hlower)

theorem digitValue?_eq_some_iff (hbase : base ≤ 16) {d : Nat} :
    digitValue? base c = some d ↔ IsDigit base c d := by
  simp only [digitValue?, Option.filter_eq_some_iff, hexValue?_eq_some_iff, IsDigit,
    decide_eq_true_eq]
  constructor
  · rintro ⟨⟨-, hlower⟩, hlt⟩
    exact ⟨hlt, hlower⟩
  · rintro ⟨hlt, hlower⟩
    exact ⟨⟨by omega, hlower⟩, hlt⟩

theorem forall₂_isDigit (hbase : base ≤ 16) (h : cs.all (isDigitOf base) = true) :
    List.Forall₂ (IsDigit base) cs (cs.map fun c => (digitValue? base c).getD 0) := by
  rw [List.forall₂_map_right_iff, List.forall₂_same]
  intro c hc
  obtain ⟨d, hd⟩ := Option.isSome_iff_exists.mp (List.all_eq_true.mp h c hc)
  rw [hd]
  exact (digitValue?_eq_some_iff hbase).mp hd

theorem all_isDigitOf (hbase : base ≤ 16) {ds : List Nat}
    (h : List.Forall₂ (IsDigit base) cs ds) : cs.all (isDigitOf base) = true ∧
      (cs.map fun c => (digitValue? base c).getD 0) = ds := by
  induction h with
  | nil => exact ⟨rfl, rfl⟩
  | cons hdigit _ ih =>
    have hvalue := (digitValue?_eq_some_iff hbase).mpr hdigit
    simp [isDigitOf, hvalue, ih]

/-- A run of digits is a numeral of the value that is read from it. -/
theorem isNumeral_iff (hbase : base ≤ 16) {n : Nat} :
    IsNumeral base cs n ↔ cs.all (isDigitOf base) = true ∧ n = numeralValue base cs := by
  have hvalue : numeralValue base cs =
      Nat.ofDigits base (cs.map fun c => (digitValue? base c).getD 0).reverse := by
    rw [Nat.ofDigits_eq_foldr, List.foldr_reverse, List.foldl_map, numeralValue]
    simp only [Nat.cast_id, Nat.add_comm]
  constructor
  · rintro ⟨ds, hdigits, hn⟩
    obtain ⟨hall, rfl⟩ := all_isDigitOf hbase hdigits
    exact ⟨hall, hn.trans hvalue.symm⟩
  · rintro ⟨hall, hn⟩
    exact ⟨_, forall₂_isDigit hbase hall, hn.trans hvalue⟩

end Text

namespace Markup.Reference

open Text (IsNumeral isDigitOf numeralValue)

variable {base width : Nat} {c d : Char} {cs front text back rest : List Char}

/-- The characters that are referred to by a name. -/
inductive IsNamed : String → Char → Prop
  | amp : IsNamed "amp" '&'
  | lt : IsNamed "lt" '<'
  | gt : IsNamed "gt" '>'
  | quot : IsNamed "quot" '"'
  | apos : IsNamed "apos" '\''
  | nbsp : IsNamed "nbsp" '\u00a0'

/-- The text is a reference to the character. The number of a character is a scalar value. -/
inductive IsReference : List Char → Char → Prop
  | named {name : String} {c : Char} : IsNamed name c →
      IsReference ('&' :: (name.toList ++ [';'])) c
  | decimal {digits : List Char} {c : Char} : 1 ≤ digits.length → digits.length ≤ 7 →
      IsNumeral 10 digits c.toNat → IsReference ('&' :: '#' :: (digits ++ [';'])) c
  | hexadecimal {x : Char} {digits : List Char} {c : Char} : x = 'x' ∨ x = 'X' →
      1 ≤ digits.length → digits.length ≤ 6 → IsNumeral 16 digits c.toNat →
      IsReference ('&' :: '#' :: x :: (digits ++ [';'])) c

/-- The names that the decoder knows are these. -/
theorem mem_named_iff :
    (cs, c) ∈ named ↔ ∃ name, IsNamed name c ∧ cs = name.toList ++ [';'] := by
  constructor
  · intro hmem
    simp only [named, List.mem_cons, Prod.mk.injEq, List.not_mem_nil, or_false] at hmem
    rcases hmem with ⟨rfl, rfl⟩ | ⟨rfl, rfl⟩ | ⟨rfl, rfl⟩ | ⟨rfl, rfl⟩ | ⟨rfl, rfl⟩ | ⟨rfl, rfl⟩
    · exact ⟨_, .amp, rfl⟩
    · exact ⟨_, .lt, rfl⟩
    · exact ⟨_, .gt, rfl⟩
    · exact ⟨_, .quot, rfl⟩
    · exact ⟨_, .apos, rfl⟩
    · exact ⟨_, .nbsp, rfl⟩
  · rintro ⟨name, hname, rfl⟩
    cases hname <;> decide

theorem number?_eq_some_iff (hbase : base ≤ 16) : number? base width cs = some (c, rest) ↔
    ∃ digits, 1 ≤ digits.length ∧ digits.length ≤ width ∧ IsNumeral base digits c.toNat ∧
      cs = digits ++ ';' :: rest := by
  simp only [Text.isNumeral_iff hbase]
  constructor
  · intro h
    obtain ⟨digits, after, rfl, hmem⟩ :
        ∃ digits after, cs = digits ++ ';' :: after ∧ ';' ∉ digits := by
      refine List.eq_append_cons_of_mem (Decidable.byContradiction fun hmem => ?_)
      rw [number?_of_not_mem hmem] at h
      cases h
    rw [number?_append hmem] at h
    split at h
    · next hdigits =>
      obtain ⟨hall, hpos, hwidth, hvalid⟩ := hdigits
      cases h
      exact ⟨digits, hpos, hwidth, ⟨hall, by rw [Char.toNat_ofNat, if_pos hvalid]⟩, rfl⟩
    · cases h
  · rintro ⟨digits, hpos, hwidth, ⟨hall, hvalue⟩, rfl⟩
    have hmem : ';' ∉ digits := fun hmem => by
      have := List.all_eq_true.mp hall _ hmem
      rw [isDigitOf_semicolon] at this
      cases this
    rw [number?_append hmem, if_pos ⟨hall, hpos, hwidth, hvalue ▸ c.valid⟩, ← hvalue,
      Char.ofNat_toNat]

theorem named?_append (hname : (text, c) ∈ named) (rest : List Char) :
    named? (text ++ rest) = some (c, rest) := by
  have hall : ∀ entry ∈ named, named? (entry.1 ++ rest) = some (entry.2, rest) := by
    simp only [named, List.forall_mem_cons]
    exact ⟨rfl, rfl, rfl, rfl, rfl, rfl, nofun⟩
  exact hall _ hname

theorem mem_named_of_named? (h : named? cs = some (c, rest)) :
    ∃ text, (text, c) ∈ named ∧ cs = text ++ rest := by
  obtain ⟨⟨name, d⟩, hmem, hfound⟩ := List.exists_of_findSome?_eq_some h
  obtain ⟨after, hafter, heq⟩ := Option.map_eq_some_iff.mp hfound
  cases heq
  exact ⟨name, hmem, (Text.append_of_isPrefixOf? hafter).symm⟩

/-- No name of the table begins with a number sign. -/
theorem read?_hash (cs : List Char) : read? ('#' :: cs) = numeric? cs := by
  have hnamed : named? ('#' :: cs) = none := rfl
  simp only [read?, hnamed]

/-- Digits in front of a semicolon are read in decimal, unless there is an `x` in front. -/
theorem numeric?_decimal {n : Nat} (hpos : 1 ≤ cs.length) (hdigits : IsNumeral 10 cs n)
    (rest : List Char) : numeric? (cs ++ ';' :: rest) = number? 10 7 (cs ++ ';' :: rest) := by
  have hall := List.all_eq_true.mp ((Text.isNumeral_iff (by decide)).mp hdigits).1
  obtain ⟨d, ds, rfl⟩ := List.exists_cons_of_length_pos hpos
  have hd := hall d List.mem_cons_self
  rw [numeric?_eq, if_neg]
  rintro (h | h)
  · cases h
    cases hd
  · cases h
    cases hd

/-- What is read behind an ampersand is a reference, and every reference is read. -/
theorem read?_eq_some_iff : read? cs = some (c, rest) ↔
    ∃ text, IsReference ('&' :: text) c ∧ cs = text ++ rest := by
  constructor
  · intro h
    unfold read? at h
    split at h
    · next hnamed =>
      cases h
      obtain ⟨text, hmem, rfl⟩ := mem_named_of_named? hnamed
      obtain ⟨name, hname, rfl⟩ := mem_named_iff.mp hmem
      exact ⟨_, .named hname, rfl⟩
    · next tail _ =>
      rw [numeric?_eq] at h
      split at h
      · next hhead =>
        obtain ⟨x, digits, rfl⟩ : ∃ x digits, tail = x :: digits :=
          List.exists_cons_of_ne_nil fun hnil => by simp [hnil] at hhead
        obtain ⟨digits, hpos, hwidth, hdigits, rfl⟩ := (number?_eq_some_iff (by decide)).mp h
        exact ⟨_, .hexadecimal (by simpa using hhead) hpos hwidth hdigits, by simp⟩
      · obtain ⟨digits, hpos, hwidth, hdigits, rfl⟩ := (number?_eq_some_iff (by decide)).mp h
        exact ⟨_, .decimal hpos hwidth hdigits, by simp⟩
    · cases h
  · rintro ⟨text, href, rfl⟩
    cases href with
    | @named name _ hname =>
      simp only [read?, named?_append (mem_named_iff.mpr ⟨name, hname, rfl⟩)]
    | @decimal digits _ hpos hwidth hdigits =>
      rw [List.cons_append, List.append_assoc, List.singleton_append, read?_hash,
        numeric?_decimal hpos hdigits, number?_eq_some_iff (by decide)]
      exact ⟨digits, hpos, hwidth, hdigits, rfl⟩
    | @hexadecimal x digits _ hx hpos hwidth hdigits =>
      rw [List.cons_append, List.cons_append, List.append_assoc, List.singleton_append, read?_hash,
        numeric?_eq, if_pos (by simpa using hx), number?_eq_some_iff (by decide)]
      exact ⟨digits, hpos, hwidth, hdigits, rfl⟩

theorem IsReference.eq_cons (h : IsReference text c) : ∃ tail, text = '&' :: tail := by
  cases h with
  | named _ => exact ⟨_, rfl⟩
  | decimal _ _ _ => exact ⟨_, rfl⟩
  | hexadecimal _ _ _ _ => exact ⟨_, rfl⟩

/-- Digits are no ampersands. -/
theorem ampersand_not_mem_digits {n : Nat} (hbase : base ≤ 16) (h : IsNumeral base cs n) :
    '&' ∉ cs := by
  intro hmem
  have hdigit := List.all_eq_true.mp ((Text.isNumeral_iff hbase).mp h).1 _ hmem
  rw [show isDigitOf base '&' = false from rfl] at hdigit
  cases hdigit

theorem IsReference.ampersand_not_mem (h : IsReference ('&' :: text) c) : '&' ∉ text := by
  cases h with
  | named hname => cases hname <;> decide
  | decimal _ _ hdigits =>
    have := ampersand_not_mem_digits (by decide) hdigits
    simp [this]
  | hexadecimal hx _ _ hdigits =>
    have := ampersand_not_mem_digits (by decide) hdigits
    rcases hx with rfl | rfl <;> simp [this]

/-- At one place there is at most one reference. -/
theorem IsReference.unique {text' back' : List Char} (h : IsReference text c)
    (h' : IsReference text' d) (heq : text ++ back = text' ++ back') :
    text = text' ∧ c = d ∧ back = back' := by
  obtain ⟨tail, rfl⟩ := h.eq_cons
  obtain ⟨tail', rfl⟩ := h'.eq_cons
  have htail : tail ++ back = tail' ++ back' := (List.cons.inj heq).2
  have hread : read? (tail ++ back) = some (c, back) := read?_eq_some_iff.mpr ⟨tail, h, rfl⟩
  rw [read?_eq_some_iff.mpr ⟨tail', h', htail⟩, Option.some_inj] at hread
  cases hread
  exact ⟨congrArg _ (List.append_cancel_right htail), rfl, rfl⟩

/-- A reference that begins in front of an ampersand ends in front of it. -/
theorem IsReference.prefix_of_append (h : IsReference ('&' :: text) c)
    (heq : front ++ '&' :: back = text ++ rest) : text <+: front := by
  rcases List.append_eq_append_iff.mp heq with ⟨mid, htext, hrest⟩ | ⟨mid, hfront, -⟩
  · cases mid with
    | nil => simp [htext]
    | cons d mid =>
      refine absurd ?_ h.ampersand_not_mem
      rw [htext, ← (List.cons.inj hrest).1]
      exact List.mem_append_right front List.mem_cons_self
  · exact ⟨mid, hfront.symm⟩

/-- Two references in a text do not overlap. -/
theorem IsReference.add_length_le {front' text' back' : List Char} (h : IsReference text c)
    (h' : IsReference text' d) (heq : front ++ (text ++ back) = front' ++ (text' ++ back'))
    (hlt : front.length < front'.length) : front.length + text.length ≤ front'.length := by
  obtain ⟨tail, rfl⟩ := h.eq_cons
  obtain ⟨tail', rfl⟩ := h'.eq_cons
  obtain ⟨mid, rfl⟩ : front <+: front' :=
    List.prefix_of_prefix_length_le ⟨_, heq⟩ ⟨_, rfl⟩ (Nat.le_of_lt hlt)
  cases mid with
  | nil => simp at hlt
  | cons x mid =>
    rw [List.append_assoc, List.append_cancel_left_eq] at heq
    have hle := (h.prefix_of_append (List.cons.inj heq).2.symm).length_le
    simp only [List.length_append, List.length_cons]
    omega

/-- A part of a text: a reference with the character that it stands for, or another character. -/
inductive Piece where
  | reference (text : List Char) (c : Char)
  | plain (c : Char)

namespace Piece

/-- The part as it stands in the text. -/
def source : Piece → List Char
  | .reference text _ => text
  | .plain c => [c]

/-- The character that a reference stands for; any other character itself. -/
def result : Piece → Char
  | .reference _ c => c
  | .plain c => c

end Piece

/-- The pieces are a text, and the references among them are the references in the text, each at
its place. -/
structure Cuts (cs : List Char) (pieces : List Piece) : Prop where
  source : pieces.flatMap Piece.source = cs
  isReference : ∀ text c, .reference text c ∈ pieces → IsReference text c
  complete : ∀ front text back c, cs = front ++ (text ++ back) → IsReference text c →
    ∃ before after, pieces = before ++ .reference text c :: after ∧
      before.flatMap Piece.source = front

namespace Cuts

variable {pieces : List Piece}

theorem nil : Cuts [] [] := by
  refine ⟨rfl, nofun, fun front text back c heq href => ?_⟩
  obtain ⟨tail, rfl⟩ := href.eq_cons
  simp at heq

/-- A character at which no reference begins. -/
theorem plain {x : Char} (hplain : ∀ text back c, x :: cs = text ++ back → ¬ IsReference text c)
    (h : Cuts cs pieces) : Cuts (x :: cs) (.plain x :: pieces) := by
  refine ⟨congrArg (x :: ·) h.source, fun text c hmem => ?_, fun front text back c heq href => ?_⟩
  · exact h.isReference text c (by simpa using hmem)
  · cases front with
    | nil => exact absurd href (hplain text back c heq)
    | cons y front =>
      obtain ⟨rfl, htail⟩ := List.cons.inj heq
      obtain ⟨before, after, rfl, hfront⟩ := h.complete front text back c htail href
      exact ⟨.plain x :: before, after, rfl, congrArg (x :: ·) hfront⟩

/-- A reference goes up to its end, and the next one begins behind it. -/
theorem reference (href : IsReference text c) (h : Cuts rest pieces) :
    Cuts (text ++ rest) (.reference text c :: pieces) := by
  refine ⟨congrArg (text ++ ·) h.source, fun text' d hmem => ?_,
    fun front text' back d heq href' => ?_⟩
  · rcases List.mem_cons.mp hmem with hmem | hmem
    · cases hmem
      exact href
    · exact h.isReference text' d hmem
  · cases front with
    | nil =>
      obtain ⟨rfl, rfl, -⟩ := href.unique href' heq
      exact ⟨[], pieces, rfl, rfl⟩
    | cons y front =>
      have hle : ([] : List Char).length + text.length ≤ (y :: front).length :=
        href.add_length_le href' heq (by simp)
      obtain ⟨front, hfront⟩ : text <+: y :: front :=
        List.prefix_of_prefix_length_le ⟨_, heq⟩ ⟨_, rfl⟩ (by simpa using hle)
      rw [← hfront, List.append_assoc, List.append_cancel_left_eq] at heq
      obtain ⟨before, after, rfl, hbefore⟩ := h.complete front text' back d heq href'
      exact ⟨.reference text c :: before, after, rfl, by rw [← hfront, ← hbefore]; rfl⟩

end Cuts

/-- Decoding puts in place what the pieces of a text stand for. -/
theorem exists_cuts (cs : List Char) :
    ∃ pieces, Cuts cs pieces ∧ decode cs = pieces.map Piece.result := by
  fun_induction decode cs with
  | case1 => exact ⟨[], .nil, rfl⟩
  | case2 cs d rest hread ih =>
    obtain ⟨pieces, hcuts, hdecode⟩ := ih
    obtain ⟨text, href, rfl⟩ := read?_eq_some_iff.mp hread
    exact ⟨_, hcuts.reference href, congrArg (d :: ·) hdecode⟩
  | case3 cs hread ih =>
    obtain ⟨pieces, hcuts, hdecode⟩ := ih
    refine ⟨_, hcuts.plain fun text back c heq href => ?_, congrArg ('&' :: ·) hdecode⟩
    obtain ⟨tail, rfl⟩ := href.eq_cons
    rw [read?_eq_some_iff.mpr ⟨tail, href, (List.cons.inj heq).2⟩] at hread
    cases hread
  | case4 x cs hx ih =>
    obtain ⟨pieces, hcuts, hdecode⟩ := ih
    refine ⟨_, hcuts.plain fun text back c heq href => ?_, congrArg (x :: ·) hdecode⟩
    obtain ⟨tail, rfl⟩ := href.eq_cons
    exact hx (List.cons.inj heq).1

/-- Decoding a text, byte by byte, replaces its references by their characters and leaves all other
characters as they are. References do not overlap, and a character that stands for one is not read
again. So escaped text is decoded to what it was, in both places in which it is written and with any
text behind it. -/
theorem decodeBytes_exact :
    (∀ s : String, ∃ pieces, Cuts s.toList pieces ∧
      decodeBytes s = some (String.ofList (pieces.map Piece.result))) ∧
    (∀ front text back c front' text' back' c', IsReference text c → IsReference text' c' →
      front ++ (text ++ back) = front' ++ (text' ++ back') → front.length < front'.length →
      front.length + text.length ≤ front'.length) ∧
    ∀ (place : Place) (s t : String), ∃ decoded, decodeBytes t = some decoded ∧
      decodeBytes (escape place s ++ t) = some (s ++ decoded) := by
  refine ⟨fun s => ?_, fun _ _ _ _ _ _ _ _ h h' => h.add_length_le h', fun place s t => ?_⟩
  · obtain ⟨pieces, hcuts, hdecode⟩ := exists_cuts s.toList
    exact ⟨pieces, hcuts, by rw [decodeBytes_eq, hdecode]⟩
  · refine ⟨_, decodeBytes_eq t, ?_⟩
    rw [decodeBytes_eq, String.toList_append, decode_escape, String.ofList_append,
      String.ofList_toList]

/-- An ampersand that a reference stands for begins no reference, and a surrogate has no character.
The two references end and begin where they stand. -/
theorem decodeBytes_exact_nested :
    decodeBytes "&amp;lt;&#X41;&#xD800;" = some "&lt;A&#xD800;" ∧
    (∃ pieces, Cuts "&amp;lt;&#X41;&#xD800;".toList pieces ∧
      .reference "&#X41;".toList 'A' ∈ pieces) ∧
    IsReference "&amp;".toList '&' ∧ IsReference "&#X41;".toList 'A' ∧
      0 + "&amp;".length ≤ "&amp;lt;".length := by
  have hamp : IsReference "&amp;".toList '&' := .named .amp
  have hnumber : IsReference "&#X41;".toList 'A' :=
    @IsReference.hexadecimal 'X' "41".toList 'A' (.inr rfl) (by decide) (by decide)
      ⟨[4, 1], .cons ⟨by decide, by decide⟩ (.cons ⟨by decide, by decide⟩ .nil), by decide⟩
  obtain ⟨hcuts, hapart, -⟩ := decodeBytes_exact
  obtain ⟨pieces, hpieces, -⟩ := hcuts "&amp;lt;&#X41;&#xD800;"
  refine ⟨by cbv, ⟨pieces, hpieces, ?_⟩, hamp, hnumber, ?_⟩
  · obtain ⟨before, after, rfl, -⟩ :=
      hpieces.complete "&amp;lt;".toList _ "&#xD800;".toList 'A' rfl hnumber
    simp
  · exact hapart [] _ "lt;&#X41;&#xD800;".toList _ "&amp;lt;".toList _ "&#xD800;".toList _
      hamp hnumber rfl (by decide)

end Markup.Reference

end LiveMarkup
