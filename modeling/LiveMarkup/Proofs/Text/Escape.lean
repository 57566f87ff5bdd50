import LiveMarkup.Proofs.Text.Digits
import LiveMarkup.Text.Escape
import LiveMarkup.Text.Quoted
import Mathlib

/-!
# Escaped text can be told from what follows it

The encodings that put a text on one line differ in the characters that they escape, but not in what
an escape looks like: a backslash, and behind it either the letter of a character or its number in
braces. `Escapes` has all spellings of a character. No spelling is the start of another character's
spelling, and none starts with a double quote, so a text between double quotes ends where it does
whatever comes next, and it is the only text that is spelled so.
-/

namespace LiveMarkup.Text

/-- What comes before the first occurrence of a character is determined, and what comes behind
it. -/
theorem append_cons_cancel {α : Type} {a : α} {front front' rest rest' : List α} (h : a ∉ front)
    (h' : a ∉ front') (heq : front ++ a :: rest = front' ++ a :: rest') :
    front = front' ∧ rest = rest' := by
  rcases List.append_eq_append_iff.mp heq with ⟨more, hfront, hrest⟩ | ⟨more, hfront, hrest⟩
  · cases more with
    | nil => exact ⟨by simpa using hfront.symm, (List.cons.inj hrest).2⟩
    | cons b more =>
      cases (List.cons.inj hrest).1
      exact absurd (by simp [hfront]) h'
  · cases more with
    | nil => exact ⟨by simpa using hfront, ((List.cons.inj hrest).2).symm⟩
    | cons b more =>
      cases (List.cons.inj hrest).1
      exact absurd (by simp [hfront]) h

/-- The character that a letter behind a backslash stands for. -/
def escapedBy? (letter : Char) : Option Char :=
  if letter = '\\' ∨ letter = '"' then some letter
  else if letter = 'n' then some '\n'
  else if letter = 'r' then some '\r'
  else if letter = 't' then some '\t'
  else if letter = '0' then some '\x00'
  else none

/-- A character stands for itself, or it is given by a letter or by its number behind a backslash.
The backslash and the double quote never stand for themselves. -/
inductive Escapes : Char → List Char → Prop
  | plain {c : Char} : c ≠ '\\' → c ≠ '"' → Escapes c [c]
  | letter {c letter : Char} : escapedBy? letter = some c → Escapes c ['\\', letter]
  | number {c : Char} {digits : List Char} : '\x7d' ∉ digits → numeralValue 16 digits = c.toNat →
      Escapes c (['\\', 'u', '\x7b'] ++ digits ++ ['\x7d'])

namespace Escapes

variable {c d : Char} {front front' rest rest' : List Char}

/-- A spelling does not start as a quote does. -/
theorem append_ne_quote (h : Escapes c front) : front ++ rest ≠ '"' :: rest' := by
  cases h with
  | plain _ hquote =>
    intro heq
    exact hquote (List.cons.inj heq).1
  | letter _ => simp
  | number _ _ => simp

/-- The character at the start of a text is determined by how it is spelled there. -/
theorem cancel (h : Escapes c front) (h' : Escapes d front')
    (heq : front ++ rest = front' ++ rest') : c = d ∧ rest = rest' := by
  cases h with
  | plain hc _ =>
    cases h' with
    | plain _ _ => simpa using heq
    | letter _ => exact absurd (List.cons.inj heq).1 hc
    | number _ _ => exact absurd (List.cons.inj heq).1 hc
  | letter hc =>
    cases h' with
    | plain hd _ => exact absurd (List.cons.inj heq).1.symm hd
    | letter hd =>
      simp only [List.cons_append, List.nil_append, List.cons.injEq, true_and] at heq
      rw [heq.1, hd, Option.some_inj] at hc
      exact ⟨hc.symm, heq.2⟩
    | number _ _ =>
      simp only [List.cons_append, List.nil_append, List.cons.injEq, true_and] at heq
      rw [heq.1] at hc
      cases hc
  | number hmem hc =>
    cases h' with
    | plain hd _ => exact absurd (List.cons.inj heq).1.symm hd
    | letter hd =>
      simp only [List.cons_append, List.nil_append, List.cons.injEq, true_and] at heq
      rw [← heq.1] at hd
      cases hd
    | number hmem' hd =>
      simp only [List.cons_append, List.nil_append, List.append_assoc, List.cons.injEq,
        true_and] at heq
      obtain ⟨rfl, hrest⟩ := append_cons_cancel hmem hmem' heq
      exact ⟨Char.toNat_inj.mp (hc.symm.trans hd), hrest⟩

end Escapes

/-- Texts that are spelled alike up to a double quote are the same, whichever spelling is used
for each of their characters. -/
theorem flatMap_append_quote_cancel {code code' : Char → List Char}
    (hcode : ∀ c, Escapes c (code c))
    (hcode' : ∀ c, Escapes c (code' c)) {s s' rest rest' : List Char}
    (h : s.flatMap code ++ '"' :: rest = s'.flatMap code' ++ '"' :: rest') :
    s = s' ∧ rest = rest' := by
  induction s generalizing s' with
  | nil =>
    cases s' with
    | nil => exact ⟨rfl, (List.cons.inj h).2⟩
    | cons d s' =>
      rw [List.flatMap_cons, List.append_assoc] at h
      exact absurd h.symm (hcode' d).append_ne_quote
  | cons c s ih =>
    rw [List.flatMap_cons, List.append_assoc] at h
    cases s' with
    | nil => exact absurd h (hcode c).append_ne_quote
    | cons d s' =>
      rw [List.flatMap_cons, List.append_assoc] at h
      obtain ⟨rfl, htail⟩ := (hcode c).cancel (hcode' d) h
      obtain ⟨rfl, hrest⟩ := ih htail
      exact ⟨rfl, hrest⟩

theorem escapes_lowerEscape (c : Char) : Escapes c (lowerEscape c) :=
  .number (brace_not_mem_hex c.toNat).1 (numeralValue_lowerHex c.toNat)

theorem escapes_upperEscape (width : Nat) (c : Char) : Escapes c (upperEscape width c) := by
  refine .number ?_ ((numeralValue_padLeft 16 width _).trans (numeralValue_upperHex c.toNat))
  rw [padLeft, List.mem_append]
  rintro (h | h)
  · exact absurd (List.eq_of_mem_replicate h) (by decide)
  · exact (brace_not_mem_hex c.toNat).2 h

/-- In a quoted text all is escaped that has a meaning there or cannot be seen. -/
theorem escapes_quotedChar (c : Char) : Escapes c (quotedChar c) := by
  unfold quotedChar
  split_ifs with hself hzero htab hline hreturn hprintable
  · exact .letter (if_pos (by simpa using hself))
  · subst hzero
    exact .letter rfl
  · subst htab
    exact .letter rfl
  · subst hline
    exact .letter rfl
  · subst hreturn
    exact .letter rfl
  · have hplain : c ≠ '\\' ∧ c ≠ '"' := by simpa using hself
    exact .plain hplain.1 hplain.2
  · exact escapes_lowerEscape c

/-- The one-line escapes share the letters, and what they do not share is no backslash and no
quote. -/
theorem escapes_getD_commonEscape? {c : Char} {other : List Char}
    (hother : c ≠ '\\' → c ≠ '"' → Escapes c other) : Escapes c ((commonEscape? c).getD other) := by
  unfold commonEscape?
  split_ifs with hbackslash hquote hline hreturn htab
  · subst hbackslash
    exact .letter rfl
  · subst hquote
    exact .letter rfl
  · subst hline
    exact .letter rfl
  · subst hreturn
    exact .letter rfl
  · subst htab
    exact .letter rfl
  · exact hother hbackslash hquote

theorem escapes_foreignEscape (c : Char) : Escapes c (foreignEscape c) := by
  refine escapes_getD_commonEscape? fun hbackslash hquote => ?_
  split
  · exact .plain hbackslash hquote
  · exact escapes_upperEscape 0 c

end LiveMarkup.Text
