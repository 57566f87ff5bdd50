import LiveMarkup.Proofs.Text.Escape

/-!
# The one-line escapes compared

A text that `escapeControls` has escaped is on one line, it can be put between double quotes, and it
is the escape of no other text. Snapshots use `escapeForeign` for the same purpose. The two write a
text in the same way exactly if they write each of its characters in the same way
(`escapeControls_faithful`): where they write a character in different ways, one of them begins with
a backslash and the other does not.
-/

namespace LiveMarkup.Text

variable {c d : Char} {s front back : List Char}

/-- The characters that both escapes write in the same way: those of ASCII, but below the space only
tab, line feed and carriage return. -/
def WrittenAlike (c : Char) : Prop := c.toNat < 0x80 ∧ (c < ' ' → c = '\t' ∨ c = '\n' ∨ c = '\r')

instance (c : Char) : Decidable (WrittenAlike c) := inferInstanceAs (Decidable (_ ∧ _))

theorem of_commonEscape? {code : List Char} (h : commonEscape? c = some code) :
    WrittenAlike c ∧ ∃ letter, code = ['\\', letter] ∧ ' ' ≤ letter ∧ (letter = '"' → c = '"') := by
  unfold commonEscape? at h
  split_ifs at h with heq heq heq heq heq
  all_goals
    subst heq
    cases h
    exact ⟨⟨by decide, by decide⟩, _, rfl, by decide, by decide⟩

theorem mem_upperEscape {width : Nat} (h : d ∈ upperEscape width c) : ' ' ≤ d ∧ d ≠ '"' := by
  have hdigits : ∀ i : Fin 16,
      ' ' ≤ (Nat.digitChar i).toUpper ∧ (Nat.digitChar i).toUpper ≠ '"' := by decide
  rw [upperEscape, padLeft, upperHex, List.mem_append, List.mem_append, List.mem_append] at h
  rcases h with (h | h | h) | h
  · fin_cases h <;> decide
  · rw [List.eq_of_mem_replicate h]
    decide
  · obtain ⟨x, hx, rfl⟩ := List.mem_map.mp h
    obtain ⟨i, hi, rfl⟩ := exists_digitChar_of_mem_toDigits (by decide) hx
    exact hdigits ⟨i, hi⟩
  · rw [List.mem_singleton.mp h]
    decide

/-- No escape has a control character in it, and only that of a double quote has one of these. -/
theorem of_mem_controlsEscape (h : d ∈ controlsEscape c) : ' ' ≤ d ∧ (d = '"' → c = '"') := by
  rw [controlsEscape] at h
  cases hcommon : commonEscape? c with
  | some code =>
    obtain ⟨-, letter, rfl, hle, hquote⟩ := of_commonEscape? hcommon
    rw [hcommon, Option.getD_some, List.mem_cons, List.mem_singleton] at h
    rcases h with rfl | rfl
    · exact ⟨by decide, fun h => absurd h (by decide)⟩
    · exact ⟨hle, hquote⟩
  | none =>
    rw [hcommon, Option.getD_none] at h
    split at h
    · obtain ⟨hle, hne⟩ := mem_upperEscape h
      exact ⟨hle, fun hd => absurd hd hne⟩
    · next hcontrol =>
      rw [List.mem_singleton.mp h]
      exact ⟨Char.not_lt.mp hcontrol, id⟩

theorem escapes_controlsEscape (c : Char) : Escapes c (controlsEscape c) := by
  refine escapes_getD_commonEscape? fun hbackslash hquote => ?_
  split
  · exact escapes_upperEscape 2 c
  · exact .plain hbackslash hquote

theorem of_controlsEscape_quote (h : controlsEscape '"' = front ++ '"' :: back) :
    front = ['\\'] ∧ back = [] := by
  have hcode : controlsEscape '"' = ['\\', '"'] := rfl
  rw [hcode] at h
  cases front with
  | nil => exact absurd (List.cons.inj h).1 (by decide)
  | cons x front =>
    obtain ⟨rfl, htail⟩ := List.cons.inj h
    cases front with
    | nil => exact ⟨rfl, (List.cons.inj htail).2.symm⟩
    | cons y front => simp at htail

/-- A double quote in an escaped text comes from one in the text, and it has a backslash in front
that is no part of what comes before. -/
theorem of_flatMap_eq_append_quote (h : s.flatMap controlsEscape = front ++ '"' :: back) :
    ∃ before after, s = before ++ '"' :: after ∧
      front = before.flatMap controlsEscape ++ ['\\'] ∧ back = after.flatMap controlsEscape := by
  induction s generalizing front with
  | nil => simp at h
  | cons c s ih =>
    rw [List.flatMap_cons] at h
    rcases List.append_eq_append_iff.mp h with ⟨more, rfl, hmore⟩ | ⟨more, hcode, hmore⟩
    · obtain ⟨before, after, rfl, rfl, hback⟩ := ih hmore
      exact ⟨c :: before, after, rfl, by simp, hback⟩
    · cases more with
      | nil =>
        have hlater : s.flatMap controlsEscape = [] ++ '"' :: back := hmore.symm
        obtain ⟨before, after, -, hfront, -⟩ := ih hlater
        simp at hfront
      | cons x more =>
        -- The quote is in the escape of the first character, which is therefore a quote itself.
        obtain ⟨rfl, hback⟩ := List.cons.inj hmore
        have hmem : '"' ∈ controlsEscape c := by simp [hcode]
        obtain rfl := (of_mem_controlsEscape hmem).2 rfl
        obtain ⟨rfl, rfl⟩ := of_controlsEscape_quote hcode
        exact ⟨[], s, rfl, rfl, hback⟩

/-- A character is written in the same way by both, or what they write differs from the start. -/
theorem escapes_alike_or_apart (c : Char) :
    WrittenAlike c ∧ controlsEscape c = foreignEscape c ∨
      ¬ WrittenAlike c ∧ ∃ x y more more', controlsEscape c = x :: more ∧
        foreignEscape c = y :: more' ∧ x ≠ y := by
  rw [controlsEscape, foreignEscape]
  cases hcommon : commonEscape? c with
  | some code => exact .inl ⟨(of_commonEscape? hcommon).1, rfl⟩
  | none =>
    have hplain : '\\' ≠ c ∧ c ≠ '\t' ∧ c ≠ '\n' ∧ c ≠ '\r' := by
      refine ⟨?_, ?_, ?_, ?_⟩ <;> rintro rfl <;> exact absurd hcommon (by decide)
    obtain ⟨hbackslash, htab, hline, hreturn⟩ := hplain
    rw [Option.getD_none, Option.getD_none]
    by_cases hcontrol : c < ' '
    · have hascii : c.toNat < 0x80 :=
        Nat.lt_trans (UInt32.lt_iff_toNat_lt.mp hcontrol) (by decide)
      rw [if_pos hcontrol, if_pos hascii]
      refine .inr ⟨fun halike => ?_, '\\', c, _, _, rfl, rfl, hbackslash⟩
      rcases halike.2 hcontrol with h | h | h
      · exact htab h
      · exact hline h
      · exact hreturn h
    · rw [if_neg hcontrol]
      by_cases hascii : c.toNat < 0x80
      · rw [if_pos hascii]
        exact .inl ⟨⟨hascii, fun h => absurd h hcontrol⟩, rfl⟩
      · rw [if_neg hascii]
        exact .inr ⟨fun halike => hascii halike.1, c, '\\', _, _, rfl, rfl, hbackslash.symm⟩

theorem flatMap_controlsEscape_eq_iff :
    s.flatMap controlsEscape = s.flatMap foreignEscape ↔ ∀ c ∈ s, WrittenAlike c := by
  induction s with
  | nil => simp
  | cons c s ih =>
    rw [List.flatMap_cons, List.flatMap_cons, List.forall_mem_cons, ← ih]
    rcases escapes_alike_or_apart c with ⟨halike, hsame⟩ | ⟨hnot, x, y, more, more', hx, hy, hne⟩
    · rw [hsame, List.append_cancel_left_eq]
      exact ⟨fun h => ⟨halike, h⟩, And.right⟩
    · rw [hx, hy]
      exact iff_of_false (fun h => hne (List.cons.inj h).1) fun h => hnot h.1

theorem escapeControls_injective : Function.Injective escapeControls := by
  intro s t h
  have hlist : s.toList.flatMap controlsEscape = t.toList.flatMap controlsEscape :=
    String.ofList_inj.mp h
  have hquoted : s.toList.flatMap controlsEscape ++ ['"'] =
      t.toList.flatMap controlsEscape ++ ['"'] := by rw [hlist]
  exact String.toList_inj.mp
    (flatMap_append_quote_cancel escapes_controlsEscape escapes_controlsEscape hquoted).1

/-- Escaping puts a text on one line and lets it stand between double quotes: there is no character
below the space, and each double quote comes from one in the text and has its own backslash right in
front. No two texts have the same escape. It is the escape that snapshots use exactly for the texts
in which all characters belong to ASCII and none is a control character below the space, apart from
tab, line feed and carriage return. -/
theorem escapeControls_faithful :
    (∀ s : String, ∀ c ∈ (escapeControls s).toList, ' ' ≤ c) ∧
    (∀ s front back : String, escapeControls s = front ++ "\"" ++ back →
      ∃ before after, s = before ++ "\"" ++ after ∧
        front = escapeControls before ++ "\\" ∧ back = escapeControls after) ∧
    (∀ s t : String, escapeControls s = escapeControls t → s = t) ∧
    ∀ s : String, escapeControls s = escapeForeign s ↔ ∀ c ∈ s.toList, WrittenAlike c := by
  refine ⟨fun s c hc => ?_, fun s front back h => ?_, fun s t h => escapeControls_injective h,
    fun s => ?_⟩
  · rw [escapeControls, String.toList_ofList, List.mem_flatMap] at hc
    obtain ⟨d, -, hc⟩ := hc
    exact (of_mem_controlsEscape hc).1
  · have hlist : s.toList.flatMap controlsEscape = front.toList ++ '"' :: back.toList := by
      simpa [escapeControls] using congrArg String.toList h
    obtain ⟨before, after, hs, hfront, hback⟩ := of_flatMap_eq_append_quote hlist
    refine ⟨String.ofList before, String.ofList after, ?_, ?_, ?_⟩
    · simp [← String.toList_inj, hs]
    · simp [← String.toList_inj, escapeControls, hfront]
    · simp [← String.toList_inj, escapeControls, hback]
  · rw [escapeControls, escapeForeign, String.ofList_inj]
    exact flatMap_controlsEscape_eq_iff

/-- A quote behind a backslash: the escape has three backslashes in front of the quote, and the last
of them is the quote's. The text that reads like an escaped control character is escaped in another
way than that character, and only the former is what snapshots write. -/
theorem escapeControls_faithful_lookalike :
    (∃ before after, "\\\"" = before ++ "\"" ++ after ∧ "\\\\\\" = escapeControls before ++ "\\" ∧
      "" = escapeControls after) ∧
    escapeControls "\\u\x7b01\x7d" ≠ escapeControls "\x01" ∧
    escapeControls "\\u\x7b01\x7d" = escapeForeign "\\u\x7b01\x7d" ∧
    escapeControls "\x01" ≠ escapeForeign "\x01" := by
  obtain ⟨-, hquote, hinj, hagree⟩ := escapeControls_faithful
  refine ⟨hquote "\\\"" "\\\\\\" "" (by decide), fun h => ?_, (hagree _).mpr ?_, fun h => ?_⟩
  · exact absurd (hinj _ _ h) (by decide)
  · simp [WrittenAlike]
  · exact absurd ((hagree _).mp h '\x01' (by decide)) (by decide)

end LiveMarkup.Text
