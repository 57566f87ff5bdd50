import LiveMarkup.Text.Blank
import LiveMarkup.Text.Bytes
import LiveMarkup.Text.Digits
import LiveMarkup.Text.Search
import Mathlib

/-!
# Positions in the bytes of a text

`At s pos rest` says that a position has the characters `rest` behind it, which makes it a boundary
of characters. What is found in the bytes from there on is then what is found in `rest`: a class of
ASCII characters has all bytes of a character or none, so a run of bytes of the class is the
encoding of a run of characters, and a position behind it is again one that characters follow.
-/

namespace LiveMarkup.Text

/-- The bytes of some characters. -/
def utf8 (cs : List Char) : List UInt8 := cs.flatMap String.utf8EncodeChar

@[simp] theorem utf8_nil : utf8 [] = [] := rfl

theorem utf8_cons (c : Char) (cs : List Char) :
    utf8 (c :: cs) = String.utf8EncodeChar c ++ utf8 cs :=
  rfl

@[simp] theorem utf8_append (cs ds : List Char) : utf8 (cs ++ ds) = utf8 cs ++ utf8 ds :=
  List.flatMap_append

theorem bytes_eq (s : String) : bytes s = utf8 s.toList := by
  rw [bytes, String.toUTF8_eq_toByteArray, ← String.utf8Encode_toList, List.utf8Encode]
  exact List.toList_data_toByteArray

@[simp] theorem length_bytes (s : String) : (bytes s).length = s.utf8ByteSize := by
  rw [bytes, String.toUTF8_eq_toByteArray, ← String.size_toByteArray, ByteArray.size]
  exact Array.length_toList

@[simp] theorem bytes_ofList (cs : List Char) : bytes (String.ofList cs) = utf8 cs := by
  rw [bytes_eq, String.toList_ofList]

theorem utf8ByteSize_eq (s : String) : s.utf8ByteSize = (utf8 s.toList).length := by
  rw [← length_bytes, bytes_eq]

theorem length_utf8_cons (c : Char) (cs : List Char) :
    (utf8 (c :: cs)).length = c.utf8Size + (utf8 cs).length := by
  rw [utf8_cons, List.length_append, String.length_utf8EncodeChar]

theorem length_utf8_cons_pos (c : Char) (cs : List Char) : 0 < (utf8 (c :: cs)).length := by
  have := c.utf8Size_pos
  rw [length_utf8_cons]
  omega

theorem length_le_length_utf8 (cs : List Char) : cs.length ≤ (utf8 cs).length := by
  induction cs with
  | nil => exact Nat.le_refl _
  | cons c cs ih =>
    have := c.utf8Size_pos
    rw [length_utf8_cons, List.length_cons]
    omega

/-- What comes later has fewer bytes behind it. -/
theorem length_utf8_le_of_suffix {cs ds : List Char} (h : cs <:+ ds) :
    (utf8 cs).length ≤ (utf8 ds).length := by
  obtain ⟨front, rfl⟩ := h
  simp

/-- The class tells only ASCII characters apart. -/
def Uniform (p : Char → Bool) : Prop := ∀ c d : Char, 128 ≤ c.toNat → 128 ≤ d.toNat → p c = p d

theorem toNat_ofUInt8 (b : UInt8) : (Char.ofUInt8 b).toNat = b.toNat := rfl

/-- An ASCII character is its own byte. -/
theorem utf8EncodeChar_of_ascii {c : Char} (h : c.toNat < 128) :
    String.utf8EncodeChar c = [UInt8.ofNat c.toNat] := by
  have hle : c.toNat ≤ 127 := Nat.le_of_lt_succ h
  simp [String.utf8EncodeChar, hle]

theorem ofUInt8_ofNat {c : Char} (h : c.toNat < 128) : Char.ofUInt8 (UInt8.ofNat c.toNat) = c := by
  apply Char.toNat_inj.mp
  rw [toNat_ofUInt8, UInt8.toNat_ofNat']
  omega

/-- All bytes of other characters are beyond ASCII. -/
theorem le_toNat_of_mem_utf8EncodeChar {c : Char} (h : 128 ≤ c.toNat) {b : UInt8}
    (hb : b ∈ String.utf8EncodeChar c) : 128 ≤ (Char.ofUInt8 b).toNat := by
  rw [toNat_ofUInt8]
  simp only [String.utf8EncodeChar, Char.toNat_val] at hb
  rw [if_neg (by omega)] at hb
  have hbound : ∃ n, b = UInt8.ofNat n ∧ 128 ≤ n ∧ n < 256 := by
    split at hb
    · fin_cases hb <;> exact ⟨_, rfl, by omega, by omega⟩
    · split at hb <;> fin_cases hb <;> exact ⟨_, rfl, by omega, by omega⟩
  obtain ⟨n, rfl, hle, hlt⟩ := hbound
  rw [UInt8.toNat_ofNat']
  omega

/-- Each byte of a character is of the class if the character is. -/
theorem Uniform.of_mem {p : Char → Bool} (hp : Uniform p) {c : Char} {b : UInt8}
    (hb : b ∈ String.utf8EncodeChar c) : p (Char.ofUInt8 b) = p c := by
  by_cases hc : c.toNat < 128
  · rw [utf8EncodeChar_of_ascii hc, List.mem_singleton] at hb
    rw [hb, ofUInt8_ofNat hc]
  · have hle : 128 ≤ c.toNat := Nat.le_of_not_lt hc
    exact hp _ _ (le_toNat_of_mem_utf8EncodeChar hle hb) hle

theorem takeWhile_utf8 {p : Char → Bool} (hp : Uniform p) (cs : List Char) :
    ((utf8 cs).takeWhile fun b => p (Char.ofUInt8 b)) = utf8 (cs.takeWhile p) := by
  induction cs with
  | nil => rfl
  | cons c cs ih =>
    cases hc : p c with
    | true =>
      have hall : ∀ b ∈ String.utf8EncodeChar c, p (Char.ofUInt8 b) = true :=
        fun b hb => (hp.of_mem hb).trans hc
      rw [List.takeWhile_cons_of_pos hc, utf8_cons, utf8_cons,
        List.takeWhile_append_of_pos hall, ih]
    | false =>
      obtain ⟨b, bs, hbs⟩ := List.exists_cons_of_ne_nil (String.utf8EncodeChar_ne_nil (c := c))
      have hb : p (Char.ofUInt8 b) = false :=
        (hp.of_mem (hbs ▸ List.mem_cons_self)).trans hc
      rw [List.takeWhile_cons_of_neg (by simp [hc]), utf8_cons, hbs, List.cons_append,
        List.takeWhile_cons_of_neg (by simp [hb]), utf8_nil]

/-- The first byte tells whether the first character is of a class. -/
theorem head?_utf8 {p : Char → Bool} (hp : Uniform p) (cs : List Char) :
    ((utf8 cs).head?.map Char.ofUInt8).any p = cs.head?.any p := by
  cases cs with
  | nil => rfl
  | cons c cs =>
    obtain ⟨b, bs, hbs⟩ := List.exists_cons_of_ne_nil (String.utf8EncodeChar_ne_nil (c := c))
    simpa [utf8_cons, hbs] using hp.of_mem (hbs ▸ List.mem_cons_self)

theorem all_utf8 {p : Char → Bool} (hp : Uniform p) (cs : List Char) :
    (utf8 cs).all (fun b => p (Char.ofUInt8 b)) = cs.all p := by
  induction cs with
  | nil => rfl
  | cons c cs ih =>
    have hbytes : (String.utf8EncodeChar c).all (fun b => p (Char.ofUInt8 b)) = p c := by
      obtain ⟨b, bs, hbs⟩ := List.exists_cons_of_ne_nil (String.utf8EncodeChar_ne_nil (c := c))
      rw [Bool.eq_iff_iff, List.all_eq_true]
      constructor
      · intro hall
        have hb : b ∈ String.utf8EncodeChar c := hbs ▸ List.mem_cons_self
        exact hp.of_mem hb ▸ hall b hb
      · intro hc b hb
        exact (hp.of_mem hb).trans hc
    rw [utf8_cons, List.all_append, hbytes, ih, List.all_cons]

theorem length_utf8_of_ascii {cs : List Char} (h : ∀ c ∈ cs, c.toNat < 128) :
    (utf8 cs).length = cs.length := by
  induction cs with
  | nil => rfl
  | cons c cs ih =>
    obtain ⟨hc, hcs⟩ := List.forall_mem_cons.mp h
    rw [utf8_cons, utf8EncodeChar_of_ascii hc, List.singleton_append, List.length_cons, ih hcs,
      List.length_cons]

/-- A character up to an ASCII character is one. -/
theorem ascii_of_le {c d : Char} (hd : d.toNat < 128) (h : c ≤ d) : c.toNat < 128 :=
  Nat.lt_of_le_of_lt (Char.le_def.mp h) hd

theorem ascii_of_isAlpha {c : Char} (h : c.isAlpha = true) : c.toNat < 128 := by
  simp only [Char.isAlpha, Char.isUpper, Char.isLower, Bool.or_eq_true, Bool.and_eq_true,
    decide_eq_true_eq] at h
  rcases h with ⟨-, h⟩ | ⟨-, h⟩
  · exact ascii_of_le (d := 'Z') (by decide) h
  · exact ascii_of_le (d := 'z') (by decide) h

theorem ascii_of_isDigit {c : Char} (h : c.isDigit = true) : c.toNat < 128 := by
  simp only [Char.isDigit, Bool.and_eq_true, decide_eq_true_eq] at h
  exact ascii_of_le (d := '9') (by decide) h.2

theorem ascii_of_isSpace {c : Char} (h : isSpace c = true) : c.toNat < 128 := by
  simp only [isSpace, Bool.or_eq_true, beq_iff_eq] at h
  rcases h with (((h | h) | h) | h) | h <;> subst h <;> decide

theorem ascii_of_isDigitOf {base : Nat} {c : Char} (h : isDigitOf base c = true) :
    c.toNat < 128 := by
  have hhex : (hexValue? c).isSome = true := by
    simp only [isDigitOf, digitValue?, Option.isSome_filter] at h
    exact Option.isSome_of_any h
  unfold hexValue? at hhex
  split at hhex
  · next h => exact ascii_of_le (d := '9') (by decide) h.2
  · split at hhex
    · next h => exact ascii_of_le (d := 'f') (by decide) h.2
    · split at hhex
      · next h => exact ascii_of_le (d := 'F') (by decide) h.2
      · cases hhex

theorem ascii_of_toLower {c : Char} (h : c.toLower.toNat < 128) : c.toNat < 128 := by
  by_cases hc : c.isUpper = true
  · exact ascii_of_isAlpha (by rw [Char.isAlpha, hc, Bool.true_or])
  · rwa [Char.toLower_eq_of_not_isUpper hc] at h

/-- A class without any character beyond ASCII. -/
theorem uniform_of_ascii {p : Char → Bool} (hp : ∀ c, p c = true → c.toNat < 128) : Uniform p := by
  have hnot : ∀ c : Char, 128 ≤ c.toNat → p c = false := by
    intro c hc
    rw [← Bool.not_eq_true]
    intro htrue
    have := hp c htrue
    omega
  intro c d hc hd
  rw [hnot c hc, hnot d hd]

theorem uniform_isSpace : Uniform isSpace := uniform_of_ascii fun _ => ascii_of_isSpace

theorem uniform_isAlpha : Uniform Char.isAlpha := uniform_of_ascii fun _ => ascii_of_isAlpha

theorem uniform_isDigitOf (base : Nat) : Uniform (isDigitOf base) :=
  uniform_of_ascii fun _ => ascii_of_isDigitOf

theorem uniform_beq {a : Char} (ha : a.toNat < 128) : Uniform (· == a) :=
  uniform_of_ascii fun _ hc => beq_iff_eq.mp hc ▸ ha

theorem indexOf?_eq_none {a : Char} (ha : a.toNat < 128) {cs : List Char} (h : a ∉ cs) :
    indexOf? a (utf8 cs) = none := by
  rw [indexOf?, List.findIdx?_eq_none_iff]
  intro b hb
  obtain ⟨c, hc, hb⟩ := List.mem_flatMap.mp hb
  rw [(uniform_beq ha).of_mem hb, beq_eq_false_iff_ne]
  rintro rfl
  exact h hc

/-- A search finds the first occurrence of an ASCII character. -/
theorem indexOf?_append {a : Char} (ha : a.toNat < 128) {front : List Char} (hfront : a ∉ front)
    (rest : List Char) : indexOf? a (utf8 (front ++ a :: rest)) = some (utf8 front).length := by
  have hnone := indexOf?_eq_none ha hfront
  rw [indexOf?] at hnone
  rw [indexOf?, utf8_append, List.findIdx?_append, hnone, Option.none_or, utf8_cons,
    utf8EncodeChar_of_ascii ha, List.singleton_append, List.findIdx?_cons, ofUInt8_ofNat ha]
  simp

theorem all_bne {a : Char} {cs : List Char} (h : a ∉ cs) : ∀ c ∈ cs, (c != a) = true := by
  intro c hc
  rw [bne_iff_ne]
  rintro rfl
  exact h hc

/-- A word of ASCII characters is compared byte by byte. -/
theorem map_take_utf8 {word : List Char} (hword : ∀ c ∈ word, c.toNat < 128) (cs : List Char) :
    ((utf8 cs).take word.length).map (fun b => (Char.ofUInt8 b).toLower) = word ↔
      ∃ after, afterWord? word cs = some after := by
  induction word generalizing cs with
  | nil => simp [afterWord?]
  | cons w word ih =>
    obtain ⟨hw, hword⟩ := List.forall_mem_cons.mp hword
    cases cs with
    | nil => simp [afterWord?]
    | cons c cs =>
      rw [afterWord?, utf8_cons]
      by_cases hc : c.toNat < 128
      · rw [utf8EncodeChar_of_ascii hc, List.singleton_append, List.length_cons,
          List.take_succ_cons, List.map_cons, ofUInt8_ofNat hc, List.cons.injEq, ih hword]
        split
        · next hlower => simp [hlower]
        · next hlower => simp [hlower]
      · have hle : 128 ≤ c.toNat := Nat.le_of_not_lt hc
        obtain ⟨b, bs, hbs⟩ := List.exists_cons_of_ne_nil (String.utf8EncodeChar_ne_nil (c := c))
        have hb := le_toNat_of_mem_utf8EncodeChar hle (hbs ▸ List.mem_cons_self)
        refine iff_of_false ?_ ?_
        · rw [hbs, List.cons_append, List.length_cons, List.take_succ_cons, List.map_cons,
            List.cons.injEq]
          rintro ⟨rfl, -⟩
          exact absurd (ascii_of_toLower hw) (Nat.not_lt.mpr hb)
        · rw [if_neg]
          · simp
          · rintro rfl
            exact hc (ascii_of_toLower hw)

/-- The characters behind a position of a text. -/
def At (s : String) (pos : Nat) (rest : List Char) : Prop :=
  ∃ front, s.toList = front ++ rest ∧ pos = (utf8 front).length

variable {s : String} {pos : Nat} {mid rest : List Char}

theorem at_start (s : String) : At s 0 s.toList := ⟨[], rfl, rfl⟩

theorem at_ofList (cs : List Char) : At (String.ofList cs) 0 cs := by
  simpa using at_start (String.ofList cs)

theorem isBoundary_iff_at : IsBoundary s pos ↔ ∃ rest, At s pos rest := by
  rw [IsBoundary, String.Pos.Raw.isValid_iff_exists_append]
  constructor
  · rintro ⟨front, rest, rfl, hpos⟩
    refine ⟨rest.toList, front.toList, String.toList_append, ?_⟩
    rw [← utf8ByteSize_eq]
    exact congrArg String.Pos.Raw.byteIdx hpos
  · rintro ⟨rest, front, hs, rfl⟩
    refine ⟨String.ofList front, String.ofList rest, ?_, ?_⟩
    · rw [← String.ofList_append, ← hs, String.ofList_toList]
    · apply String.Pos.Raw.ext
      show (utf8 front).length = (String.ofList front).utf8ByteSize
      rw [utf8ByteSize_eq, String.toList_ofList]

namespace At

theorem isBoundary (h : At s pos rest) : IsBoundary s pos := isBoundary_iff_at.mpr ⟨rest, h⟩

theorem size_eq (h : At s pos rest) : s.utf8ByteSize = pos + (utf8 rest).length := by
  obtain ⟨front, hs, rfl⟩ := h
  simp [utf8ByteSize_eq, hs]

theorem le_size (h : At s pos rest) : pos ≤ s.utf8ByteSize := by
  rw [h.size_eq]
  exact Nat.le_add_right _ _

theorem advance (h : At s pos (mid ++ rest)) : At s (pos + (utf8 mid).length) rest := by
  obtain ⟨front, hs, rfl⟩ := h
  exact ⟨front ++ mid, by simp [hs], by simp⟩

/-- Where the text goes on after some of it. -/
theorem skip {later : List Char} (h : At s pos rest) (hsuffix : later <:+ rest) :
    At s (pos + ((utf8 rest).length - (utf8 later).length)) later := by
  obtain ⟨front, rfl⟩ := hsuffix
  have hlength : (utf8 (front ++ later)).length - (utf8 later).length = (utf8 front).length := by
    simp
  rw [hlength]
  exact h.advance

theorem tail {c : Char} (h : At s pos (c :: rest)) : At s (pos + c.utf8Size) rest := by
  have htail : At s (pos + (utf8 [c]).length) rest := h.advance
  rwa [length_utf8_cons, utf8_nil, List.length_nil, Nat.add_zero] at htail

/-- An ASCII character is passed by one byte. -/
theorem next {c : Char} (hc : c.toNat < 128) (h : At s pos (c :: rest)) : At s (pos + 1) rest := by
  have hsize : c.utf8Size = 1 := by
    rw [← String.length_utf8EncodeChar, utf8EncodeChar_of_ascii hc, List.length_singleton]
  exact hsize ▸ h.tail

theorem at_end (h : At s pos rest) : At s s.utf8ByteSize [] := by
  rw [h.size_eq]
  exact advance (by simpa using h)

theorem eq_size (h : At s pos []) : pos = s.utf8ByteSize := by
  simpa using h.size_eq.symm

theorem lt_size_iff (h : At s pos rest) : pos < s.utf8ByteSize ↔ rest ≠ [] := by
  rw [h.size_eq]
  cases rest with
  | nil => simp
  | cons c cs => simpa using length_utf8_cons_pos c cs

/-- What comes later has a position behind. -/
theorem le_of_suffix {later : List Char} {pos' : Nat} (h : At s pos rest) (h' : At s pos' later)
    (hsuffix : later <:+ rest) : pos ≤ pos' := by
  have hlength := length_utf8_le_of_suffix hsuffix
  have := h.size_eq
  have := h'.size_eq
  omega

theorem lt_of_suffix {c : Char} {later : List Char} {pos' : Nat} (h : At s pos (c :: rest))
    (h' : At s pos' later) (hsuffix : later <:+ rest) : pos < pos' := by
  have hlength := length_utf8_le_of_suffix hsuffix
  have hsize := h.size_eq
  have := h'.size_eq
  have := c.utf8Size_pos
  rw [length_utf8_cons] at hsize
  omega

theorem drop_bytes (h : At s pos rest) : (bytes s).drop pos = utf8 rest := by
  obtain ⟨front, hs, rfl⟩ := h
  rw [bytes_eq, hs, utf8_append, List.drop_left]

theorem from? (h : At s pos rest) : from? (bytes s) pos = some (utf8 rest) := by
  rw [Text.from?, if_pos (by simpa using h.le_size), h.drop_bytes]

theorem byte?_eq (h : At s pos rest) :
    byte? (bytes s) pos = (utf8 rest).head?.map Char.ofUInt8 := by
  rw [byte?, ← h.drop_bytes, List.head?_drop]

theorem byte?_any {p : Char → Bool} (hp : Uniform p) (h : At s pos rest) :
    (byte? (bytes s) pos).any p = rest.head?.any p := by
  rw [h.byte?_eq, head?_utf8 hp]

theorem byte?_eq_some_iff {a : Char} (ha : a.toNat < 128) (h : At s pos rest) :
    byte? (bytes s) pos = some a ↔ rest.head? = some a := by
  have hany (o : Option Char) : o = some a ↔ o.any (· == a) = true := by
    cases o <;> simp
  rw [hany, hany, h.byte?_any (uniform_beq ha)]

/-- In front of the end there is a byte, which is an ASCII character if the character there is. -/
theorem exists_byte {c : Char} (h : At s pos (c :: rest)) :
    ∃ b, byte? (bytes s) pos = some b ∧ ∀ a : Char, a.toNat < 128 → (b = a ↔ c = a) := by
  obtain ⟨b, bs, hbs⟩ := List.exists_cons_of_ne_nil (String.utf8EncodeChar_ne_nil (c := c))
  have hb : byte? (bytes s) pos = some (Char.ofUInt8 b) := by
    rw [h.byte?_eq, utf8_cons, hbs, List.cons_append, List.head?_cons, Option.map_some]
  refine ⟨Char.ofUInt8 b, hb, fun a ha => ?_⟩
  have hiff := h.byte?_eq_some_iff ha
  rwa [hb, List.head?_cons, Option.some_inj, Option.some_inj] at hiff

/-- Behind a run of characters of a class stands what is not of the class. -/
theorem run (p : Char → Bool) (h : At s pos rest) :
    At s (pos + (utf8 (rest.takeWhile p)).length) (rest.dropWhile p) :=
  advance (by rwa [List.takeWhile_append_dropWhile])

theorem skipWhile_eq {p : Char → Bool} (hp : Uniform p) (h : At s pos rest) :
    skipWhile p (bytes s) pos = pos + (utf8 (rest.takeWhile p)).length := by
  rw [skipWhile, h.drop_bytes, takeWhile_utf8 hp]

theorem skipWhile {p : Char → Bool} (hp : Uniform p) (h : At s pos rest) :
    At s (skipWhile p (bytes s) pos) (rest.dropWhile p) := by
  rw [h.skipWhile_eq hp]
  exact h.run p

/-- A search for an ASCII character stops in front of it, or at the end. -/
theorem seek_eq {a : Char} (ha : a.toNat < 128) (h : At s pos rest) :
    (indexOf? a (utf8 rest)).elim s.utf8ByteSize (pos + ·) =
      pos + (utf8 (rest.takeWhile (· != a))).length := by
  by_cases hmem : a ∈ rest
  · obtain ⟨front, after, rfl, hfront⟩ := List.eq_append_cons_of_mem hmem
    rw [indexOf?_append ha hfront, Option.elim_some, List.takeWhile_append_of_pos (all_bne hfront),
      List.takeWhile_cons_of_neg (by simp), List.append_nil]
  · rw [indexOf?_eq_none ha hmem, Option.elim_none, List.takeWhile_eq_self_iff.mpr (all_bne hmem),
      h.size_eq]

/-- A search for an ASCII character that passes it. -/
theorem pass {a : Char} (ha : a.toNat < 128) (h : At s pos rest) :
    At s ((indexOf? a (utf8 rest)).elim s.utf8ByteSize (pos + · + 1))
      ((rest.dropWhile (· != a)).drop 1) := by
  by_cases hmem : a ∈ rest
  · obtain ⟨front, after, rfl, hfront⟩ := List.eq_append_cons_of_mem hmem
    rw [indexOf?_append ha hfront, Option.elim_some, List.dropWhile_append_of_pos (all_bne hfront),
      List.dropWhile_cons_of_neg (by simp)]
    exact h.advance.next ha
  · rw [indexOf?_eq_none ha hmem, Option.elim_none, List.dropWhile_eq_nil_iff.mpr (all_bne hmem)]
    exact h.at_end

/-- A word of ASCII characters stands where it is read in any case. -/
theorem standsAt_iff {word : List Char} (hword : ∀ c ∈ word, c.toNat < 128) (h : At s pos rest) :
    standsAt (bytes s) pos word = true ↔ ∃ after, afterWord? word rest = some after := by
  rw [standsAt, beq_iff_eq, h.drop_bytes, map_take_utf8 hword]

theorem afterWord {word after : List Char} (hword : ∀ c ∈ word, c.toNat < 128)
    (h : At s pos rest) (hafter : afterWord? word rest = some after) :
    At s (pos + word.length) after := by
  induction word generalizing pos rest with
  | nil =>
    cases hafter
    exact h
  | cons w word ih =>
    obtain ⟨hw, hword⟩ := List.forall_mem_cons.mp hword
    cases rest with
    | nil => cases hafter
    | cons c rest =>
      rw [afterWord?] at hafter
      split at hafter
      · next hlower =>
        have hc : c.toNat < 128 := ascii_of_toLower (by rwa [hlower])
        have hnext := ih hword (h.next hc) hafter
        rwa [List.length_cons, Nat.add_comm word.length, ← Nat.add_assoc]
      · cases hafter

/-- The piece between two positions has the characters between them. -/
theorem slice? (h : At s pos (mid ++ rest)) :
    slice? s pos (pos + (utf8 mid).length) = some (String.ofList mid) := by
  rw [Text.slice?, dif_pos ⟨h.isBoundary, h.advance.isBoundary, Nat.le_add_right _ _⟩,
    Option.some_inj]
  obtain ⟨front, hs, rfl⟩ := h
  apply String.toByteArray_inj.mp
  rw [String.toByteArray_extract]
  apply ByteArray.ext
  apply Array.ext'
  have hbytes : s.toByteArray.data.toList = utf8 front ++ (utf8 mid ++ utf8 rest) := by
    rw [← utf8_append, ← utf8_append, ← hs]
    exact bytes_eq s
  show (s.toByteArray.extract (utf8 front).length
    ((utf8 front).length + (utf8 mid).length)).data.toList = bytes (String.ofList mid)
  rw [ByteArray.data_extract, Array.toList_extract, hbytes, bytes_eq, String.toList_ofList]
  simp

theorem slice?_run (p : Char → Bool) (h : At s pos rest) :
    Text.slice? s pos (pos + (utf8 (rest.takeWhile p)).length) =
      some (String.ofList (rest.takeWhile p)) := by
  have hall : At s pos (rest.takeWhile p ++ rest.dropWhile p) := by
    rwa [List.takeWhile_append_dropWhile]
  exact hall.slice?

theorem slice?_skipWhile {p : Char → Bool} (hp : Uniform p) (h : At s pos rest) :
    Text.slice? s pos (Text.skipWhile p (bytes s) pos) =
      some (String.ofList (rest.takeWhile p)) := by
  rw [h.skipWhile_eq hp, h.slice?_run p]

theorem slice?_end (h : At s pos rest) :
    Text.slice? s pos s.utf8ByteSize = some (String.ofList rest) := by
  have hall : At s pos (rest ++ []) := by simpa using h
  rw [h.size_eq]
  exact hall.slice?

end At

end LiveMarkup.Text
