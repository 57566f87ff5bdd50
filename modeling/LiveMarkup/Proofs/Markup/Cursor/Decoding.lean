import LiveMarkup.Markup.Cursor
import LiveMarkup.Proofs.Markup.Reference
import LiveMarkup.Proofs.Text.Bytes

/-!
# Decoding by byte positions

The decoder that runs over bytes has an answer for every text, and it is `Reference.decode`
(`decodeBytes_eq`). A round of its loop takes one reference, one ampersand or one run without
ampersands; what it has put out, and the decoded rest of the text behind its position, make the
same text before the round and after it.
-/

namespace LiveMarkup.Markup

open Text (utf8 At bytes slice? byte? indexOf? isDigitOf)

/-- What a round comes to satisfies a property of the next state or of the result. -/
def Round.Leads {σ ρ : Type} (again : σ → Prop) (done : ρ → Prop) : Round σ ρ → Prop
  | .again state => again state
  | .done result => done result

section Loops

variable {σ ρ : Type} {round : σ → Option (Round σ ρ)} {Inv : σ → Prop} {Post : ρ → Prop}

/-- A loop has a result if its rounds keep an invariant and move a position on, which the invariant
bounds. As many rounds as there are positions left are enough. -/
theorem exists_iterate (pos : σ → Nat) {stop : Nat} (hbound : ∀ state, Inv state → pos state ≤ stop)
    (hround : ∀ state, Inv state → ∃ r, round state = some r ∧
      r.Leads (fun next => Inv next ∧ pos state < pos next) Post)
    {rounds : Nat} {state : σ} (hrounds : stop < pos state + rounds) (h : Inv state) :
    ∃ result, iterate round rounds state = some result ∧ Post result := by
  induction rounds generalizing state with
  | zero =>
    have := hbound state h
    omega
  | succ rounds ih =>
    obtain ⟨r, hr, hleads⟩ := hround state h
    rw [iterate, hr]
    cases r with
    | again next =>
      obtain ⟨hnext, hlt⟩ := hleads
      exact ih (by omega) hnext
    | done result => exact ⟨result, rfl, hleads⟩

theorem iterate_spec (pos : σ → Nat) {stop : Nat} (hbound : ∀ state, Inv state → pos state ≤ stop)
    (hround : ∀ state, Inv state → ∃ r, round state = some r ∧
      r.Leads (fun next => Inv next ∧ pos state < pos next) Post)
    {state : σ} (h : Inv state) :
    ∃ result, iterate round (stop + 1) state = some result ∧ Post result :=
  exists_iterate pos hbound hround (by omega) h

end Loops

namespace Reference

variable {base width : Nat} {raw cs rest : List Char}

theorem isDigitOf_semicolon (base : Nat) : isDigitOf base ';' = false := rfl

/-- The number in front of the first semicolon, if it is one. -/
theorem number?_append (hraw : ';' ∉ raw) (rest : List Char) :
    number? base width (raw ++ ';' :: rest) =
      if raw.all (isDigitOf base) ∧ 0 < raw.length ∧ raw.length ≤ width ∧
          (Text.numeralValue base raw).isValidChar then
        some (Char.ofNat (Text.numeralValue base raw), rest)
      else none := by
  by_cases hall : raw.all (isDigitOf base) = true
  · have hdigits := List.all_eq_true.mp hall
    have htake : (raw ++ ';' :: rest).takeWhile (isDigitOf base) = raw := by
      rw [List.takeWhile_append_of_pos hdigits,
        List.takeWhile_cons_of_neg (by simp [isDigitOf_semicolon]), List.append_nil]
    have hdrop : (raw ++ ';' :: rest).dropWhile (isDigitOf base) = ';' :: rest := by
      rw [List.dropWhile_append_of_pos hdigits,
        List.dropWhile_cons_of_neg (by simp [isDigitOf_semicolon])]
    simp only [number?, htake, hdrop, hall, true_and]
  · -- The digits stop in front of a character of `raw`, which is not the semicolon.
    obtain ⟨d, more, hmore⟩ : ∃ d more, raw.dropWhile (isDigitOf base) = d :: more := by
      refine List.exists_cons_of_ne_nil fun hnil => hall ?_
      exact List.all_eq_true.mpr (List.dropWhile_eq_nil_iff.mp hnil)
    have hd : d ≠ ';' := by
      rintro rfl
      exact hraw ((List.dropWhile_suffix _).subset (hmore ▸ List.mem_cons_self))
    have hdrop : (raw ++ ';' :: rest).dropWhile (isDigitOf base) = d :: (more ++ ';' :: rest) := by
      rw [List.dropWhile_append, hmore]
      rfl
    rw [if_neg (fun h => hall h.1), number?, hdrop]
    split
    · next heq => exact absurd (List.cons.inj heq).1 hd
    · rfl

/-- Without a semicolon there is no number. -/
theorem number?_of_not_mem (h : ';' ∉ cs) : number? base width cs = none := by
  simp only [number?]
  split
  · next rest hrest =>
    have hmem : ';' ∈ cs.dropWhile (isDigitOf base) := by simp [hrest]
    exact absurd ((List.dropWhile_suffix _).subset hmem) h
  · rfl

theorem numberBytes?_append (hraw : ';' ∉ raw) (rest : List Char) :
    numberBytes? base width (String.ofList (raw ++ ';' :: rest)) =
      some (if raw.all (isDigitOf base) ∧ 0 < (utf8 raw).length ∧ (utf8 raw).length ≤ width ∧
          (Text.numeralValue base raw).isValidChar then
        some (Char.ofNat (Text.numeralValue base raw), (utf8 raw).length + 1)
      else none) := by
  have hslice : slice? (String.ofList (raw ++ ';' :: rest)) 0 (utf8 raw).length =
      some (String.ofList raw) := by
    simpa using (Text.at_ofList (raw ++ ';' :: rest)).slice?
  have hindex : indexOf? ';' ((utf8 (raw ++ ';' :: rest)).take (width + 1)) =
      if (utf8 raw).length ≤ width then some (utf8 raw).length else none := by
    have htake : indexOf? ';' ((utf8 (raw ++ ';' :: rest)).take (width + 1)) =
        (indexOf? ';' (utf8 (raw ++ ';' :: rest))).bind
          (Option.guard (fun stop => stop < width + 1)) := List.findIdx?_take
    rw [htake, Text.indexOf?_append (by decide) hraw, Option.bind_some, Option.guard]
    simp
  have hdigits : (utf8 raw).all (fun b => isDigitOf base (Char.ofUInt8 b)) =
      raw.all (isDigitOf base) := Text.all_utf8 (Text.uniform_isDigitOf base) raw
  rw [numberBytes?, Text.bytes_ofList, hindex]
  by_cases hwidth : (utf8 raw).length ≤ width
  · by_cases hpos : (utf8 raw).length = 0
    · simp [hpos]
    · simp only [hwidth, if_true, hslice, if_neg hpos, Option.bind_eq_bind, Option.bind_some,
        Option.pure_def, Text.bytes_ofList, String.toList_ofList, hdigits, Bool.and_eq_true,
        decide_eq_true_eq, Nat.pos_of_ne_zero hpos, true_and]
      split <;> rfl
  · simp [hwidth]

/-- The number that is read from bytes is the one that is read from characters. -/
theorem numberBytes?_eq (base width : Nat) (cs : List Char) :
    numberBytes? base width (String.ofList cs) =
      some ((number? base width cs).map fun (c, rest) =>
        (c, (utf8 cs).length - (utf8 rest).length)) := by
  by_cases hmem : ';' ∈ cs
  · obtain ⟨raw, rest, rfl, hraw⟩ := List.eq_append_cons_of_mem hmem
    rw [numberBytes?_append hraw, number?_append hraw, Option.some_inj]
    by_cases hall : raw.all (isDigitOf base) = true
    · have hlength : (utf8 raw).length = raw.length :=
        Text.length_utf8_of_ascii fun c hc =>
          Text.ascii_of_isDigitOf (List.all_eq_true.mp hall c hc)
      have hconsumed :
          (utf8 (raw ++ ';' :: rest)).length - (utf8 rest).length = raw.length + 1 := by
        rw [Text.utf8_append, List.length_append, hlength, Text.length_utf8_cons,
          show ';'.utf8Size = 1 from rfl]
        omega
      rw [hlength]
      split
      · simp only [Option.map_some, hconsumed]
      · rfl
    · rw [if_neg (fun h => hall h.1), if_neg (fun h => hall h.1), Option.map_none]
  · have htake : indexOf? ';' ((utf8 cs).take (width + 1)) = none := by
      have hnone := Text.indexOf?_eq_none (by decide) hmem
      rw [indexOf?, List.findIdx?_take, ← indexOf?, hnone, Option.bind_none]
    rw [numberBytes?, Text.bytes_ofList, htake, number?_of_not_mem hmem]
    rfl

/-- The first name of a table that stands in front, and what is behind it. -/
theorem findSome?_name (table : List (List Char × Char)) (cs : List Char) :
    (table.findSome? fun (name, c) => (name.isPrefixOf? cs).map (c, ·)) =
      (table.find? fun (name, _) => name.isPrefixOf cs).map fun (name, c) =>
        (c, cs.drop name.length) := by
  induction table with
  | nil => rfl
  | cons entry table ih =>
    obtain ⟨name, c⟩ := entry
    cases hprefix : name.isPrefixOf? cs with
    | some after =>
      have happend := Text.append_of_isPrefixOf? hprefix
      have hfound : name.isPrefixOf cs = true := List.isPrefixOf_iff_prefix.mpr ⟨after, happend⟩
      simp only [List.findSome?_cons, List.find?_cons, hprefix, hfound, Option.map_some]
      rw [← happend, List.drop_left]
    | none =>
      have hnot : name.isPrefixOf cs = false := by
        rw [← Bool.not_eq_true, List.isPrefixOf_iff_prefix]
        rintro ⟨after, rfl⟩
        rw [List.isPrefixOf?_eq_some_iff_append_eq.mpr rfl] at hprefix
        cases hprefix
      simp only [List.findSome?_cons, List.find?_cons, hprefix, hnot, Option.map_none]
      exact ih

/-- A number in hexadecimal has an `x` in front. -/
theorem numeric?_eq (cs : List Char) : numeric? cs =
    if cs.head? = some 'x' ∨ cs.head? = some 'X' then number? 16 6 (cs.drop 1)
    else number? 10 7 cs := by
  unfold numeric?
  split
  · simp
  · simp
  · next hx hX =>
    rw [if_neg]
    rintro (h | h)
    · obtain ⟨tail, rfl⟩ := List.head?_eq_some_iff.mp h
      exact hx tail rfl
    · obtain ⟨tail, rfl⟩ := List.head?_eq_some_iff.mp h
      exact hX tail rfl

/-- A number in a text ends as far in front of the end of the text as in front of its own. -/
theorem map_number? {s : String} {start : Nat} (h : At s start cs) :
    ((number? base width cs).map fun (c, rest) =>
        (c, start + ((utf8 cs).length - (utf8 rest).length))) =
      (number? base width cs).map fun (c, rest) => (c, s.utf8ByteSize - (utf8 rest).length) := by
  cases hnumber : number? base width cs with
  | none => rfl
  | some found =>
    have hle := Text.length_utf8_le_of_suffix (suffix_of_number? hnumber)
    have hsize := h.size_eq
    simp only [Option.map_some, Option.some_inj, Prod.mk.injEq, true_and]
    omega

theorem isHex_eq {s : String} (h : At s 2 cs) :
    (byte? (bytes s) 2 == some 'x' || byte? (bytes s) 2 == some 'X') =
      decide (cs.head? = some 'x' ∨ cs.head? = some 'X') := by
  rw [beq_eq_decide, beq_eq_decide, Bool.decide_or,
    decide_eq_decide.mpr (h.byte?_eq_some_iff (by decide)),
    decide_eq_decide.mpr (h.byte?_eq_some_iff (by decide))]

/-- The reference that is read from bytes is the one that is read from characters. -/
theorem readBytes?_eq {s : String} (hs : s.toList = '&' :: cs) :
    readBytes? s =
      some ((read? cs).map fun (c, rest) => (c, s.utf8ByteSize - (utf8 rest).length)) := by
  have hnames : (named.find? fun (name, _) => ('&' :: name).isPrefixOf ('&' :: cs)) =
      named.find? fun (name, _) => name.isPrefixOf cs := rfl
  have hnamed : named? cs = _ := findSome?_name named cs
  have hstart : At s 0 ('&' :: cs) := hs ▸ Text.at_start s
  unfold readBytes? read?
  rw [hs, hnames, hnamed]
  cases hfound : named.find? fun (name, _) => name.isPrefixOf cs with
  | some entry =>
    obtain ⟨name, c⟩ := entry
    obtain ⟨after, rfl⟩ : name <+: cs := by
      simpa using List.find?_some hfound
    have hlength : (String.ofList ('&' :: name)).utf8ByteSize =
        s.utf8ByteSize - (utf8 after).length := by
      rw [Text.utf8ByteSize_eq, Text.utf8ByteSize_eq, hs, String.toList_ofList, ← List.cons_append,
        Text.utf8_append, List.length_append, Nat.add_sub_cancel]
    simp only [Option.map_some, List.drop_left, hlength]
    rfl
  | none =>
    cases cs with
    | nil => rfl
    | cons d cs =>
      by_cases hd : d = '#'
      · subst hd
        have hcs : At s 2 cs := (hstart.next (by decide)).next (by decide)
        have hmark : "&#".toList.isPrefixOf ('&' :: '#' :: cs) = true := rfl
        simp only [Option.map_none, numeric?_eq, hmark, if_true, isHex_eq hcs, decide_eq_true_eq]
        by_cases hhex : cs.head? = some 'x' ∨ cs.head? = some 'X'
        · have hdigits : At s 3 (cs.drop 1) := by
            rcases hhex with h | h
            · obtain ⟨digits, rfl⟩ := List.head?_eq_some_iff.mp h
              exact hcs.next (by decide)
            · obtain ⟨digits, rfl⟩ := List.head?_eq_some_iff.mp h
              exact hcs.next (by decide)
          simp only [hhex, if_true, hdigits.slice?_end, Option.bind_eq_bind, Option.bind_some,
            numberBytes?_eq, Option.map_map, ← map_number? hdigits]
          rfl
        · simp only [hhex, if_false, hcs.slice?_end, Option.bind_eq_bind, Option.bind_some,
            numberBytes?_eq, Option.map_map, ← map_number? hcs]
          rfl
      · have hmark : "&#".toList.isPrefixOf ('&' :: d :: cs) = false := by
          simp [List.isPrefixOf, Ne.symm hd]
        simp only [Option.map_none, hmark, Bool.false_eq_true, if_false]
        split
        · next heq => cases heq
        · next heq => exact absurd (List.cons.inj heq).1 hd
        · rfl

theorem decode_append_of_not_mem (h : '&' ∉ cs) (rest : List Char) :
    decode (cs ++ rest) = cs ++ decode rest := by
  induction cs with
  | nil => rfl
  | cons c cs ih =>
    rw [List.mem_cons, not_or] at h
    rw [List.cons_append, decode_cons (Ne.symm h.1), ih h.2, List.cons_append]

theorem decode_ampersand (h : read? cs = none) : decode ('&' :: cs) = '&' :: decode cs := by
  rw [decode, if_pos rfl]
  split
  · next hfound =>
    rw [h] at hfound
    cases hfound
  · rfl

/-- What is decoded so far and the rest make a text. -/
def Progress.Makes (s : String) (out : List Char) (p : Progress) : Prop :=
  ∃ rest, At s p.pos rest ∧ p.out.toList ++ decode rest = out

theorem Progress.Makes.le_size {s : String} {out : List Char} {p : Progress} (h : p.Makes s out) :
    p.pos ≤ s.utf8ByteSize := by
  obtain ⟨rest, hat, -⟩ := h
  exact hat.le_size

/-- A round of the decoder has an answer, moves on and makes the same text. -/
theorem decodeRound_spec {s : String} {out : List Char} {p : Progress} (h : p.Makes s out) :
    ∃ round, decodeRound s p = some round ∧
      round.Leads (fun next => next.Makes s out ∧ p.pos < next.pos) (·.toList = out) := by
  obtain ⟨rest, hat, hout⟩ := h
  rw [decodeRound]
  cases rest with
  | nil =>
    have hend := hat.eq_size
    rw [decode_nil, List.append_nil] at hout
    exact ⟨.done p.out, by rw [if_neg (by omega)]; rfl, hout⟩
  | cons c cs =>
    have hlt : p.pos < s.utf8ByteSize := hat.lt_size_iff.mpr (List.cons_ne_nil c cs)
    obtain ⟨b, hb, hbyte⟩ := hat.exists_byte
    rw [if_pos hlt, hb]
    simp only [Option.bind_eq_bind, Option.bind_some, hbyte '&' (by decide)]
    by_cases hc : c = '&'
    · subst hc
      rw [if_pos rfl, hat.slice?_end, Option.bind_some, readBytes?_eq (String.toList_ofList)]
      cases hread : read? cs with
      | some found =>
        obtain ⟨d, after⟩ := found
        have hsuffix : after <:+ cs := suffix_of_read? hread
        have hnext := hat.skip (hsuffix.trans (List.suffix_cons '&' cs))
        refine ⟨_, rfl, ⟨after, ?_, ?_⟩, ?_⟩
        · rwa [Text.utf8ByteSize_eq, String.toList_ofList]
        · rw [← hout, decode_reference hread]
          simp
        · rw [Text.utf8ByteSize_eq, String.toList_ofList]
          exact hat.lt_of_suffix hnext hsuffix
      | none =>
        refine ⟨_, rfl, ⟨cs, hat.next (by decide), ?_⟩, Nat.lt_succ_self _⟩
        rw [← hout, decode_ampersand hread]
        simp
    · have hrun := hat.run (· != '&')
      rw [if_neg hc, hat.from?, Option.bind_some, hat.seek_eq (by decide), hat.slice?_run]
      refine ⟨_, rfl, ⟨_, hrun, ?_⟩, ?_⟩
      · have hnot : '&' ∉ (c :: cs).takeWhile (· != '&') := by
          intro hmem
          simpa using List.mem_takeWhile_imp hmem
        rw [String.toList_append, String.toList_ofList, List.append_assoc,
          ← decode_append_of_not_mem hnot, List.takeWhile_append_dropWhile, hout]
      · have hdrop : (c :: cs).dropWhile (· != '&') <:+ cs := by
          rw [List.dropWhile_cons_of_pos (by simpa using hc)]
          exact List.dropWhile_suffix _
        exact hat.lt_of_suffix hrun hdrop

/-- The decoder that runs over bytes has an answer for every text. -/
theorem decodeBytes_eq (s : String) :
    decodeBytes s = some (String.ofList (decode s.toList)) := by
  have hstart := Text.at_start s
  rw [decodeBytes, Text.bytes_eq]
  by_cases hmem : '&' ∈ s.toList
  · obtain ⟨front, rest, hs, hfront⟩ := List.eq_append_cons_of_mem hmem
    have hfirst : At s 0 (front ++ '&' :: rest) := hs ▸ hstart
    have hslice : slice? s 0 (utf8 front).length = some (String.ofList front) := by
      simpa using hfirst.slice?
    have hmakes :
        Progress.Makes s (decode s.toList) ⟨(utf8 front).length, String.ofList front⟩ := by
      refine ⟨'&' :: rest, by simpa using hfirst.advance, ?_⟩
      rw [String.toList_ofList, hs, decode_append_of_not_mem hfront]
    obtain ⟨result, hresult, hout⟩ := iterate_spec Progress.pos
      (fun _ hp => hp.le_size) (fun _ hp => decodeRound_spec hp) hmakes
    rw [hs, Text.indexOf?_append (by decide) hfront]
    simp only [hslice, Option.bind_eq_bind, Option.bind_some, hresult]
    rw [← hs, ← hout, String.ofList_toList]
  · rw [Text.indexOf?_eq_none (by decide) hmem, decode_eq_self hmem, String.ofList_toList]
    rfl

end Reference

end LiveMarkup.Markup
