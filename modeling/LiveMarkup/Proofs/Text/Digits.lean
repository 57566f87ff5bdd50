import LiveMarkup.Text.Digits
import Mathlib.Logic.Function.Basic

/-!
# Numerals are read back

A number is read back from its numeral in every base up to sixteen, so different numbers have
different numerals. For hexadecimal it makes no difference whether the letters are small or
capital, and in no base do zeros in front.
-/

namespace LiveMarkup.Text

theorem hexValue?_digitChar (d : Fin 16) : hexValue? (Nat.digitChar d) = some d.val := by
  revert d
  decide

/-- Numerals are made of digits. -/
theorem exists_digitChar_of_mem_toDigits {base : Nat} (hbase : 1 < base) {n : Nat} {c : Char}
    (h : c ∈ Nat.toDigits base n) : ∃ d < base, c = Nat.digitChar d := by
  induction n using Nat.strongRecOn with
  | ind n ih =>
    rw [Nat.toDigits_eq_if hbase] at h
    split at h
    · next hlt => exact ⟨n, hlt, List.mem_singleton.mp h⟩
    · rcases List.mem_append.mp h with h | h
      · exact ih (n / base) (Nat.div_lt_self (by omega) hbase) h
      · exact ⟨n % base, Nat.mod_lt _ (by omega), List.mem_singleton.mp h⟩

theorem hexValue?_toUpper (c : Char) : hexValue? c.toUpper = hexValue? c := by
  by_cases hlower : 'a'.val ≤ c.val ∧ c.val ≤ 'z'.val
  · have hletters : ∀ i : Fin 26, hexValue? (Char.ofNat (97 + i)).toUpper =
        hexValue? (Char.ofNat (97 + i)) := by decide
    have hrange : 97 ≤ c.toNat ∧ c.toNat ≤ 122 := by
      simpa [UInt32.le_iff_toNat_le] using hlower
    have hc := hletters ⟨c.toNat - 97, by omega⟩
    rwa [Nat.add_sub_cancel' hrange.1, Char.ofNat_toNat] at hc
  · have hsame : c.toUpper = c := dif_neg hlower
    rw [hsame]

/-- A number is read back from its numeral. -/
theorem numeralValue_toDigits {base : Nat} (hlow : 1 < base) (hhigh : base ≤ 16) (n : Nat) :
    numeralValue base (Nat.toDigits base n) = n := by
  have hdigit : ∀ d, d < base → (digitValue? base (Nat.digitChar d)).getD 0 = d := by
    intro d hd
    rw [digitValue?, hexValue?_digitChar ⟨d, by omega⟩, Option.filter_some,
      if_pos (decide_eq_true hd), Option.getD_some]
  induction n using Nat.strongRecOn with
  | ind n ih =>
    rw [Nat.toDigits_eq_if hlow]
    split
    · next hlt => simp [numeralValue, hdigit n hlt]
    · next hle =>
      have hfront := ih (n / base) (Nat.div_lt_self (by omega) hlow)
      rw [numeralValue, List.foldl_append, List.foldl_cons, List.foldl_nil,
        hdigit _ (Nat.mod_lt _ (by omega)), ← numeralValue, hfront, Nat.div_add_mod]

theorem toDigits_injective {base : Nat} (hlow : 1 < base) (hhigh : base ≤ 16) :
    Function.Injective (Nat.toDigits base) :=
  Function.LeftInverse.injective (numeralValue_toDigits hlow hhigh)

theorem numeralValue_map_toUpper (base : Nat) (cs : List Char) :
    numeralValue base (cs.map Char.toUpper) = numeralValue base cs := by
  rw [numeralValue, List.foldl_map, numeralValue]
  simp only [digitValue?, hexValue?_toUpper]

theorem numeralValue_padLeft (base width : Nat) (cs : List Char) :
    numeralValue base (padLeft width '0' cs) = numeralValue base cs := by
  have hzero : (digitValue? base '0').getD 0 = 0 := by
    cases base <;> rfl
  have hzeros : ∀ k, (List.replicate k '0').foldl
      (fun n c => base * n + (digitValue? base c).getD 0) 0 = 0 := by
    intro k
    induction k with
    | zero => rfl
    | succ k ih => rw [List.replicate_succ, List.foldl_cons, hzero, Nat.mul_zero, ih]
  rw [numeralValue, padLeft, List.foldl_append, hzeros, numeralValue]

theorem numeralValue_lowerHex (n : Nat) : numeralValue 16 (lowerHex n) = n :=
  numeralValue_toDigits (by decide) (by decide) n

theorem numeralValue_upperHex (n : Nat) : numeralValue 16 (upperHex n) = n := by
  rw [upperHex, numeralValue_map_toUpper]
  exact numeralValue_lowerHex n

/-- Hexadecimal of either case has no brace in it. -/
theorem brace_not_mem_hex (n : Nat) : '\x7d' ∉ lowerHex n ∧ '\x7d' ∉ upperHex n := by
  have hdigits : ∀ d : Fin 16, '\x7d' ≠ Nat.digitChar d ∧ '\x7d' ≠ (Nat.digitChar d).toUpper := by
    decide
  constructor
  · intro h
    obtain ⟨d, hd, hc⟩ := exists_digitChar_of_mem_toDigits (by decide) h
    exact (hdigits ⟨d, hd⟩).1 hc
  · intro h
    obtain ⟨c, hmem, hc⟩ := List.mem_map.mp h
    obtain ⟨d, hd, rfl⟩ := exists_digitChar_of_mem_toDigits (by decide) hmem
    exact (hdigits ⟨d, hd⟩).2 hc.symm

end LiveMarkup.Text
