import LiveMarkup.Patch.Compile
import LiveMarkup.Proofs.Text.Digits
import Mathlib.Data.Finset.Card
import Mathlib.Data.Finset.Dedup
import Mathlib.Data.List.TakeWhile

/-!
# Choosing keys

The choice of keys goes through the candidates once and keeps the opens in order, so a
program with its keys chosen differs from the sketch of it in the chosen keys only
(`Chooses.map_masked`). More candidates at the end change nothing, and as many
different candidates as there are opens are always enough.

The numbered candidates are all different, and so are those for different drawn numbers.
-/

namespace LiveMarkup.Patch

/-- The key of an open before keys are chosen, with an empty one for those to choose. -/
def Key.ofGiven : Option String → Key
  | some key => .explicit key
  | none => .generated ""

/-- How keys are chosen: a given key stays, an open without a key gets the first candidate
that is not taken, and all other instructions stay as they are. -/
inductive Chooses :
    (taken candidates : List String) → List Sketch → List (Instruction Key) → Prop
  | nil {taken candidates : List String} : Chooses taken candidates [] []
  | given (name key : String) (attributes : List (String × String))
      {taken candidates : List String} {program : List Sketch} {p : List (Instruction Key)} :
      Chooses taken candidates program p →
      Chooses taken candidates (.openTag name (some key) attributes :: program)
        (.openTag name (.explicit key) attributes :: p)
  | chosen (name key : String) (attributes : List (String × String))
      {taken candidates rest : List String} {program : List Sketch}
      {p : List (Instruction Key)} :
      candidates.dropWhile taken.contains = key :: rest →
      Chooses (key :: taken) rest program p →
      Chooses taken candidates (.openTag name none attributes :: program)
        (.openTag name (.generated key) attributes :: p)
  | other {i : Sketch} {taken candidates : List String} {program : List Sketch}
      {p : List (Instruction Key)} : i.isOpen = false → Chooses taken candidates program p →
      Chooses taken candidates (i :: program) (i.mapKey Key.ofGiven :: p)

variable {taken candidates : List String} {program : List Sketch} {p q : List (Instruction Key)}

theorem chooseKeys_cons_of_isOpen_eq_false {i : Sketch} (hi : i.isOpen = false)
    (taken candidates : List String) (program : List Sketch) :
    chooseKeys taken candidates (i :: program) =
      (chooseKeys taken candidates program).map (i.mapKey Key.ofGiven :: ·) := by
  cases i with
  | openTag name key attributes => cases hi
  | closeTag name => rfl
  | text content => rfl
  | skip => rfl

theorem Chooses.chooseKeys_eq (h : Chooses taken candidates program p) :
    chooseKeys taken candidates program = .ok p := by
  induction h with
  | nil => rfl
  | given name key attributes _ ih =>
    rw [chooseKeys, ih]
    rfl
  | chosen name key attributes hrest _ ih =>
    simp only [chooseKeys, hrest, ih]
    rfl
  | other hi _ ih =>
    rw [chooseKeys_cons_of_isOpen_eq_false hi, ih]
    rfl

theorem map_eq_ok {ε α β : Type} {e : Except ε α} {f : α → β} {b : β} (h : e.map f = .ok b) :
    ∃ a, e = .ok a ∧ b = f a := by
  cases e with
  | error e => cases h
  | ok a =>
    cases h
    exact ⟨a, rfl, rfl⟩

theorem map_eq_error {ε α β : Type} {e : Except ε α} {f : α → β} {err : ε}
    (h : e.map f = .error err) : e = .error err := by
  cases e with
  | error e =>
    cases h
    rfl
  | ok a => cases h

theorem chooses_of_chooseKeys (h : chooseKeys taken candidates program = .ok p) :
    Chooses taken candidates program p := by
  induction program generalizing taken candidates p with
  | nil =>
    cases h
    exact .nil
  | cons i program ih =>
    cases hi : i.isOpen with
    | false =>
      rw [chooseKeys_cons_of_isOpen_eq_false hi] at h
      obtain ⟨q, hq, rfl⟩ := map_eq_ok h
      exact .other hi (ih hq)
    | true =>
      cases i with
      | openTag name key attributes =>
        cases key with
        | some key =>
          obtain ⟨q, hq, rfl⟩ := map_eq_ok h
          exact .given name key attributes (ih hq)
        | none =>
          rw [chooseKeys] at h
          split at h
          · cases h
          · next key rest hrest =>
            obtain ⟨q, hq, rfl⟩ := map_eq_ok h
            exact .chosen name key attributes hrest (ih hq)
      | closeTag name => cases hi
      | text content => cases hi
      | skip => cases hi

/-- A key without its value if the compiler chose it. -/
def Key.masked (key : Key) : Key :=
  match key.origin with
  | .explicit => key
  | .generated => .generated ""

/-- A program without the values of the keys that the compiler chose. -/
def masked (p : Patch) : Patch := ⟨p.instructions.map (·.mapKey Key.masked)⟩

theorem Instruction.mapKey_mapKey {κ ι ν : Type} (f : κ → ι) (g : ι → ν) (i : Instruction κ) :
    (i.mapKey f).mapKey g = i.mapKey fun key => g (f key) := by
  cases i <;> rfl

/-- Without the values of the chosen keys, a program does not depend on the choice. -/
theorem Chooses.map_masked (h : Chooses taken candidates program p) :
    p.map (·.mapKey Key.masked) = program.map (·.mapKey Key.ofGiven) := by
  induction h with
  | nil => rfl
  | given name key attributes _ ih => rw [List.map_cons, ih]; rfl
  | chosen name key attributes _ _ ih => rw [List.map_cons, ih]; rfl
  | @other i _ _ _ _ hi _ ih =>
    rw [List.map_cons, List.map_cons, ih]
    congr 1
    cases i with
    | openTag name key attributes => cases hi
    | closeTag name => rfl
    | text content => rfl
    | skip => rfl

theorem Chooses.masked_eq (h : Chooses taken candidates program p) :
    masked ⟨p⟩ = ⟨program.map (·.mapKey Key.ofGiven)⟩ := by
  rw [masked, h.map_masked]

theorem Chooses.length_keys (h : Chooses taken candidates program p) :
    (Patch.mk p).keys.length = program.countP Instruction.isOpen := by
  induction h with
  | nil => rfl
  | given name key attributes _ ih => rw [List.countP_cons_of_pos rfl, ← ih]; rfl
  | chosen name key attributes _ _ ih => rw [List.countP_cons_of_pos rfl, ← ih]; rfl
  | @other i _ _ _ _ hi _ ih =>
    rw [List.countP_cons_of_neg (by simp [hi]), ← ih]
    cases i with
    | openTag name key attributes => cases hi
    | closeTag name => rfl
    | text content => rfl
    | skip => rfl

/-- Choosing keys changes nothing but keys. -/
theorem map_mapKey_of_chooseKeys (h : chooseKeys taken candidates program = .ok p) :
    p.map (·.mapKey fun _ => ()) = program.map (·.mapKey fun _ => ()) := by
  have hmasked := congrArg (List.map (·.mapKey fun _ => ())) (chooses_of_chooseKeys h).map_masked
  simpa [Function.comp_def, Instruction.mapKey_mapKey] using hmasked

/-- Further candidates at the end change nothing. -/
theorem Chooses.append (h : Chooses taken candidates program p) (more : List String) :
    Chooses taken (candidates ++ more) program p := by
  induction h with
  | nil => exact .nil
  | given name key attributes _ ih => exact .given name key attributes ih
  | chosen name key attributes hrest _ ih =>
    refine .chosen name key attributes ?_ ih
    rw [List.dropWhile_append, hrest]
    rfl
  | other hi _ ih => exact .other hi ih

/-- The key that an instruction has before keys are chosen. -/
def givenKey? : Sketch → Option String
  | .openTag _ key _ => key
  | _ => none

/-- Whether an instruction is an open whose key is still to be chosen. -/
def isUnkeyed : Sketch → Bool
  | .openTag _ none _ => true
  | _ => false

theorem countP_isOpen_eq (program : List Sketch) :
    program.countP Instruction.isOpen =
      program.countP isUnkeyed + (program.filterMap givenKey?).length := by
  induction program with
  | nil => rfl
  | cons i program ih =>
    rw [List.countP_cons, List.countP_cons, List.filterMap_cons, ih]
    match i with
    | .openTag name none attributes => simp [Instruction.isOpen, isUnkeyed, givenKey?]; omega
    | .openTag name (some key) attributes => simp [Instruction.isOpen, isUnkeyed, givenKey?]; omega
    | .closeTag name => rfl
    | .text content => rfl
    | .skip => rfl

/-- The first candidate that is not taken, with the taken ones in front of it. -/
theorem candidates_split {key : String} {rest : List String}
    (hrest : candidates.dropWhile taken.contains = key :: rest) :
    key ∉ taken ∧ ∃ front, candidates = front ++ key :: rest ∧ ∀ c ∈ front, c ∈ taken := by
  refine ⟨?_, candidates.takeWhile taken.contains, ?_, fun c hc => ?_⟩
  · have hne : candidates.dropWhile taken.contains ≠ [] := by simp [hrest]
    have hhead := List.head_dropWhile_not taken.contains hne
    simpa [hrest] using hhead
  · rw [← hrest, List.takeWhile_append_dropWhile]
  · simpa using List.mem_takeWhile_imp hc

/-- Of the candidates that are not taken, a choice uses up the first only. -/
theorem card_sdiff_le {key : String} {rest : List String}
    (hrest : candidates.dropWhile taken.contains = key :: rest) :
    (candidates.toFinset \ taken.toFinset).card ≤
      (rest.toFinset \ (key :: taken).toFinset).card + 1 := by
  refine Nat.le_trans (Finset.card_le_card fun c hc => ?_) (Finset.card_insert_le key _)
  obtain ⟨hc, hfree⟩ : c ∈ candidates ∧ c ∉ taken := by simpa using hc
  obtain ⟨-, front, rfl, hfront⟩ := candidates_split hrest
  rcases List.mem_append.mp hc with hc | hc
  · exact absurd (hfront c hc) hfree
  · by_cases hkey : c = key
    · simp [hkey]
    · simpa [hkey, hfree] using hc

/-- As many candidates as there are keys to choose are enough, if they are not taken. -/
theorem exists_chooseKeys (taken candidates : List String) (program : List Sketch)
    (henough : program.countP isUnkeyed ≤ (candidates.toFinset \ taken.toFinset).card) :
    ∃ p, chooseKeys taken candidates program = .ok p := by
  induction program generalizing taken candidates with
  | nil => exact ⟨[], rfl⟩
  | cons i program ih =>
    have hrest : program.countP isUnkeyed ≤ (i :: program).countP isUnkeyed :=
      (List.sublist_cons_self i program).countP_le
    cases hi : i.isOpen with
    | false =>
      obtain ⟨p, hp⟩ := ih taken candidates (Nat.le_trans hrest henough)
      exact ⟨_, by rw [chooseKeys_cons_of_isOpen_eq_false hi, hp]; rfl⟩
    | true =>
      cases i with
      | openTag name key attributes =>
        cases key with
        | some key =>
          obtain ⟨p, hp⟩ := ih taken candidates (Nat.le_trans hrest henough)
          exact ⟨_, by rw [chooseKeys, hp]; rfl⟩
        | none =>
          rw [List.countP_cons_of_pos rfl] at henough
          cases hcandidates : candidates.dropWhile taken.contains with
          | nil =>
            have hall : candidates.toFinset ⊆ taken.toFinset := by
              intro c hc
              simpa using List.dropWhile_eq_nil_iff.mp hcandidates c (by simpa using hc)
            rw [Finset.sdiff_eq_empty_iff_subset.mpr hall, Finset.card_empty] at henough
            omega
          | cons key rest =>
            have hcard := card_sdiff_le hcandidates
            obtain ⟨p, hp⟩ := ih (key :: taken) rest (by omega)
            exact ⟨_, by simp only [chooseKeys, hcandidates, hp]; rfl⟩
      | closeTag name => cases hi
      | text content => cases hi
      | skip => cases hi

/-- Where all given keys are taken, as many different candidates as opens are enough. -/
theorem exists_chooseKeys_of_countP_le (candidates : List String) (program : List Sketch)
    (henough : program.countP Instruction.isOpen ≤ candidates.toFinset.card) :
    ∃ p, chooseKeys (program.filterMap givenKey?) candidates program = .ok p := by
  have hcard := Finset.le_card_sdiff (program.filterMap givenKey?).toFinset candidates.toFinset
  have htaken := List.toFinset_card_le (program.filterMap givenKey?)
  have hopens := countP_isOpen_eq program
  exact exists_chooseKeys _ _ _ (by omega)

/-- A choice fails of nothing but the end of the candidates. -/
theorem chooseKeys_eq_error {e : CompileError}
    (h : chooseKeys taken candidates program = .error e) : e = .outOfDraws := by
  induction program generalizing taken candidates with
  | nil => cases h
  | cons i program ih =>
    match i with
    | .openTag name none attributes =>
      rw [chooseKeys] at h
      split at h
      · cases h
        rfl
      · exact ih (map_eq_error h)
    | .openTag name (some key) attributes => exact ih (map_eq_error h)
    | .closeTag name => exact ih (map_eq_error h)
    | .text content => exact ih (map_eq_error h)
    | .skip => exact ih (map_eq_error h)

theorem candidates_drawn_injective :
    Function.Injective fun n : UInt64 => String.ofList (Text.lowerHex n.toNat) := by
  intro n m h
  have hdigits := Text.toDigits_injective (by decide) (by decide) (String.ofList_injective h)
  exact UInt64.toNat_inj.mp hdigits

theorem candidates_numbered_injective (stem : String) :
    Function.Injective fun i : Nat => stem ++ toString (i + 1) := by
  intro i j h
  have hnumber : toString (i + 1) = toString (j + 1) := (String.append_right_inj stem).mp h
  rw [Nat.toString_eq_ofList_toDigits, Nat.toString_eq_ofList_toDigits] at hnumber
  exact Nat.succ.inj
    (Text.toDigits_injective (by decide) (by decide) (String.ofList_injective hnumber))

theorem card_toFinset_map {α : Type} [DecidableEq α] {f : α → String}
    (hf : Function.Injective f) (l : List α) : (l.map f).toFinset.card = l.dedup.length := by
  rw [List.card_toFinset, List.dedup_map_of_injective hf, List.length_map]

/-- The numbered candidates are as many as there are nodes. -/
theorem card_candidates_numbered (stem : String) (size : Nat) :
    ((KeyScheme.numbered stem).candidates size).toFinset.card = size := by
  rw [KeyScheme.candidates, card_toFinset_map (candidates_numbered_injective stem),
    List.nodup_range.dedup, List.length_range]

theorem card_candidates_drawn (draws : List UInt64) (size : Nat) :
    ((KeyScheme.drawn draws).candidates size).toFinset.card = draws.dedup.length := by
  rw [KeyScheme.candidates, card_toFinset_map candidates_drawn_injective]

/-- With numbers, the number of candidates has no influence on the choice. -/
theorem chooseKeys_numbered_unique {stem : String} {n m : Nat}
    (h : chooseKeys taken ((KeyScheme.numbered stem).candidates n) program = .ok p)
    (h' : chooseKeys taken ((KeyScheme.numbered stem).candidates m) program = .ok q) : p = q := by
  have hmore : ∀ k d, (KeyScheme.numbered stem).candidates (k + d) =
      (KeyScheme.numbered stem).candidates k ++ ((List.range d).map (k + ·)).map
        fun i => stem ++ toString (i + 1) := by
    intro k d
    rw [KeyScheme.candidates, List.range_add, List.map_append]
    rfl
  have hp := ((chooses_of_chooseKeys h).append (((List.range m).map (n + ·)).map
    fun i => stem ++ toString (i + 1))).chooseKeys_eq
  have hq := ((chooses_of_chooseKeys h').append (((List.range n).map (m + ·)).map
    fun i => stem ++ toString (i + 1))).chooseKeys_eq
  rw [← hmore] at hp hq
  rw [Nat.add_comm, hp] at hq
  exact Except.ok.inj hq

/-- The number of nodes has no influence on the choice as long as there are enough for the
opens. -/
theorem chooseKeys_resize {scheme : KeyScheme} {n m : Nat}
    (h : chooseKeys (program.filterMap givenKey?) (scheme.candidates n) program = .ok p)
    (hm : program.countP Instruction.isOpen ≤ m) :
    chooseKeys (program.filterMap givenKey?) (scheme.candidates m) program = .ok p := by
  cases scheme with
  | numbered stem =>
    obtain ⟨q, hq⟩ := exists_chooseKeys_of_countP_le ((KeyScheme.numbered stem).candidates m)
      program (hm.trans_eq (card_candidates_numbered stem m).symm)
    rw [hq, chooseKeys_numbered_unique h hq]
  | drawn draws => exact h

/-- From drawn numbers keys are chosen, unless there are fewer different ones than opens. -/
theorem chooseKeys_drawn (draws : List UInt64) (size : Nat) (program : List Sketch) :
    (∃ p, chooseKeys (program.filterMap givenKey?) ((KeyScheme.drawn draws).candidates size)
        program = .ok p) ∨
      (chooseKeys (program.filterMap givenKey?) ((KeyScheme.drawn draws).candidates size)
          program = .error .outOfDraws ∧
        draws.dedup.length < program.countP Instruction.isOpen) := by
  cases hchoice : chooseKeys (program.filterMap givenKey?)
    ((KeyScheme.drawn draws).candidates size) program with
  | ok p => exact .inl ⟨p, rfl⟩
  | error e =>
    refine .inr ⟨congrArg Except.error (chooseKeys_eq_error hchoice), ?_⟩
    by_contra hle
    have henough := (Nat.le_of_not_lt hle).trans_eq (card_candidates_drawn draws size).symm
    obtain ⟨p, hp⟩ := exists_chooseKeys_of_countP_le _ program henough
    rw [hchoice] at hp
    cases hp

end LiveMarkup.Patch
