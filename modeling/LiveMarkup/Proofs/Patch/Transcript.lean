import LiveMarkup.Patch.Transcript
import Mathlib

/-!
# Replays into a transcript

A transcript writes its lines on its own, and they are those of a listing without the indentation
(`callLine_eq_line`). So a replay leaves the lines of its program between those for the beginning
and the end of a transaction, all of them or those up to the instruction that is set to fail.
Instructions are counted over all replays, the failing one with the others, and no replay leaves a
transaction running.
-/

namespace LiveMarkup.Patch.Transcript

variable {t : Transcript} {p : List (Instruction Key)}

/-- An instruction is written down as it is listed. -/
theorem callLine_eq_line (i : Instruction Key) : callLine i = i.line .full := by
  cases i with
  | openTag name key attributes =>
    -- Writing one attribute after the other is the same as joining them behind what is written.
    have hjoin : ∀ (l : List (String × String)) (line : String),
        l.foldl (fun line a => line ++ " " ++ a.1 ++ "=" ++ Text.quoted a.2) line =
          line ++ String.join (l.map fun a => " " ++ a.1 ++ "=" ++ Text.quoted a.2) := by
      intro l
      induction l with
      | nil => simp
      | cons a l ih =>
        intro line
        rw [List.foldl_cons, ih, List.map_cons, String.join_cons]
        simp only [String.append_assoc]
    exact hjoin attributes _
  | closeTag name => rfl
  | text content => rfl
  | skip => rfl

/-- The transcript once some instructions are written down. -/
def written (t : Transcript) (p : List (Instruction Key)) : Transcript :=
  { t with
    lines := t.lines ++ (p.map (·.line .full)).toArray
    calls := t.calls + p.length }

theorem written_nil (t : Transcript) : t.written [] = t := by
  simp [written]

theorem written_cons (t : Transcript) (i : Instruction Key) (p : List (Instruction Key)) :
    t.written (i :: p) = (t.written [i]).written p := by
  simp [written, Nat.add_assoc, Nat.add_comm 1]

/-- In a transaction an instruction is counted, and it is written down unless it is the one that is
set to fail. -/
theorem perform_eq (hrunning : t.target ≠ none) (i : Instruction Key) :
    (Host.perform i t : Outcome Error Transcript) =
      if t.failAt = some (t.calls + 1) then
        ⟨some (.injected (t.calls + 1)), { t with calls := t.calls + 1 }⟩
      else ⟨none, t.written [i]⟩ := by
  change perform i t = _
  rw [perform, if_neg (by simpa using hrunning), callLine_eq_line]
  refine if_congr Iff.rfl rfl ?_
  simp [written, write]

/-- A program none of whose instructions is set to fail is written down. -/
theorem replay_of_spared (hrunning : t.target ≠ none)
    (hspared : ∀ n, t.failAt = some n → n ≤ t.calls ∨ t.calls + p.length < n) :
    (replay p t : Outcome Error Transcript) = ⟨none, t.written p⟩ := by
  induction p generalizing t with
  | nil => rw [replay_nil, written_nil]
  | cons i p ih =>
    have hthis : t.failAt ≠ some (t.calls + 1) := by
      intro hfail
      have hout := hspared _ hfail
      rw [List.length_cons] at hout
      omega
    have hrest : ∀ n, (t.written [i]).failAt = some n →
        n ≤ (t.written [i]).calls ∨ (t.written [i]).calls + p.length < n := by
      intro n hfail
      have hout := hspared n hfail
      simp only [written, List.length_cons, List.length_nil] at hout ⊢
      omega
    rw [replay, perform_eq hrunning, if_neg hthis, written_cons t i p]
    exact ih (t := t.written [i]) hrunning hrest

/-- A program with an instruction that is set to fail is written down up to it. -/
theorem replay_of_failAt (hrunning : t.target ≠ none) {n : Nat} (hfail : t.failAt = some n)
    (hlow : t.calls < n) (hhigh : n ≤ t.calls + p.length) :
    (replay p t : Outcome Error Transcript) =
      ⟨some (.injected n), { t.written (p.take (n - t.calls - 1)) with calls := n }⟩ := by
  have hlength : (p.take (n - t.calls - 1)).length = n - t.calls - 1 := by
    rw [List.length_take]
    omega
  obtain ⟨i, rest, hbehind⟩ : ∃ i rest, p.drop (n - t.calls - 1) = i :: rest :=
    List.exists_cons_of_length_pos (by rw [List.length_drop]; omega)
  have hfront : (replay (p.take (n - t.calls - 1)) t : Outcome Error Transcript) =
      ⟨none, t.written (p.take (n - t.calls - 1))⟩ := by
    refine replay_of_spared hrunning fun m hm => ?_
    rw [hfail, Option.some_inj] at hm
    omega
  have hcalls : (t.written (p.take (n - t.calls - 1))).calls + 1 = n := by
    simp only [written, hlength]
    omega
  have hfailing : Host.perform i (t.written (p.take (n - t.calls - 1))) =
      (⟨some (.injected n), { t.written (p.take (n - t.calls - 1)) with calls := n }⟩ :
        Outcome Error Transcript) := by
    rw [perform_eq (t := t.written (p.take (n - t.calls - 1))) hrunning, hcalls]
    exact if_pos hfail
  conv_lhs => rw [← List.take_append_drop (n - t.calls - 1) p]
  rw [replay_append, hfront, hbehind]
  simp only [replay, hfailing]

/-- A replay into a transcript without a running transaction. If none of its instructions is set to
fail, it succeeds, the callback is called once, and all instructions are written down between the
beginning and the end. If one of them is set to fail, the replay fails of it, there is no callback,
and the instructions in front of it are written down between the beginning and the abort. Either way
no transaction is running afterwards, and later replays go on counting from the last instruction. -/
theorem applyWith_eq {ω : Type} (p : Patch) (target : String) (onDone : ω → ω) (world : ω)
    (hidle : t.target = none) :
    ((∀ n, t.failAt = some n → n ≤ t.calls ∨ t.calls + p.size < n) →
      p.applyWith target onDone t world =
        (⟨none, {
          lines := t.lines ++ (("begin " ++ target) :: (p.instructions.map (·.line .full) ++
            ["end " ++ target])).toArray
          target := none
          calls := t.calls + p.size
          failAt := t.failAt }⟩, onDone world)) ∧
    ∀ n, t.failAt = some n → t.calls < n → n ≤ t.calls + p.size →
      p.applyWith target onDone t world =
        (⟨some (.injected n), {
          lines := t.lines ++ (("begin " ++ target) ::
            ((p.instructions.take (n - t.calls - 1)).map (·.line .full) ++
              ["abort " ++ target])).toArray
          target := none
          calls := n
          failAt := t.failAt }⟩, world) := by
  have hbegin : Host.begin target t =
      (⟨none, { t.write ("begin " ++ target) with target := some target }⟩ :
        Outcome Error Transcript) := by
    exact if_neg (by simp [hidle])
  constructor
  · intro hspared
    have hreplay := @replay_of_spared { t.write ("begin " ++ target) with target := some target }
      p.instructions (Option.some_ne_none target) hspared
    rw [applyWith, hbegin]
    simp only [hreplay]
    simp [Host.finish, finish, Outcome.isOk, written, write, size]
  · intro n hfail hlow hhigh
    have hreplay := @replay_of_failAt { t.write ("begin " ++ target) with target := some target }
      p.instructions (Option.some_ne_none target) n hfail hlow hhigh
    rw [applyWith, hbegin]
    simp only [hreplay]
    simp [Host.finish, finish, Outcome.isOk, written, write]

/-- A transcript that has counted three instructions and fails at the fifth. A replay fails of its
second instruction; the next one counts on from there, and none of its instructions is the fifth. -/
theorem applyWith_eq_counts_on :
    let p : Patch := ⟨[.text "a", .skip, .text "b", .skip]⟩
    let t : Transcript := { calls := 3, failAt := some 5 }
    let once := p.applyWith "t" (· + 1) t 0
    let twice := p.applyWith "u" (· + 1) once.1.state once.2
    once = (⟨some (.injected 5), ⟨#["begin t", "text \"a\"", "abort t"], none, 5, some 5⟩⟩, 0) ∧
      twice = (⟨none, ⟨#["begin t", "text \"a\"", "abort t", "begin u", "text \"a\"", "skip",
        "text \"b\"", "skip", "end u"], none, 9, some 5⟩⟩, 1) := by
  intro p t once twice
  have honce : once = (⟨some (.injected 5), ⟨#["begin t", "text \"a\"", "abort t"], none, 5,
      some 5⟩⟩, 0) :=
    ((applyWith_eq p "t" (· + 1) 0 (t := t) rfl).2 5 rfl (by decide) (by decide)).trans rfl
  refine ⟨honce, ?_⟩
  have hidle : once.1.state.target = none := by rw [honce]
  have htwice := (applyWith_eq p "u" (· + 1) once.2 hidle).1 (by
    rw [honce]
    intro n hfail
    cases hfail
    decide)
  rw [honce] at htwice
  exact htwice.trans rfl

end LiveMarkup.Patch.Transcript
