import LiveMarkup.Proofs.Live.Frames

/-!
# How a replay ends

A replay tells of its completion by a callback, which acts on a world of its own. It is called
once when all instructions have gone through, before the transaction ends, and not at all when
one of them failed or when the transaction was refused. The end can still refuse a program that
leaves an element open, and that is the only failure after the callback.

However a replay ends, no transaction is running afterwards. A replay that is asked for inside
of a transaction is refused and disturbs nothing.
-/

namespace LiveMarkup.Live.Tree

open Patch (Outcome)

variable {t s u : Tree} {a : Handle} {e : Error}
  {program rest : List (Patch.Instruction Patch.Key)}

/-- Performed one after the other, none of the instructions fails. -/
def GoesThrough (t : Tree) (program : List (Patch.Instruction Patch.Key)) : Prop :=
  ∀ before i after, program = before ++ i :: after →
    ((t.run (before.map .perform)).perform i).failure = none

theorem goesThrough_nil (t : Tree) : GoesThrough t [] := by
  intro before i after h
  simp at h

theorem goesThrough_cons_iff {i : Patch.Instruction Patch.Key} :
    GoesThrough t (i :: program) ↔
      (t.perform i).failure = none ∧ GoesThrough (t.perform i).state program := by
  constructor
  · intro h
    exact ⟨h [] i program rfl, fun before j after hprogram => h (i :: before) j after (by
      rw [hprogram, List.cons_append])⟩
  · rintro ⟨hfirst, hrest⟩ before j after hprogram
    cases before with
    | nil =>
      obtain ⟨rfl, rfl⟩ := List.cons.inj hprogram
      exact hfirst
    | cons k before =>
      obtain ⟨rfl, rfl⟩ := List.cons.inj hprogram
      exact hrest before j after rfl

theorem goesThrough_append_iff :
    GoesThrough t (program ++ rest) ↔
      GoesThrough t program ∧ GoesThrough (t.run (program.map .perform)) rest := by
  induction program generalizing t with
  | nil => simp [goesThrough_nil, Tree.run]
  | cons i program ih =>
    rw [List.cons_append, goesThrough_cons_iff, goesThrough_cons_iff, ih, and_assoc]
    rfl

/-- A replay succeeds when each of its instructions does. -/
theorem failure_replay_eq_none_iff :
    (Patch.replay program t : Outcome Error Tree).failure = none ↔ GoesThrough t program := by
  induction program generalizing t with
  | nil => exact ⟨fun _ => goesThrough_nil t, fun _ => rfl⟩
  | cons i program ih =>
    rw [goesThrough_cons_iff]
    simp only [Patch.replay]
    split
    · next u hu =>
      have hperform : t.perform i = ⟨none, u⟩ := hu
      rw [ih, hperform]
      simp
    · next hfails =>
      have hfailure : (t.perform i).failure ≠ none := fun hok =>
        hfails (t.perform i).state (congrArg (Outcome.mk · (t.perform i).state) hok)
      exact ⟨fun hok => absurd hok hfailure, fun hok => absurd hok.1 hfailure⟩

/-- What a replay fails of is what one of its instructions fails of. -/
theorem exists_perform_of_failure_replay
    (hfailure : (Patch.replay program t : Outcome Error Tree).failure = some e) :
    ∃ before i after, program = before ++ i :: after ∧
      ((t.run (before.map .perform)).perform i).failure = some e := by
  induction program generalizing t with
  | nil => cases hfailure
  | cons i program ih =>
    simp only [Patch.replay] at hfailure
    split at hfailure
    · next u hu =>
      have hstate : (t.perform i).state = u := congrArg Outcome.state hu
      obtain ⟨before, j, after, rfl, hj⟩ := ih hfailure
      exact ⟨i :: before, j, after, rfl, by rw [← hstate] at hj; exact hj⟩
    · exact ⟨[], i, program, rfl, hfailure⟩

theorem check_ne_unclosed {p : Handle} {index : Nat} {child : Option String} {tag : String} :
    t.check p index child ≠ .error (.unclosedElement tag) := by
  intro hcheck
  obtain he | he | he := check_error_cases hcheck <;> cases he

theorem claim_ne_unclosed {f : Frame} {name key tag : String} :
    t.claim f name key ≠ (.error (.unclosedElement tag), u) := by
  intro hclaim
  obtain ⟨-, hcheck | ⟨-, he⟩ | ⟨-, he, -⟩⟩ := claim_error_cases hclaim
  · exact check_ne_unclosed hcheck
  · cases he
  · cases he

/-- No instruction fails of an element that is open; only the end of a transaction does. -/
theorem failure_perform_ne_unclosed (t : Tree) (i : Patch.Instruction Patch.Key) (tag : String) :
    (t.perform i).failure ≠ some (.unclosedElement tag) := by
  cases i with
  | openTag name key attributes =>
    simp only [Tree.perform, openElement]
    split
    · simp
    · split
      · next e u hclaim =>
        intro he
        obtain rfl := Option.some_inj.mp he
        exact claim_ne_unclosed hclaim
      · split <;> simp
  | closeTag name =>
    simp only [Tree.perform, closeElement]
    split
    · simp
    · simp
    · split
      · split <;> simp
      · simp
  | text content =>
    simp only [Tree.perform, putText]
    split
    · simp
    · split
      · next e hcheck =>
        intro he
        exact check_ne_unclosed (hcheck.trans (congrArg Except.error (Option.some_inj.mp he)))
      · split
        · simp
        · split <;> simp
  | skip =>
    simp only [Tree.perform, skip]
    split <;> simp

theorem failure_replay_ne_unclosed (tag : String) :
    (Patch.replay program t : Outcome Error Tree).failure ≠ some (.unclosedElement tag) := by
  intro hfailure
  obtain ⟨before, i, after, -, hi⟩ := exists_perform_of_failure_replay hfailure
  exact failure_perform_ne_unclosed _ i tag hi

/-- The end of a transaction refuses nothing but an element that is open. -/
theorem failure_complete (hframes : t.frames ≠ []) :
    t.complete.failure = none ∨ ∃ tag, t.complete.failure = some (.unclosedElement tag) := by
  simp only [complete]
  split
  · next hnil => exact absurd hnil hframes
  · exact .inl rfl
  · exact .inr ⟨_, rfl⟩

/-- Whether a transaction on the target begins and all instructions go through in it. -/
def Replays (t : Tree) (a : Handle) (program : List (Patch.Instruction Patch.Key)) : Prop :=
  ∃ s, t.begin a = ⟨none, s⟩ ∧ GoesThrough s program

/-- What becomes of a replay outside of a transaction, and of the world that its callback acts
on. -/
structure Concludes {ω : Type} (t : Tree) (a : Handle) (p : Patch) (onDone : ω → ω)
    (world : ω) (o : Outcome Error Tree) (world' : ω) : Prop where
  /-- No transaction is running, whatever happened. The flag is taken away, -/
  idle : o.state.running = false
  /-- and no container is open. -/
  frames : o.state.frames = []
  /-- The next transaction can begin on any container. -/
  next : ∀ {b n}, o.state.node? b = some n → n.kind.isContainer = true →
    ∃ u, o.state.begin b = ⟨none, u⟩
  not_gap : ∀ x, o.failure ≠ some (.gap x)
  unknown : t.node? a = none → o = ⟨some (.unknownNode a), t⟩
  leaf : ∀ {n}, t.node? a = some n → n.kind.isContainer = false → o = ⟨some (.notContainer a), t⟩
  /-- The callback is called once if all instructions have gone through, -/
  called : Replays t a p.instructions → world' = onDone world
  /-- and otherwise not at all. -/
  not_called : ¬ Replays t a p.instructions → world' = world
  replays_of_ok : o.failure = none → Replays t a p.instructions
  replays_of_unclosed : ∀ {tag}, o.failure = some (.unclosedElement tag) →
    Replays t a p.instructions
  not_replays : ∀ {e}, o.failure = some e → (∀ tag, e ≠ .unclosedElement tag) →
    ¬ Replays t a p.instructions

theorem begin_of_running (hrunning : t.running = true) :
    t.begin a = ⟨some .nestedTransaction, t⟩ := by
  simp [begin, hrunning]

theorem begin_of_unknown (hidle : t.running = false) (hnone : t.node? a = none) :
    t.begin a = ⟨some (.unknownNode a), t⟩ := by
  simp [begin, hidle, hnone]

theorem begin_of_leaf (hidle : t.running = false) {n : Node} (hn : t.node? a = some n)
    (hleaf : n.kind.isContainer = false) : t.begin a = ⟨some (.notContainer a), t⟩ := by
  simp [begin, hidle, hn, hleaf]

/-- Outside of a transaction, only the target can be refused. -/
theorem begin_error_cases (hidle : t.running = false) (hbegin : t.begin a = ⟨some e, u⟩) :
    (t.node? a = none ∧ e = .unknownNode a) ∨
      (∃ n, t.node? a = some n ∧ n.kind.isContainer = false ∧ e = .notContainer a) := by
  cases hn : t.node? a with
  | none =>
    rw [begin_of_unknown hidle hn] at hbegin
    cases hbegin
    exact .inl ⟨rfl, rfl⟩
  | some n =>
    cases hkind : n.kind.isContainer with
    | false =>
      rw [begin_of_leaf hidle hn hkind] at hbegin
      cases hbegin
      exact .inr ⟨n, rfl, hkind, rfl⟩
    | true =>
      rw [begin_eq_ok_iff.mpr ⟨hidle, ⟨n, hn, hkind⟩, rfl⟩] at hbegin
      cases hbegin

theorem exists_begin (hidle : t.running = false) {n : Node} (hn : t.node? a = some n)
    (hcontainer : n.kind.isContainer = true) : ∃ u, t.begin a = ⟨none, u⟩ :=
  ⟨_, begin_eq_ok_iff.mpr ⟨hidle, ⟨n, hn, hcontainer⟩, rfl⟩⟩

theorem not_replays_of_begin_error (hbegin : t.begin a = ⟨some e, u⟩) : ¬ Replays t a program := by
  rintro ⟨s, hs, -⟩
  simp [hbegin] at hs

theorem replays_iff (hbegin : t.begin a = ⟨none, s⟩) :
    Replays t a program ↔ GoesThrough s program := by
  simp [Replays, hbegin]

/-- A replay that is refused its transaction. -/
theorem concludes_of_begin_error {ω : Type} {p : Patch} (h : Reachable t)
    (hidle : t.running = false) (hbegin : t.begin a = ⟨some e, t⟩) (onDone : ω → ω) (world : ω) :
    Concludes t a p onDone world ⟨some e, t⟩ world := by
  have hnot : ¬ Replays t a p.instructions := not_replays_of_begin_error hbegin
  have hcases := begin_error_cases hidle hbegin
  refine ⟨hidle, h.frames_eq_nil_iff.mpr hidle, exists_begin hidle, ?_, ?_, ?_,
    fun h => absurd h hnot, fun _ => rfl, nofun, ?_, fun _ _ => hnot⟩
  · rintro x ⟨⟩
    obtain ⟨-, he⟩ | ⟨_, -, -, he⟩ := hcases <;> cases he
  · intro hnone
    rw [begin_of_unknown hidle hnone] at hbegin
    cases hbegin
    rfl
  · intro n hn hleaf
    rw [begin_of_leaf hidle hn hleaf] at hbegin
    cases hbegin
    rfl
  · rintro tag ⟨⟩
    obtain ⟨-, he⟩ | ⟨_, -, -, he⟩ := hcases <;> cases he

/-- In sound frames a replay leaves no gap, and sound frames. -/
theorem framed_replay (hs : Reachable s) (hf : Framed s a)
    (program : List (Patch.Instruction Patch.Key)) :
    Framed (Patch.replay program s : Outcome Error Tree).state a ∧
      ∀ x, (Patch.replay program s : Outcome Error Tree).failure ≠ some (.gap x) := by
  have hbody : ∀ body : List (Patch.Instruction Patch.Key),
      Framed (s.run (body.map .perform)) a := fun body => hf.run hs (spared_map_perform s body)
  constructor
  · obtain ⟨body, -, hrun, -⟩ := exists_prefix_of_replay s program
    exact hrun ▸ hbody body
  · intro x hgap
    obtain ⟨before, i, after, -, hi⟩ := exists_perform_of_failure_replay hgap
    exact (hbody before).failure_perform_ne_gap i x hi

theorem Framed.frames_ne_nil (hf : Framed t a) : t.frames ≠ [] := by
  intro hnil
  have hbottom := hf.bottom
  simp [hnil] at hbottom

/-- A replay that gets into its transaction. -/
theorem concludes_of_begin {ω : Type} {p : Patch} (h : Reachable t) (hbegin : t.begin a = ⟨none, s⟩)
    (onDone : ω → ω) (world : ω) :
    Concludes t a p onDone world (p.applyWith a onDone t world).1
      (p.applyWith a onDone t world).2 := by
  obtain ⟨hidle, ⟨n, hn, hcontainer⟩, hs⟩ := begin_eq_ok_iff.mp hbegin
  have hsound : Framed s a := by
    have hcall := framed_begin h hidle ⟨n, hn, hcontainer⟩
    rwa [Tree.call, hbegin] at hcall
  obtain ⟨hf, hgap⟩ := framed_replay (h.begin hbegin) hsound p.instructions
  have hthrough : Replays t a p.instructions ↔
      (Patch.replay p.instructions s : Outcome Error Tree).failure = none := by
    rw [replays_iff hbegin, failure_replay_eq_none_iff]
  have hunclosed : ∀ tag,
      (Patch.replay p.instructions s : Outcome Error Tree).failure ≠ some (.unclosedElement tag) :=
    failure_replay_ne_unclosed
  rw [applyWith_of_begin hbegin]
  generalize (Patch.replay p.instructions s : Outcome Error Tree) = replayed at *
  obtain ⟨failure, u⟩ := replayed
  have hunknown : t.node? a ≠ none := by simp [hn]
  have hleaf : ∀ {m}, t.node? a = some m → m.kind.isContainer ≠ false := by
    rintro m hm
    cases hn.symm.trans hm
    simp [hcontainer]
  have hidle' : (u.finish failure).state.running = false := rfl
  cases failure with
  | some e =>
    -- The end raises what the body has raised.
    have hnot : ¬ Replays t a p.instructions := by simp [hthrough]
    have hraised : (u.finish (some e)).failure = some e := rfl
    refine ⟨hidle', rfl, exists_begin hidle', ?_, fun hnone => absurd hnone hunknown,
      fun hm hkind => absurd hkind (hleaf hm), fun hall => absurd hall hnot, fun _ => rfl, ?_,
      ?_, fun _ _ => hnot⟩
    · exact hraised ▸ hgap
    · intro hok
      simp [hraised] at hok
    · exact fun h => absurd (hraised.symm.trans h) (hunclosed _)
  | none =>
    have hall : Replays t a p.instructions := hthrough.mpr rfl
    have hend : (u.finish none).failure = u.complete.failure := rfl
    have hcomplete := failure_complete hf.frames_ne_nil
    refine ⟨hidle', rfl, exists_begin hidle', ?_, fun hnone => absurd hnone hunknown,
      fun hm hkind => absurd hkind (hleaf hm), fun _ => rfl, fun hnot => absurd hall hnot,
      fun _ => hall, fun _ => hall, ?_⟩
    · intro x
      obtain hok | ⟨tag, hopen⟩ := hcomplete
      · simp [hend, hok]
      · simp [hend, hopen]
    · intro e he hother
      obtain hok | ⟨tag, hopen⟩ := hcomplete
      · simp [hend, hok] at he
      · rw [hend, hopen, Option.some_inj] at he
        exact absurd he.symm (hother tag)

/-- A replay outside of a transaction ends without one and tells of its completion once or not
at all. Inside of a transaction it is refused, and both the tree and the world stay as they
are. -/
theorem Reachable.applyWith_concludes {ω : Type} (h : Reachable t) (p : Patch) (a : Handle)
    (onDone : ω → ω) (world : ω) :
    let ended := p.applyWith a onDone t world
    (t.running = false → Concludes t a p onDone world ended.1 ended.2) ∧
      (t.running = true → ended = (⟨some .nestedTransaction, t⟩, world)) := by
  constructor
  · intro hidle
    obtain ⟨s, hbegin⟩ | ⟨e, hbegin⟩ := begin_cases t a
    · exact concludes_of_begin h hbegin onDone world
    · simp only [applyWith_of_begin_error hbegin]
      exact concludes_of_begin_error h hidle hbegin onDone world
  · exact fun hrunning => applyWith_of_begin_error (begin_of_running hrunning) onDone world

/-- In an element that was refused a close, three replays count their completions. The first
goes through and leaves an element open, the second is refused its last instruction, and the
third is asked for in the middle of a transaction. -/
theorem applyWith_concludes_counted :
    let t := Tree.new.run [.createElement "div", .appendChild .root ⟨1, 0⟩, .begin ⟨1, 0⟩,
      .perform (.text "old"), .perform (.closeTag "div"), .finish (some .noTransaction)]
    let opened : Patch := ⟨[.text "new", .openTag "p" (.explicit "k") [], .skip]⟩
    let misnamed : Patch := ⟨[.openTag "p" (.explicit "k") [], .closeTag "b"]⟩
    let u := (t.call (.begin .root)).state
    opened.applyWith ⟨1, 0⟩ Nat.succ t 0 =
        (⟨some (.unclosedElement "p"), (opened.apply ⟨1, 0⟩ t).state⟩, 1) ∧
      Concludes t ⟨1, 0⟩ opened Nat.succ 0 (opened.applyWith ⟨1, 0⟩ Nat.succ t 0).1
        (opened.applyWith ⟨1, 0⟩ Nat.succ t 0).2 ∧
      misnamed.applyWith ⟨1, 0⟩ Nat.succ t 0 =
        (⟨some (.tagMismatch "p" "b"), (misnamed.apply ⟨1, 0⟩ t).state⟩, 0) ∧
      opened.applyWith ⟨1, 0⟩ Nat.succ u 0 = (⟨some .nestedTransaction, u⟩, 0) := by
  intro t opened misnamed u
  have h : Reachable t := Reachable.new.run _
  refine ⟨by decide, ?_, by decide, ?_⟩
  · exact (h.applyWith_concludes opened ⟨1, 0⟩ Nat.succ 0).1 (by decide)
  · exact ((h.call (.begin .root)).applyWith_concludes opened ⟨1, 0⟩ Nat.succ 0).2 (by decide)

end LiveMarkup.Live.Tree
