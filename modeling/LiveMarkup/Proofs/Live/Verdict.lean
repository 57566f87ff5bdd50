import LiveMarkup.Proofs.Live.Replay
import LiveMarkup.Proofs.Patch.SkipsLast
import LiveMarkup.Proofs.Patch.Verdict

/-!
# Refusals do not depend on what is there

A replay is refused for what its program is, in the container that it is replayed into, and
never for what that container holds (`Reachable.refusal_eq`). The judge of programs goes
through a program beside the transaction. What it knows of the open containers is what the
checks of the transaction look at (`Mirrors`), as long as nothing is put behind a skip.

Old content comes in at one place. An open that finds its element does not check the name,
but an element that is there has a name that is one.
-/

namespace LiveMarkup.Live

open Patch (Offence Opened Outcome judge firstOffence skipsLastFrom)

/-- The offence that an error tells of, without its place. Errors that are no fault of a
program have none. -/
def Error.offence? : Error → Option Offence
  | .notContainer _ => some .notContainer
  | .rawTextContent _ => some .rawTextContent
  | .invalidName name => some (.invalidName name)
  | .tagMismatch expected found => some (.tagMismatch expected found)
  | .unbalancedClose tag => some (.unbalancedClose tag)
  | .unclosedElement tag => some (.unclosedElement tag)
  | .unknownNode _ | .notElement _ | .noTransaction | .nestedTransaction | .cycle _ _ | .gap _ =>
    none

namespace Zipper

variable {l : Level} {c : Opened} {skipped : Bool} {flags : List Bool} {z : List Level}
  {here : Opened} {outer : List Opened} {fresh : Handle} {name content : String}
  {attributes : List (String × String)}

/-- A container is known by its name, and unless it was skipped over, by whether its cursor
has moved. -/
structure Shows (cursor : Nat) (l : Level) (c : Opened) (skipped : Bool) : Prop where
  text? : l.kind.text? = none
  name? : l.kind.name? = c.name?
  cursor_eq_zero_iff : skipped = false → (cursor = 0 ↔ c.filled = false)

/-- The judge knows all open containers. The cursor of a container stands behind the element
that is open in it. -/
inductive Mirrors : (hole : Nat) → List Level → List Opened → List Bool → Prop
  | nil {hole : Nat} : Mirrors hole [] [] []
  | cons {hole : Nat} {l : Level} {c : Opened} {skipped : Bool} {z : List Level}
      {cs : List Opened} {flags : List Bool} : Shows (l.passed.length + hole) l c skipped →
      Mirrors 1 z cs flags → Mirrors hole (l :: z) (c :: cs) (skipped :: flags)

/-- A container refuses a child for what speaks against it. -/
theorem Shows.check (h : Shows l.passed.length l c false) (child : Option String) :
    match c.offence? child with
    | some offence => ∃ e, l.check child = .error e ∧ e.offence? = some offence
    | none => l.check child = .ok () := by
  obtain ⟨htext, hname, hcursor⟩ := h
  have hempty : (l.passed.length == 0) = !c.filled := by
    have hiff := hcursor rfl
    cases hc : c.filled with
    | false => simpa using hiff.mpr hc
    | true =>
      rw [hc] at hiff
      simpa using hiff
  cases hkind : l.kind with
  | root =>
    rw [hkind] at hname
    simp [Opened.offence?, ← hname, Kind.name?, Level.check, hkind, Kind.isContainer, Kind.takes]
  | text content =>
    rw [hkind] at htext
    cases htext
  | element tag key attributes =>
    rw [hkind] at hname
    simp only [Opened.offence?, ← hname, Kind.name?, Level.check, hkind, Kind.isContainer,
      Kind.takes, hempty]
    cases Markup.isVoid tag with
    | true => exact ⟨_, rfl, rfl⟩
    | false =>
      cases Markup.isRawText tag with
      | false => rfl
      | true =>
        cases hfits : !c.filled && child.any fun text => !Markup.endsRawText tag text with
        | true => rfl
        | false => exact ⟨_, rfl, rfl⟩

/-- An instruction goes wrong where the judge says so, and goes on as the judge does. -/
def Agrees (o : Outcome Error (List Level)) (result : Except Offence (Opened × List Opened))
    (flags : List Bool) : Prop :=
  match result with
  | .error offence => ∃ e, o.failure = some e ∧ e.offence? = some offence
  | .ok (here, outer) => o.failure = none ∧ Mirrors 0 o.state (here :: outer) flags

/-- An open finds only elements whose names are names. -/
theorem claim_of_check (fresh : Handle) (name key : String) (hcheck : l.check none = .ok ())
    (hnamed : ∀ r ∈ l.ahead, r.label.2.Named) :
    if Markup.isTagName name then
      ∃ h kind branches ahead, l.claim fresh name key = .ok (.node (h, kind) branches, ahead)
    else l.claim fresh name key = .error (.invalidName name) := by
  rw [Level.claim, hcheck]
  cases hfound : l.ahead.find? (keyed name key) with
  | some found =>
    obtain ⟨⟨h, kind⟩, branches⟩ := found
    obtain ⟨old, rfl⟩ := keyed_iff.mp (List.find?_some hfound)
    have hname : Markup.isTagName name = true :=
      (hnamed _ (List.mem_of_find?_eq_some hfound)).1
    rw [if_pos hname]
    exact ⟨h, _, branches, _, rfl⟩
  | none =>
    cases Markup.isTagName name with
    | true => exact ⟨fresh, _, [], _, rfl⟩
    | false => rfl

theorem agrees_openElement (h : Mirrors 0 z (here :: outer) (false :: flags))
    (hnamed : ∀ l ∈ z.head?, ∀ r ∈ l.ahead, r.label.2.Named) (pkey : Patch.Key) :
    Agrees (openElement fresh name pkey.value attributes z)
      (judge (.openTag name pkey attributes) here outer) (false :: false :: flags) := by
  cases h with
  | @cons _ l _ _ rest _ _ hshows hrest =>
    have hcheck := hshows.check none
    rw [judge, openElement]
    cases hoffence : here.offence? none with
    | some offence =>
      rw [hoffence] at hcheck
      obtain ⟨e, hcheck, he⟩ := hcheck
      simp only [Level.claim, hcheck]
      exact ⟨e, rfl, he⟩
    | none =>
      rw [hoffence] at hcheck
      have hclaim := claim_of_check fresh name pkey.value hcheck (hnamed l rfl)
      split at hclaim
      · next hname =>
        obtain ⟨element, old, branches, ahead, hclaim⟩ := hclaim
        simp only [hclaim, hname, Bool.not_true, Bool.false_eq_true, if_false]
        generalize attributes.find? _ = invalid
        cases invalid with
        | some a => exact ⟨_, rfl, rfl⟩
        | none =>
          refine ⟨rfl, .cons ⟨rfl, rfl, fun _ => by simp [Opened.empty]⟩ (.cons ?_ hrest)⟩
          exact ⟨hshows.text?, hshows.name?, fun _ => by simp [Opened.fill]⟩
      · next hname =>
        simp only [hclaim, hname]
        exact ⟨_, rfl, rfl⟩

theorem agrees_closeElement (h : Mirrors 0 z (here :: outer) (skipped :: flags)) :
    Agrees (closeElement name z) (judge (.closeTag name : Patch.Instruction Patch.Key) here outer)
      flags := by
  cases h with
  | @cons _ l _ _ rest _ _ hshows hrest =>
    cases hrest with
    | nil => exact ⟨_, rfl, rfl⟩
    | @cons _ m next skipped' rest cs flags hnext hrest =>
      have hleft : Mirrors 0 ({ m with passed := m.passed ++ [l.closed] } :: rest) (next :: cs)
          (skipped' :: flags) := by
        refine .cons ⟨hnext.text?, hnext.name?, ?_⟩ hrest
        simpa using hnext.cursor_eq_zero_iff
      rw [judge, closeElement, hshows.name?]
      cases here.name? with
      | none => exact ⟨rfl, hleft⟩
      | some expected =>
        by_cases hname : expected = name
        · simp only [hname, if_true]
          exact ⟨rfl, hleft⟩
        · simp only [hname, if_false]
          exact ⟨_, rfl, rfl⟩

theorem agrees_putText (h : Mirrors 0 z (here :: outer) (false :: flags)) :
    Agrees (putText fresh content z)
      (judge (.text content : Patch.Instruction Patch.Key) here outer) (false :: flags) := by
  cases h with
  | @cons _ l _ _ rest _ _ hshows hrest =>
    have hcheck := hshows.check (some content)
    rw [judge, putText]
    cases hoffence : here.offence? (some content) with
    | some offence =>
      rw [hoffence] at hcheck
      obtain ⟨e, hcheck, he⟩ := hcheck
      simp only [hcheck]
      exact ⟨e, rfl, he⟩
    | none =>
      rw [hoffence] at hcheck
      simp only [hcheck]
      split
      all_goals
        refine ⟨rfl, .cons ⟨hshows.text?, hshows.name?, fun _ => ?_⟩ hrest⟩
        simp [Opened.fill]

theorem agrees_skip (h : Mirrors 0 z (here :: outer) (skipped :: flags)) :
    Agrees (skip z) (judge (.skip : Patch.Instruction Patch.Key) here outer) (true :: flags) := by
  cases h with
  | cons hshows hrest => exact ⟨rfl, .cons ⟨hshows.text?, hshows.name?, nofun⟩ hrest⟩

/-- One instruction that is not behind a skip, or puts nothing there. -/
theorem exists_agrees (fresh : Handle) {i : Patch.Instruction Patch.Key}
    {program : List (Patch.Instruction Patch.Key)} (h : Mirrors 0 z (here :: outer) flags)
    (hskips : skipsLastFrom flags (i :: program) = true)
    (hnamed : ∀ l ∈ z.head?, ∀ r ∈ l.ahead, r.label.2.Named) :
    ∃ flags', skipsLastFrom flags' program = true ∧
      Agrees (perform fresh i z) (judge i here outer) flags' := by
  cases flags with
  | nil => cases h
  | cons skipped flags =>
    cases i with
    | openTag name key attributes =>
      rw [skipsLastFrom, Bool.and_eq_true, Bool.not_eq_true'] at hskips
      obtain ⟨rfl, hrest⟩ := hskips
      exact ⟨_, hrest, agrees_openElement h hnamed key⟩
    | closeTag name => exact ⟨_, hskips, agrees_closeElement h⟩
    | text content =>
      rw [skipsLastFrom, Bool.and_eq_true, Bool.not_eq_true'] at hskips
      obtain ⟨rfl, hrest⟩ := hskips
      exact ⟨_, hrest, agrees_putText h⟩
    | skip => exact ⟨_, hskips, agrees_skip h⟩

/-- At the end of a program an open element is an offence. -/
theorem complete_offence (h : Mirrors 0 z (here :: outer) flags) :
    ((complete z).failure.map fun e => (0, e.offence?)) =
      (firstOffence ([] : List (Patch.Instruction Patch.Key)) here outer).map
        fun (n, offence) => (n, some offence) := by
  cases h with
  | @cons _ l _ _ rest _ _ hshows hrest =>
    cases hrest with
    | nil => rfl
    | cons hnext hrest =>
      rw [complete, hshows.name?]
      rfl

end Zipper

namespace Tree

open Patch (Nested performed)

variable {t : Tree} {target : Handle} {above : Option Handle} {z : List Level} {here : Opened}
  {outer : List Opened} {flags : List Bool}

theorem Tracks.named_ahead (hz : Tracks t above z) (hs : Serializable t) :
    ∀ l ∈ z.head?, ∀ r ∈ l.ahead, r.label.2.Named := by
  cases z with
  | nil => nofun
  | cons l outer =>
    rintro _ ⟨⟩ ⟨⟨h, kind⟩, branches⟩ hr
    exact hs.named (hz.node?_of_mem_ahead hr)

/-- A replay from any point of a transaction on ends where the judge finds the first offence
in the rest of the program, and with this offence. -/
theorem Tracks.offence_eq (hz : Tracks t above z) (h : Reachable t)
    {program : List (Patch.Instruction Patch.Key)}
    (hm : Zipper.Mirrors 0 z (here :: outer) flags) (hskips : skipsLastFrom flags program = true) :
    (((Patch.replay program t : Outcome Error Tree).state.finish
        (Patch.replay program t : Outcome Error Tree).failure).failure.map
          fun e => (performed program t, e.offence?)) =
      (firstOffence program here outer).map fun (n, offence) => (n, some offence) := by
  induction program generalizing t z here outer flags with
  | nil =>
    rw [Patch.replay_nil, (hz.finish h.wellLinked none).1]
    exact Zipper.complete_offence hm
  | cons i program ih =>
    have hfollow := hz.perform h.wellLinked h.serializable i
    have hreach : Reachable (t.perform i).state := h.call (.perform i)
    obtain ⟨flags', hskips', hagrees⟩ :=
      Zipper.exists_agrees t.fresh hm hskips (hz.named_ahead h.serializable)
    generalize hperform : t.perform i = performed at hfollow hreach
    obtain ⟨failure, u⟩ := performed
    obtain ⟨hfailure, hz'⟩ := hfollow
    have hhost : (Patch.Host.perform i t : Outcome Error Tree) = ⟨failure, u⟩ := hperform
    simp only at hfailure hz' hreach
    simp only [Patch.replay, Patch.performed, firstOffence, hhost]
    cases hjudge : judge i here outer with
    | error offence =>
      rw [hjudge] at hagrees
      obtain ⟨e, he, hoffence⟩ := hagrees
      rw [he] at hfailure
      simp [hfailure, Tree.finish, hoffence]
    | ok next =>
      rw [hjudge] at hagrees
      obtain ⟨hnone, hm'⟩ := hagrees
      rw [hnone] at hfailure
      have hrest := congrArg (Option.map (Prod.map (· + 1) id))
        (ih hz' hreach hm' hskips')
      simpa [hfailure, Option.map_map, Function.comp_def] using hrest

/-- Outside of transactions, a replay into a container is refused where the judge finds the
first offence in its program, and with this offence. Of the tree only the name of the target
plays a part. There is no offence in exactly the programs that close what they open, use names
that are names, and give their containers and the target only what those take. -/
theorem Reachable.refusal_eq (h : Reachable t) (hidle : t.running = false)
    (htarget : ∃ n, t.node? target = some n ∧ n.kind.isContainer = true) {p : Patch}
    (hskips : p.skipsLast = true) :
    ((p.refusal target t).map fun (n, e) => (n, e.offence?)) =
        (p.verdict (t.elementName? target)).map (fun (n, offence) => (n, some offence)) ∧
      ((p.apply target t).failure = none ↔ ∃ given, Nested p.instructions given ∧
        (Opened.empty (t.elementName? target)).Takes given) := by
  obtain ⟨n, hn, hcontainer⟩ := htarget
  have hbegin := begin_eq_ok_iff.mpr ⟨hidle, ⟨n, hn, hcontainer⟩, rfl⟩
  have hz := tracks_begin h hbegin
  have hm : Zipper.Mirrors 0 [⟨target, t.kindOf target, [], t.region target⟩]
      [Opened.empty (t.elementName? target)] [false] := by
    refine .cons ⟨?_, ?_, fun _ => by simp [Opened.empty]⟩ .nil
    · rw [kindOf_of_node? hn]
      cases hkind : n.kind with
      | text content =>
        rw [hkind] at hcontainer
        cases hcontainer
      | root => rfl
      | element name key attributes => rfl
    · rw [kindOf_of_node? hn, elementName?, hn]
      rfl
  have hoffence := hz.offence_eq (h.begin hbegin) hm hskips
  have hrefusal : ((p.refusal target t).map fun (n, e) => (n, e.offence?)) =
      (p.verdict (t.elementName? target)).map (fun (n, offence) => (n, some offence)) := by
    have hhost : Patch.Host.begin target t =
        (⟨none, { t with frames := ⟨target, 0⟩ :: t.frames, running := true }⟩ :
          Outcome Error Tree) := hbegin
    rw [Patch.refusal, apply_of_begin hbegin, Option.map_map, hhost]
    exact hoffence
  refine ⟨hrefusal, ?_⟩
  have hnone := congrArg Option.isNone hrefusal
  rw [Option.isNone_map, Option.isNone_map, Patch.refusal, Option.isNone_map] at hnone
  rw [← Patch.verdict_eq_none_iff, ← Option.isNone_iff_eq_none, hnone, Option.isNone_iff_eq_none]

/-- Into a raw-text element with a text: a program that puts one text there and skips the
rest goes through, and one that opens an element behind its text is refused there, before its
name is looked at. -/
theorem refusal_eq_rawText :
    let t := Tree.new.run [.createElement "SCRIPT", .appendChild .root ⟨1, 0⟩, .createText "a()",
      .appendChild ⟨1, 0⟩ ⟨2, 0⟩]
    let p : Patch := ⟨[.text "b()", .openTag "B" (.explicit "k") [("c d", "")]]⟩
    ((p.refusal ⟨1, 0⟩ t).map fun (n, e) => (n, e.offence?)) = some (1, some .rawTextContent) ∧
      ((Patch.mk [.text "b()", .skip]).apply ⟨1, 0⟩ t).failure = none := by
  have htarget : ∃ n, (Tree.new.run [.createElement "SCRIPT", .appendChild .root ⟨1, 0⟩,
      .createText "a()", .appendChild ⟨1, 0⟩ ⟨2, 0⟩]).node? ⟨1, 0⟩ = some n ∧
      n.kind.isContainer = true :=
    ⟨⟨.element "script" none [], some .root, [⟨2, 0⟩]⟩, by decide, by decide⟩
  have ht := Reachable.new.run [.createElement "SCRIPT", .appendChild .root ⟨1, 0⟩,
    .createText "a()", .appendChild ⟨1, 0⟩ ⟨2, 0⟩]
  refine ⟨?_, ?_⟩
  · rw [(ht.refusal_eq (by decide) htarget (by decide)).1]
    decide
  · refine (ht.refusal_eq (by decide) htarget (by decide)).2.mpr ?_
    refine ⟨[some "b()"], .text _ (.skip .nil), ?_⟩
    intro name hname
    cases hname
    refine ⟨nofun, fun _ => .inr ⟨rfl, "b()", rfl, by decide⟩⟩

end Tree

end LiveMarkup.Live
