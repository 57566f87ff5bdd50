import LiveMarkup.Proofs.Live.Replay
import LiveMarkup.Proofs.Patch.Compile

/-!
# Accepted programs succeed

An accepted program goes through in every container that takes elements, whatever lies
ahead of the cursor. What is ahead decides which nodes are kept, but never whether an
instruction is refused.
-/

namespace LiveMarkup.Live

namespace Zipper

open Patch (Outcome Accepted)

variable {fresh : Handle} {name key content : String} {attributes : List (String × String)}
  {l m : Level} {outer z : List Level} {o : Outcome Error (List Level)}
  {i : Patch.Instruction Patch.Key} {p q : List (Patch.Instruction Patch.Key)}

theorem openElement_failure (hcheck : l.check none = .ok ()) (hname : Markup.isTagName name = true)
    (hattributes : ∀ a ∈ attributes, Markup.isAttributeName a.1 = true) :
    (openElement fresh name key attributes (l :: outer)).failure = none := by
  rw [openElement, Level.claim, hcheck, find?_invalidName_eq_none_iff.mpr hattributes]
  cases l.ahead.find? (keyed name key) with
  | some found =>
    obtain ⟨⟨h, kind⟩, branches⟩ := found
    rfl
  | none => simp [hname]

theorem closeElement_failure (hname : l.kind.name? = some name) :
    (closeElement name (l :: m :: outer)).failure = none := by
  simp [closeElement, hname]

theorem putText_failure (hcheck : l.check (some content) = .ok ()) :
    (putText fresh content (l :: outer)).failure = none := by
  rw [putText, hcheck]
  simp only
  split <;> rfl

/-- A run goes on behind an instruction that succeeds. -/
theorem Runs.of_failure (h : Runs (i :: p) z o)
    (hok : ∀ fresh, (perform fresh i z).failure = none) :
    ∃ fresh z', perform fresh i z = ⟨none, z'⟩ ∧ Runs p z' o := by
  cases h with
  | step fresh hperform hrest => exact ⟨fresh, _, hperform, hrest⟩
  | fail fresh hperform =>
    have hnone := hok fresh
    rw [hperform] at hnone
    cases hnone

theorem Runs.nil_eq (h : Runs [] z o) : o = ⟨none, z⟩ := by
  cases h
  rfl

/-- The container takes any child, at any place. -/
structure Plain (kind : Kind) : Prop where
  isContainer : kind.isContainer = true
  takes : kind.takes 0 none = true

theorem Plain.check (h : Plain l.kind) (child : Option String) : l.check child = .ok () := by
  simp [Level.check, h.isContainer, Kind.takes_of_takes_none h.takes]

theorem plain_element {key : Option String} (hvoid : Markup.isVoid name = false)
    (hraw : Markup.isRawText name = false) : Plain (.element name key attributes) :=
  ⟨by simp [Kind.isContainer, hvoid], by simp [Kind.takes, hraw]⟩

theorem Runs.opens {key : Patch.Key} (hplain : Plain l.kind)
    (hname : Markup.isTagName name = true)
    (hattributes : ∀ a ∈ attributes, Markup.isAttributeName a.1 = true)
    (h : Runs (.openTag name key attributes :: p) (l :: outer) o) :
    ∃ element branches ahead, Runs p (⟨element, .element name (some key.value) attributes, [],
      branches⟩ :: { l with ahead := ahead } :: outer) o := by
  obtain ⟨fresh, z', hperform, hrest⟩ := h.of_failure fun _ =>
    openElement_failure (hplain.check none) hname hattributes
  rw [perform] at hperform
  obtain ⟨l, outer, element, _, branches, ahead, heq, _, _, rfl⟩ := openElement_cases hperform
  cases heq
  exact ⟨element, branches, ahead, hrest⟩

theorem Runs.closes (hname : l.kind.name? = some name)
    (h : Runs (.closeTag name :: p) (l :: m :: outer) o) :
    Runs p ({ m with passed := m.passed ++ [l.closed] } :: outer) o := by
  obtain ⟨fresh, z', hperform, hrest⟩ := h.of_failure fun _ => closeElement_failure hname
  rw [perform] at hperform
  obtain ⟨l, m, outer, heq, _, rfl⟩ := closeElement_cases hperform
  cases heq
  exact hrest

theorem Runs.texts (hcheck : l.check (some content) = .ok ())
    (h : Runs (.text content :: p) (l :: outer) o) :
    ∃ passed ahead, Runs p ({ l with passed := passed, ahead := ahead } :: outer) o := by
  obtain ⟨fresh, z', hperform, hrest⟩ := h.of_failure fun _ => putText_failure hcheck
  rw [perform] at hperform
  obtain ⟨l, outer, text, ahead, heq, _, rfl⟩ := putText_cases hperform
  cases heq
  exact ⟨_, ahead, hrest⟩

theorem Runs.skips (h : Runs (.skip :: p) (l :: outer) o) :
    ∃ passed ahead, Runs p ({ l with passed := passed, ahead := ahead } :: outer) o := by
  obtain ⟨fresh, z', hperform, hrest⟩ := h.of_failure fun _ => rfl
  cases hperform
  exact ⟨_, _, hrest⟩

/-- The first part of a run, when it is an accepted program, comes back to its container. -/
theorem Runs.accepted (hp : Accepted p) (hplain : Plain l.kind)
    (h : Runs (p ++ q) (l :: outer) o) :
    ∃ passed ahead, Runs q ({ l with passed := passed, ahead := ahead } :: outer) o := by
  induction hp generalizing l outer q with
  | nil => exact ⟨l.passed, l.ahead, h⟩
  | text content _ ih =>
    obtain ⟨passed, ahead, hrest⟩ := h.texts (hplain.check _)
    exact ih (l := { l with passed := passed, ahead := ahead }) hplain hrest
  | element name key attributes hname hattributes hvoid hraw _ _ ihb ih =>
    rw [List.cons_append, List.append_assoc, List.cons_append] at h
    obtain ⟨element, branches, ahead, hbody⟩ := h.opens hplain hname hattributes
    obtain ⟨passed, left, hclose⟩ := ihb (plain_element hvoid hraw) hbody
    exact ih (l := { l with passed := _, ahead := ahead }) hplain (hclose.closes rfl)
  | hollow name key attributes hname hattributes hbody _ ih =>
    rw [List.cons_append, List.append_assoc, List.cons_append] at h
    obtain ⟨element, branches, ahead, hrest⟩ := h.opens hplain hname hattributes
    rcases hbody with rfl | rfl
    · exact ih (l := { l with passed := _, ahead := ahead }) hplain (hrest.closes rfl)
    · obtain ⟨passed, left, hclose⟩ := Runs.skips hrest
      exact ih (l := { l with passed := _, ahead := ahead }) hplain (hclose.closes rfl)
  | rawText name key attributes content hname hattributes hraw hends _ ih =>
    obtain ⟨element, branches, ahead, hrest⟩ := h.opens hplain hname hattributes
    have hcheck : Level.check ⟨element, .element name (some key.value) attributes, [], branches⟩
        (some content) = .ok () := by
      simp [Level.check, Kind.isContainer, Kind.takes, hends,
        Markup.isVoid_eq_false_of_isRawText hraw]
    obtain ⟨passed, left, hclose⟩ := hrest.texts hcheck
    exact ih (l := { l with passed := _, ahead := ahead }) hplain (hclose.closes rfl)

end Zipper

namespace Tree

variable {t : Tree} {target : Handle} {p : Patch}

theorem plain_kindOf (ht : WellLinked t) (htarget : target = .root ∨ ∃ name,
    t.elementName? target = some name ∧ Markup.isVoid name = false ∧
      Markup.isRawText name = false) :
    ∃ n, t.node? target = some n ∧ Zipper.Plain n.kind := by
  rcases htarget with rfl | ⟨name, hname, hvoid, hraw⟩
  · obtain ⟨children, hroot⟩ := ht.root
    exact ⟨_, hroot, rfl, rfl⟩
  · obtain ⟨n, hn, hkind⟩ := Option.bind_eq_some_iff.mp hname
    refine ⟨n, hn, ?_⟩
    cases hk : n.kind with
    | element name' key attributes =>
      rw [hk] at hkind
      cases hkind
      exact Zipper.plain_element hvoid hraw
    | root => simp [hk, Kind.name?] at hkind
    | text content => simp [hk, Kind.name?] at hkind

/-- An accepted program is replayed to its end, whatever the target holds. -/
theorem failure_apply_of_accepted (h : Reachable t) (hidle : t.running = false)
    (htarget : ∃ n, t.node? target = some n ∧ Zipper.Plain n.kind)
    (hp : Patch.Accepted p.instructions) : (p.apply target t).failure = none := by
  obtain ⟨n, hn, hplain⟩ := htarget
  have hkind := kindOf_of_node? hn
  have hbegin := begin_eq_ok_iff.mpr ⟨hidle, ⟨n, hn, hplain.isContainer⟩, rfl⟩
  obtain ⟨o, hruns, hfailure, _⟩ := apply_runs h p hbegin
  rw [← List.append_nil p.instructions] at hruns
  obtain ⟨passed, ahead, hend⟩ := hruns.accepted hp (hkind ▸ hplain)
  rw [hfailure, hend.nil_eq]
  rfl

/-- Whatever is compiled from markup can be replayed into the root and into every element
that is neither void nor a raw-text element. -/
theorem Reachable.failure_apply_compile (h : Reachable t) (hidle : t.running = false)
    (htarget : target = .root ∨ ∃ name, t.elementName? target = some name ∧
      Markup.isVoid name = false ∧ Markup.isRawText name = false)
    {config : Patch.Config} {source : Patch.Source}
    (hcompile : Patch.compile config source = .ok p) : (p.apply target t).failure = none :=
  failure_apply_of_accepted h hidle (plain_kindOf h.wellLinked htarget)
    (Patch.accepted_compile hcompile)

/-- Broken markup, with an element that is never closed, an opaque one, a void one and a
raw text that the end of the input cuts off, replayed into an element that a failed
transaction has left behind. -/
theorem failure_apply_compile_broken :
    let config : Patch.Config := ⟨"id", .numbered "k", some "keep"⟩
    let source : Patch.Source := .markup "<P x=1><br a>one</q><i keep>two</i><script>a<b"
    let t := Tree.new.run [.begin .root, .perform (.openTag "p" (.explicit "k1") []),
      .perform (.text "old"), .perform (.closeTag "q"), .finish (some .noTransaction)]
    let p : Patch := ⟨[.openTag "p" (.generated "k1") [("x", "1")],
      .openTag "br" (.generated "k2") [("a", "")], .closeTag "br", .text "one",
      .openTag "i" (.generated "k3") [("keep", "")], .skip, .closeTag "i",
      .openTag "script" (.generated "k4") [], .text "a<b", .closeTag "script", .closeTag "p"]⟩
    Patch.compile config source = .ok p ∧ (p.apply ⟨1, 0⟩ t).failure = none := by
  refine ⟨by decide +kernel, @Reachable.failure_apply_compile _ _ _ (Reachable.new.run _) ?_ ?_
    ⟨"id", .numbered "k", some "keep"⟩
    (.markup "<P x=1><br a>one</q><i keep>two</i><script>a<b") ?_⟩
  · decide
  · exact .inr ⟨"p", by decide, by decide, by decide⟩
  · decide +kernel

end Tree

end LiveMarkup.Live
