import LiveMarkup.Proofs.Live.Success
import LiveMarkup.Proofs.Patch.TopOpens

/-!
# Which nodes a replay keeps

The opens of a container that ask for the same name and key take the old children with
that name and key in their old order, and make new nodes once these are used up
(`Ranked`). Opens for other names and keys, and texts, do not come in between: what an open
takes out of the trees ahead is the first that fits, and it leaves the order of the others.

A program runs through a container like a single large step, so the induction is on what
the program denotes. The trees that come out are described against the tree that the replay
started from (`Rebuilt`), and the arena that holds them at the end is read off last.
-/

namespace LiveMarkup.Live

open Patch (Denotes)
open Rose (place recordsAll)

/-- Of the old handles in order, the first are kept, and new ones come after them when all
are used up. The rest are the old ones that are left. -/
def Ranked (new : Handle → Prop) (old kept rest : List Handle) : Prop :=
  ∃ made, kept ++ rest = old ++ made ∧ (made = [] ∨ rest = []) ∧ ∀ c ∈ made, new c

namespace Ranked

variable {new : Handle → Prop} {old kept kept' rest rest' : List Handle} {c : Handle} {j : Nat}

theorem refl (old : List Handle) : Ranked new old [] old := ⟨[], by simp, .inl rfl, nofun⟩

theorem take (c : Handle) (rest : List Handle) : Ranked new (c :: rest) [c] rest :=
  ⟨[], by simp, .inl rfl, nofun⟩

theorem make (hc : new c) : Ranked new [] [c] [] := ⟨[c], rfl, .inr rfl, by simpa using hc⟩

theorem trans (h : Ranked new old kept rest) (h' : Ranked new rest kept' rest') :
    Ranked new old (kept ++ kept') rest' := by
  obtain ⟨made, heq, hmade, hnew⟩ := h
  obtain ⟨made', heq', hmade', hnew'⟩ := h'
  refine ⟨made ++ made', ?_, ?_, ?_⟩
  · rw [List.append_assoc, heq', ← List.append_assoc, heq, List.append_assoc]
  · rcases hmade' with rfl | hrest'
    · rcases hmade with rfl | rfl
      · exact .inl rfl
      · exact .inr (List.append_eq_nil_iff.mp heq').2
    · exact .inr hrest'
  · intro c hc
    exact (List.mem_append.mp hc).elim (hnew c) (hnew' c)

theorem getElem?_kept (h : Ranked new old kept rest) (hold : old[j]? = some c)
    (hj : j < kept.length) : kept[j]? = some c := by
  obtain ⟨made, heq, _⟩ := h
  rw [← List.getElem?_append_left hj, heq,
    List.getElem?_append_left (List.getElem?_eq_some_iff.mp hold).1, hold]

theorem new_of_length_le (h : Ranked new old kept rest) (hkept : kept[j]? = some c)
    (hj : old.length ≤ j) : new c := by
  obtain ⟨made, heq, _, hnew⟩ := h
  have hc : (kept ++ rest)[j]? = some c := by
    rw [List.getElem?_append_left (List.getElem?_eq_some_iff.mp hkept).1, hkept]
  rw [heq, List.getElem?_append_right hj] at hc
  exact hnew c (List.mem_of_getElem? hc)

/-- What is kept and not new stood among the old ones at the same place. -/
theorem exists_getElem?_old (h : Ranked new old kept rest) (hc : c ∈ kept) (hnew : ¬ new c) :
    ∃ j, old[j]? = some c ∧ j < kept.length := by
  obtain ⟨j, hj⟩ := List.mem_iff_getElem?.mp hc
  have hlt := (List.getElem?_eq_some_iff.mp hj).1
  refine ⟨j, ?_, hlt⟩
  have hold : j < old.length := by
    by_contra hle
    exact hnew (h.new_of_length_le hj (Nat.le_of_not_lt hle))
  rw [← hj, h.getElem?_kept (List.getElem?_eq_getElem hold) hlt, List.getElem?_eq_getElem hold]

end Ranked

/-- The elements with this name and key among some trees, in order. -/
def keyedPlaces (name key : String) (l : Branches) : List Handle :=
  (l.filter (keyed name key)).map place

theorem keyedPlaces_append (name key : String) (l m : Branches) :
    keyedPlaces name key (l ++ m) = keyedPlaces name key l ++ keyedPlaces name key m := by
  rw [keyedPlaces, List.filter_append, List.map_append, keyedPlaces, keyedPlaces]

theorem keyedPlaces_cons (name key : String) (r : Rose (Handle × Kind)) (l : Branches) :
    keyedPlaces name key (r :: l) = keyedPlaces name key [r] ++ keyedPlaces name key l :=
  keyedPlaces_append name key [r] l

/-- An element counts for its own name and key only. -/
theorem keyedPlaces_element (name key : String) (h : Handle) (name' key' : String)
    (attributes : List (String × String)) (below : Branches) :
    keyedPlaces name key [.node (h, .element name' (some key') attributes) below] =
      if name' = name ∧ key' = key then [h] else [] := by
  by_cases hsame : name' = name ∧ key' = key
  · simp [keyedPlaces, keyed, hsame]
  · rw [if_neg hsame]
    simpa [keyedPlaces, keyed] using hsame

theorem keyedPlaces_text (name key : String) (h : Handle) (content : String) (below : Branches) :
    keyedPlaces name key [.node (h, .text content) below] = [] := rfl

namespace Level

variable {l : Level} {fresh : Handle} {name key : String} {found : Rose (Handle × Kind)}
  {ahead : Branches}

/-- An open takes the first element that fits out of the trees ahead. Only when there is
none does it make one. -/
theorem claim_cases (hclaim : l.claim fresh name key = .ok (found, ahead)) :
    (∃ before after, l.ahead = before ++ found :: after ∧ ahead = before ++ after ∧
      keyed name key found = true ∧ keyedPlaces name key before = []) ∨
    (found = .node (fresh, .element name (some key) []) [] ∧ ahead = l.ahead ∧
      keyedPlaces name key l.ahead = []) := by
  rw [Level.claim] at hclaim
  split at hclaim
  · cases hclaim
  · split at hclaim
    · next hfound =>
      cases hclaim
      obtain ⟨hkeyed, before, after, hahead, hbefore⟩ := List.find?_eq_some_iff_append.mp hfound
      refine .inl ⟨before, after, hahead, ?_, hkeyed, ?_⟩
      · rw [hahead, List.eraseP_append_right _ fun r hr => by simpa using hbefore r hr,
          List.eraseP_cons_of_pos hkeyed]
      · rw [keyedPlaces, List.filter_eq_nil_iff.mpr fun r hr => by simpa using hbefore r hr,
          List.map_nil]
    · next hnone =>
      split at hclaim
      · cases hclaim
      · cases hclaim
        refine .inr ⟨rfl, rfl, ?_⟩
        rw [keyedPlaces, List.filter_eq_nil_iff.mpr (List.find?_eq_none.mp hnone), List.map_nil]

/-- So an open keeps to the order of the elements with its name and key, and leaves that of
all others. -/
theorem ranked_claim {new : Handle → Prop} {h : Handle} {kind : Kind}
    {attributes : List (String × String)} {branches below : Branches} (hfresh : new fresh)
    (hclaim : l.claim fresh name key = .ok (.node (h, kind) branches, ahead)) (n k : String) :
    Ranked new (keyedPlaces n k l.ahead)
      (keyedPlaces n k [.node (h, .element name (some key) attributes) below])
      (keyedPlaces n k ahead) := by
  rw [keyedPlaces_element]
  rcases claim_cases hclaim with ⟨before, after, hahead, rfl, hkeyed, hbefore⟩ | ⟨hmade, rfl, hnone⟩
  · obtain ⟨old, rfl⟩ := keyed_iff.mp hkeyed
    rw [hahead, keyedPlaces_append, keyedPlaces_cons, keyedPlaces_element, keyedPlaces_append]
    by_cases hsame : name = n ∧ key = k
    · obtain ⟨rfl, rfl⟩ := hsame
      simpa [hbefore] using Ranked.take h (keyedPlaces name key after)
    · rw [if_neg hsame, List.nil_append]
      exact .refl _
  · cases hmade
    by_cases hsame : name = n ∧ key = k
    · obtain ⟨rfl, rfl⟩ := hsame
      simpa [hnone] using Ranked.make hfresh
    · rw [if_neg hsame]
      exact .refl _

end Level

namespace Zipper

/-- A text takes over the text at the cursor or is new. -/
theorem putText_source {fresh : Handle} {content : String} {l : Level}
    {outer z' : List Level} (h : putText fresh content (l :: outer) = ⟨none, z'⟩) :
    ∃ text ahead, z' = { l with
        passed := l.passed ++ [.node (text, .text content) []], ahead := ahead } :: outer ∧
      ((∃ old below, l.ahead = .node (text, .text old) below :: ahead) ∨
        (text = fresh ∧ ahead = l.ahead)) := by
  obtain ⟨node, kind, passed, ahead⟩ := l
  simp only [putText] at h
  split at h
  · cases h
  · split at h
    · cases h
      exact ⟨_, _, rfl, .inl ⟨_, _, rfl⟩⟩
    · cases h
      exact ⟨_, _, rfl, .inr ⟨rfl, rfl⟩⟩

end Zipper

namespace Tree

variable {t : Tree} {h : Handle} {new : Handle → Prop} {kind : Kind} {branches made : Branches}
  {p : List (Patch.Instruction Patch.Key)}

/-- The children of a node that are elements with this name and key, in order. -/
def keyedChildren (t : Tree) (name key : String) (h : Handle) : List Handle :=
  (t.children h).filter (t.isKeyed name key)

/-- The name and the key of an element that has one. -/
def identity? (t : Tree) (h : Handle) : Option (String × String) :=
  (t.node? h).bind (·.kind.identity?)

theorem keyedChildren_of_held (hchildren : t.children h = branches.map place)
    (hheld : Held t.node? (recordsAll Node.mk (some h) branches)) (name key : String) :
    t.keyedChildren name key h = keyedPlaces name key branches := by
  rw [keyedChildren, hchildren, List.filter_map, keyedPlaces]
  congr 1
  refine List.filter_congr fun r hr => ?_
  obtain ⟨⟨c, kind⟩, below⟩ := r
  have hc := hheld _ (Rose.mem_recordsAll_of_mem hr)
  rw [Function.comp_apply, Rose.place_node, isKeyed, elementName?, key?, hc]
  cases kind <;> simp [Kind.name?, keyed]

theorem keyedChildren_of_not_isLive (hlive : t.isLive h = false) (name key : String) :
    t.keyedChildren name key h = [] := by
  rw [isLive, Option.isSome_eq_false_iff, Option.isNone_iff_eq_none] at hlive
  simp [keyedChildren, children, hlive]

/-- Trees that a program makes over a tree that was there: texts take over texts or are new,
and in each element the old children are kept by rank. -/
inductive Rebuilt (t : Tree) (new : Handle → Prop) :
    List (Patch.Instruction Patch.Key) → Branches → Prop
  | nil : Rebuilt t new [] []
  | text (content : String) {h : Handle} {program : List (Patch.Instruction Patch.Key)}
      {made : Branches} : (t.text? h).isSome = true ∨ new h → Rebuilt t new program made →
      Rebuilt t new (.text content :: program) (.node (h, .text content) [] :: made)
  | element (name : String) (key : Patch.Key) (attributes : List (String × String)) {h : Handle}
      {body program : List (Patch.Instruction Patch.Key)} {below made : Branches} :
      (∀ n k, ∃ rest, Ranked new (t.keyedChildren n k h) (keyedPlaces n k below) rest) →
      Rebuilt t new body below → Rebuilt t new program made →
      Rebuilt t new (.openTag name key attributes :: (body ++ .closeTag name :: program))
        (.node (h, .element name (some key.value) attributes) below :: made)

theorem Rebuilt.denotes (h : Rebuilt t new p made) : Denotes p (Rose.mapAll Prod.snd made) := by
  induction h with
  | nil => exact .nil
  | text content _ _ ih => exact .text content ih
  | element name key attributes _ _ _ ihb ih => exact .element name key attributes ihb ih

/-- The trees that an open finds are held, and a new node has none. -/
theorem keyedChildren_claim {l : Level} {fresh : Handle} {name key : String} {ahead : Branches}
    (hheld : Held t.node? (recordsAll Node.mk (some l.node) l.ahead))
    (hlive : t.isLive fresh = false)
    (hclaim : l.claim fresh name key = .ok (.node (h, kind) branches, ahead)) :
    Held t.node? (recordsAll Node.mk (some h) branches) ∧
      Held t.node? (recordsAll Node.mk (some l.node) ahead) ∧
      ∀ n k, t.keyedChildren n k h = keyedPlaces n k branches := by
  rcases Level.claim_cases hclaim with ⟨before, after, hahead, rfl, _⟩ | ⟨hmade, rfl, _⟩
  · simp only [hahead, Rose.recordsAll_append, Rose.recordsAll_node] at hheld
    have hbelow : Held t.node? (recordsAll Node.mk (some h) branches) :=
      hheld.subset fun e he => by simp [he]
    refine ⟨hbelow, ?_, fun n k => ?_⟩
    · rw [Rose.recordsAll_append]
      refine hheld.subset fun e he => ?_
      rcases List.mem_append.mp he with he | he
      · simp [he]
      · simp [he]
    · have hnode := hheld _ (List.mem_append_right _ List.mem_cons_self)
      exact keyedChildren_of_held (children_of_node? hnode) hbelow n k
  · cases hmade
    exact ⟨.nil, hheld, fun n k => keyedChildren_of_not_isLive hlive n k⟩

/-- A program runs through a container and rebuilds it by rank. -/
theorem rebuilt_of_makes (hnew : ∀ x, new x → t.isLive x = false) {forest : List (Rose Kind)}
    (hp : Denotes p forest) {l : Level} {outer z : List Level}
    (hrun : Zipper.Makes new p (l :: outer) z)
    (hheld : Held t.node? (recordsAll Node.mk (some l.node) l.ahead)) :
    ∃ made ahead, z = { l with passed := l.passed ++ made, ahead := ahead } :: outer ∧
      Held t.node? (recordsAll Node.mk (some l.node) ahead) ∧ Rebuilt t new p made ∧
      ∀ n k, Ranked new (keyedPlaces n k l.ahead) (keyedPlaces n k made)
        (keyedPlaces n k ahead) := by
  induction hp generalizing l outer z with
  | nil =>
    cases hrun
    exact ⟨[], l.ahead, by simp, hheld, .nil, fun n k => .refl _⟩
  | text content _ ih =>
    cases hrun with
    | step fresh hfresh hperform hrest =>
      obtain ⟨text, ahead, rfl, hsource⟩ := Zipper.putText_source hperform
      have hahead : Held t.node? (recordsAll Node.mk (some l.node) ahead) ∧
          ((t.text? text).isSome = true ∨ new text) ∧
          ∀ n k, keyedPlaces n k l.ahead = keyedPlaces n k ahead := by
        rcases hsource with ⟨old, below, hahead⟩ | ⟨rfl, rfl⟩
        · rw [hahead, Rose.recordsAll_node] at hheld
          refine ⟨hheld.subset fun e he => by simp [he], .inl ?_, fun n k => ?_⟩
          · rw [text?_of_node? (hheld _ List.mem_cons_self)]
            rfl
          · rw [hahead, keyedPlaces_cons, keyedPlaces_text, List.nil_append]
        · exact ⟨hheld, .inr hfresh, fun _ _ => rfl⟩
      obtain ⟨hheld', htext, hsame⟩ := hahead
      obtain ⟨made, left, rfl, hleft, hmade, hranked⟩ := ih hrest hheld'
      refine ⟨.node (text, .text content) [] :: made, left, by simp, hleft,
        .text content htext hmade, fun n k => ?_⟩
      rw [keyedPlaces_cons, keyedPlaces_text, List.nil_append, hsame]
      exact hranked n k
  | element name key attributes _ _ ihb ih =>
    cases hrun with
    | step fresh hfresh hperform hrest =>
      rw [Zipper.perform] at hperform
      obtain ⟨_, _, element, old, branches, ahead, hlevels, hclaim, _, rfl⟩ :=
        Zipper.openElement_cases hperform
      cases hlevels
      obtain ⟨hbelow, hahead, hchildren⟩ := keyedChildren_claim hheld (hnew _ hfresh) hclaim
      obtain ⟨z₁, hbody, hrest⟩ := hrest.of_append
      obtain ⟨below, dropped, rfl, _, hinner, hrank⟩ := ihb hbody hbelow
      cases hrest with
      | step _ _ hclose hrest =>
        rw [Zipper.perform] at hclose
        obtain ⟨_, _, _, hlevels, _, rfl⟩ := Zipper.closeElement_cases hclose
        cases hlevels
        obtain ⟨made, left, rfl, hleft, hmade, hranked⟩ := ih hrest hahead
        refine ⟨.node (element, .element name (some key.value) attributes) below :: made, left,
          by simp [Level.closed], hleft, .element name key attributes
            (fun n k => ⟨keyedPlaces n k dropped, ?_⟩) hinner hmade, fun n k => ?_⟩
        · rw [hchildren]
          exact hrank n k
        · rw [keyedPlaces_cons]
          exact (Level.ranked_claim hfresh hclaim n k).trans (hranked n k)

end Tree

end LiveMarkup.Live
