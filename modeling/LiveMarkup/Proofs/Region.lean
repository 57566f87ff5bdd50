import LiveMarkup.Proofs.Ancestry

/-!
# Regions of an arena

A region is a part of an arena written down as trees: each place with what is stored there.
What the trees say about the arena is a list of records, one for each place, with the
parent and the children that the shape of the trees gives it (`Rose.records`). An arena
holds a region when each record is found in it.

Distinct places make an arena easy to change: a change of one place leaves all records but
one, so whether the changed arena holds the changed region is a question about lists.

A region that an arena holds is also what unfolding the arena gives (`Reads.map_unfold`).
-/

namespace LiveMarkup

namespace Rose

variable {η κ ν : Type} (mk : κ → Option η → List η → ν)

/-- The place at the top of a tree. -/
def place (r : Rose (η × κ)) : η := r.label.1

@[simp] theorem place_node (a : η) (kind : κ) (branches : List (Rose (η × κ))) :
    (Rose.node (a, kind) branches).place = a := rfl

/-- The places of some trees, in document order. -/
def places (l : List (Rose (η × κ))) : List η := (preorderAll l).map Prod.fst

mutual

/-- The records of a tree below the given parent. -/
def records (parent : Option η) : Rose (η × κ) → List (η × ν)
  | .node (a, kind) branches =>
    (a, mk kind parent (branches.map place)) :: recordsAll (some a) branches

/-- The records of some trees below the same parent. -/
def recordsAll (parent : Option η) : List (Rose (η × κ)) → List (η × ν)
  | [] => []
  | r :: rest => records parent r ++ recordsAll parent rest

end

variable {mk}

theorem places_cons (r : Rose (η × κ)) (l : List (Rose (η × κ))) :
    places (r :: l) = (preorder r).map Prod.fst ++ places l := by
  rw [places, preorderAll, List.map_append, places]

@[simp] theorem places_nil : places ([] : List (Rose (η × κ))) = [] := rfl

@[simp] theorem places_append (l m : List (Rose (η × κ))) :
    places (l ++ m) = places l ++ places m := by
  rw [places, preorderAll_append, List.map_append, places, places]

@[simp] theorem places_node (a : η) (kind : κ) (branches l : List (Rose (η × κ))) :
    places (.node (a, kind) branches :: l) = a :: (places branches ++ places l) := by
  rw [places_cons, preorder, List.map_cons, List.cons_append]
  rfl

theorem length_places_cons (r : Rose (η × κ)) (l : List (Rose (η × κ))) :
    (places (r :: l)).length = (places [r]).length + (places l).length := by
  rw [← List.singleton_append, places_append, List.length_append]

theorem length_places_node (a : η) (kind : κ) (branches : List (Rose (η × κ))) :
    (places [.node (a, kind) branches]).length = (places branches).length + 1 := by
  rw [places_node, places_nil, List.append_nil, List.length_cons]

@[simp] theorem recordsAll_append (parent : Option η) (l m : List (Rose (η × κ))) :
    recordsAll mk parent (l ++ m) = recordsAll mk parent l ++ recordsAll mk parent m := by
  induction l with
  | nil => rfl
  | cons r rest ih => rw [List.cons_append, recordsAll, ih, recordsAll, List.append_assoc]

@[simp] theorem recordsAll_nil (parent : Option η) :
    recordsAll mk parent ([] : List (Rose (η × κ))) = [] := rfl

@[simp] theorem recordsAll_node (parent : Option η) (a : η) (kind : κ)
    (branches l : List (Rose (η × κ))) :
    recordsAll mk parent (.node (a, kind) branches :: l) =
      (a, mk kind parent (branches.map place)) ::
        (recordsAll mk (some a) branches ++ recordsAll mk parent l) := by
  rw [recordsAll, records, List.cons_append]

mutual

theorem map_fst_records (parent : Option η) :
    ∀ r : Rose (η × κ), (records mk parent r).map Prod.fst = (preorder r).map Prod.fst
  | .node (a, kind) branches => by
    rw [records, List.map_cons, map_fst_recordsAll, preorder, List.map_cons, places]

/-- Each place has one record. -/
theorem map_fst_recordsAll (parent : Option η) :
    ∀ l : List (Rose (η × κ)), (recordsAll mk parent l).map Prod.fst = places l
  | [] => rfl
  | r :: rest => by
    rw [recordsAll, List.map_append, map_fst_records, map_fst_recordsAll, places_cons]

end

mutual

/-- A tree is known by its places and by what is stored at them. -/
theorem eq_of_places : ∀ r s : Rose (η × κ), (preorder r).map Prod.fst = (preorder s).map Prod.fst →
    r.map Prod.snd = s.map Prod.snd → r = s
  | .node (a, kind) branches, .node (b, kind') branches' => by
    intro hplaces hkinds
    rw [preorder, preorder, List.map_cons, List.map_cons, List.cons.injEq] at hplaces
    rw [map, map, node.injEq] at hkinds
    obtain rfl : a = b := hplaces.1
    obtain rfl : kind = kind' := hkinds.1
    rw [eq_of_placesAll branches branches' hplaces.2 hkinds.2]

theorem eq_of_placesAll : ∀ l m : List (Rose (η × κ)), places l = places m →
    mapAll Prod.snd l = mapAll Prod.snd m → l = m
  | [], [] => fun _ _ => rfl
  | [], s :: m => fun _ hkinds => nomatch hkinds
  | r :: l, [] => fun _ hkinds => nomatch hkinds
  | r :: l, s :: m => by
    intro hplaces hkinds
    rw [mapAll, mapAll, List.cons.injEq] at hkinds
    have hlength := congrArg (fun q => (preorder q).length) hkinds.1
    simp only [preorder_map, List.length_map] at hlength
    rw [places_cons, places_cons] at hplaces
    obtain ⟨hfirst, hrest⟩ := List.append_inj hplaces (by simpa using hlength)
    rw [eq_of_places r s hfirst hkinds.1, eq_of_placesAll l m hrest hkinds.2]

end

theorem place_mem_places {r : Rose (η × κ)} {l : List (Rose (η × κ))} (hr : r ∈ l) :
    r.place ∈ places l := by
  induction l with
  | nil => cases hr
  | cons s rest ih =>
    obtain ⟨⟨a, kind⟩, branches⟩ := s
    rw [places_node]
    rcases List.mem_cons.mp hr with rfl | hr
    · exact List.mem_cons_self
    · exact List.mem_cons_of_mem _ (List.mem_append_right _ (ih hr))

/-- The record of a tree that stands at the top. -/
theorem mem_recordsAll_of_mem {parent : Option η} {a : η} {kind : κ}
    {branches : List (Rose (η × κ))} {l : List (Rose (η × κ))}
    (hr : .node (a, kind) branches ∈ l) :
    (a, mk kind parent (branches.map place)) ∈ recordsAll mk parent l := by
  obtain ⟨before, after, rfl⟩ := List.append_of_mem hr
  simp

/-- The records of a tree are among those of a list that it is in. -/
theorem records_subset_recordsAll {parent : Option η} {r : Rose (η × κ)}
    {l : List (Rose (η × κ))} (hr : r ∈ l) :
    ∀ e ∈ records mk parent r, e ∈ recordsAll mk parent l := by
  intro e he
  obtain ⟨before, after, rfl⟩ := List.append_of_mem hr
  rw [recordsAll_append, recordsAll]
  exact List.mem_append_right _ (List.mem_append_left _ he)

mutual

/-- The places below a place of a tree are in the tree as well. -/
theorem mem_preorder_of_record {parent : Option η} {e : η × ν} {b : η}
    (below : ν → List η) (hmk : ∀ kind p c, below (mk kind p c) = c) :
    ∀ r : Rose (η × κ), e ∈ records mk parent r → b ∈ below e.2 →
      b ∈ (preorder r).map Prod.fst
  | .node (a, kind) branches => by
    intro he hb
    rw [records, List.mem_cons] at he
    rw [preorder, List.map_cons]
    refine List.mem_cons_of_mem _ ?_
    rcases he with rfl | he
    · rw [hmk] at hb
      obtain ⟨r, hr, rfl⟩ := List.mem_map.mp hb
      exact place_mem_places hr
    · exact mem_places_of_record below hmk branches he hb

theorem mem_places_of_record {parent : Option η} {e : η × ν} {b : η}
    (below : ν → List η) (hmk : ∀ kind p c, below (mk kind p c) = c) :
    ∀ l : List (Rose (η × κ)), e ∈ recordsAll mk parent l → b ∈ below e.2 → b ∈ places l
  | [] => by
    intro he
    cases he
  | r :: rest => by
    intro he hb
    rw [recordsAll, List.mem_append] at he
    rw [places_cons, List.mem_append]
    rcases he with he | he
    · exact .inl (mem_preorder_of_record below hmk r he hb)
    · exact .inr (mem_places_of_record below hmk rest he hb)

end

end Rose

/-- Each record is found in the arena. -/
def Held {η ν : Type} (look : η → Option ν) (records : List (η × ν)) : Prop :=
  ∀ e ∈ records, look e.1 = some e.2

namespace Held

variable {η ν : Type} {look look' : η → Option ν} {records rest : List (η × ν)}

theorem nil : Held look [] := fun _ he => absurd he List.not_mem_nil

theorem append (h : Held look records) (h' : Held look rest) : Held look (records ++ rest) := by
  intro e he
  rcases List.mem_append.mp he with he | he
  · exact h e he
  · exact h' e he

theorem cons {a : η} {n : ν} (ha : look a = some n) (h : Held look rest) :
    Held look ((a, n) :: rest) := by
  intro e he
  rcases List.mem_cons.mp he with rfl | he
  · exact ha
  · exact h e he

theorem subset (h : Held look records) (hsub : ∀ e ∈ rest, e ∈ records) : Held look rest :=
  fun e he => h e (hsub e he)

theorem tail {e : η × ν} (h : Held look (e :: rest)) : Held look rest :=
  h.subset fun _ he => List.mem_cons_of_mem _ he

theorem left (h : Held look (records ++ rest)) : Held look records :=
  h.subset fun _ he => List.mem_append_left _ he

theorem right (h : Held look (records ++ rest)) : Held look rest :=
  h.subset fun _ he => List.mem_append_right _ he

/-- A change elsewhere leaves what is held. -/
theorem frame (h : Held look records)
    (hsame : ∀ x ∈ records.map Prod.fst, look' x = look x) : Held look' records := by
  intro e he
  rw [hsame e.1 (List.mem_map_of_mem he)]
  exact h e he

section Places

open Rose (recordsAll places)

variable {κ : Type} {mk : κ → Option η → List η → ν} {parent : η → Option η} {x : η}

mutual

/-- The places of a held tree lie within its top. -/
theorem within_of_mem_preorder
    (hparent : ∀ {c kind p l}, look c = some (mk kind p l) → parent c = p) {above : Option η} :
    ∀ r : Rose (η × κ), Held look (Rose.records mk above r) →
      x ∈ (Rose.preorder r).map Prod.fst → Within parent x r.place
  | .node (a, kind) branches => by
    intro hheld hx
    rw [Rose.preorder, List.map_cons, List.mem_cons] at hx
    rcases hx with rfl | hx
    · exact .refl
    · exact (under_of_mem_places hparent branches hheld.tail hx).to_reflTransGen

/-- The places of held trees lie below the place that the trees hang on. -/
theorem under_of_mem_places
    (hparent : ∀ {c kind p l}, look c = some (mk kind p l) → parent c = p) {a : η} :
    ∀ l : List (Rose (η × κ)), Held look (recordsAll mk (some a) l) → x ∈ places l →
      Under parent x a
  | [] => by
    intro _ hx
    cases hx
  | r :: rest => by
    intro hheld hx
    rw [recordsAll] at hheld
    rw [Rose.places_cons, List.mem_append] at hx
    have hfirst := hheld.left
    rcases hx with hx | hx
    · refine .tail' (within_of_mem_preorder hparent r hfirst hx) ?_
      obtain ⟨⟨b, kind⟩, branches⟩ := r
      exact hparent (hfirst _ List.mem_cons_self)
    · exact under_of_mem_places hparent rest hheld.right hx

end

end Places

end Held

/-- An arena whose look-ups tell of a place what is below it and of what kind it is. -/
structure Reads {η κ ν : Type} (mk : κ → Option η → List η → ν) (look : η → Option ν)
    (below : η → List η) (kindOf : η → κ) : Prop where
  below : ∀ {a kind parent l}, look a = some (mk kind parent l) → below a = l
  kindOf : ∀ {a kind parent l}, look a = some (mk kind parent l) → kindOf a = kind

namespace Reads

variable {η κ ν : Type} {mk : κ → Option η → List η → ν} {look : η → Option ν}
  {below : η → List η} {kindOf : η → κ}

open Rose (place recordsAll)

/-- A held tree is settled at every depth that its number of nodes allows. -/
theorem settled (hreads : Reads mk look below kindOf) {depth : Nat} {parent : Option η}
    {r : Rose (η × κ)} (hheld : Held look (Rose.records mk parent r))
    (hsize : (Rose.preorder r).length ≤ depth + 1) : Rose.Settled below depth r.place := by
  induction depth generalizing parent r with
  | zero =>
    obtain ⟨⟨a, kind⟩, branches⟩ := r
    rw [Rose.place_node, Rose.Settled, hreads.below (hheld _ List.mem_cons_self)]
    cases branches with
    | nil => rfl
    | cons s rest =>
      obtain ⟨b, below⟩ := s
      simp [Rose.preorder, Rose.preorderAll] at hsize
  | succ depth ih =>
    obtain ⟨⟨a, kind⟩, branches⟩ := r
    rw [Rose.place_node, Rose.Settled, hreads.below (hheld _ List.mem_cons_self)]
    intro b hb
    obtain ⟨s, hs, rfl⟩ := List.mem_map.mp hb
    refine @ih (some a) s (hheld.subset fun e he => ?_) ?_
    · exact List.mem_cons_of_mem _ (Rose.records_subset_recordsAll hs e he)
    · obtain ⟨before, after, rfl⟩ := List.append_of_mem hs
      simp only [Rose.preorder, Rose.preorderAll_append, Rose.preorderAll, List.length_cons,
        List.length_append] at hsize
      omega

mutual

/-- What an arena holds is what unfolding it gives, and what it tells of the places. -/
theorem pair_unfold (hreads : Reads mk look below kindOf) {depth : Nat}
    {parent : Option η} : ∀ r : Rose (η × κ), Held look (Rose.records mk parent r) →
      Rose.Settled below depth r.place →
      (Rose.unfold below depth r.place).map (fun x => (x, kindOf x)) = r
  | .node (a, kind) branches => by
    intro hheld hsettled
    have ha := hheld _ List.mem_cons_self
    have hbelow := hreads.below ha
    rw [Rose.place_node] at hsettled ⊢
    rw [Rose.unfold_eq hsettled, hbelow, Rose.map, hreads.kindOf ha,
      hreads.pairAll_unfold branches hheld.tail]
    exact fun b hb => hsettled.of_mem (hbelow ▸ hb)

theorem pairAll_unfold (hreads : Reads mk look below kindOf) {depth : Nat}
    {parent : Option η} : ∀ l : List (Rose (η × κ)), Held look (recordsAll mk parent l) →
      (∀ b ∈ l.map place, Rose.Settled below depth b) →
      Rose.mapAll (fun x => (x, kindOf x)) ((l.map place).map (Rose.unfold below depth)) = l
  | [] => fun _ _ => rfl
  | r :: rest => by
    intro hheld hsettled
    rw [recordsAll] at hheld
    rw [List.map_cons, List.map_cons, Rose.mapAll,
      hreads.pair_unfold r hheld.left (hsettled _ List.mem_cons_self),
      hreads.pairAll_unfold rest hheld.right fun b hb => hsettled b (List.mem_cons_of_mem _ hb)]

end

theorem mapAll_unfold (hreads : Reads mk look below kindOf) {depth : Nat} {parent : Option η}
    (l : List (Rose (η × κ))) (hheld : Held look (recordsAll mk parent l))
    (hsettled : ∀ b ∈ l.map place, Rose.Settled below depth b) :
    Rose.mapAll kindOf ((l.map place).map (Rose.unfold below depth)) = Rose.mapAll Prod.snd l := by
  have hpairs := congrArg (Rose.mapAll Prod.snd) (hreads.pairAll_unfold l hheld hsettled)
  rwa [Rose.mapAll_mapAll] at hpairs

end Reads

/-- The records are found in the arena, and no place has two of them. -/
structure Stored {η ν : Type} (look : η → Option ν) (records : List (η × ν)) : Prop where
  held : Held look records
  nodup : (records.map Prod.fst).Nodup

namespace Stored

variable {η ν : Type} {look look' : η → Option ν} {records rest : List (η × ν)}

theorem perm (h : Stored look records) (hperm : records.Perm rest) : Stored look rest where
  held := h.held.subset fun _ he => hperm.mem_iff.mpr he
  nodup := (hperm.map Prod.fst).nodup_iff.mp h.nodup

/-- A change of one place changes its record. -/
theorem update {a : η} {n n' : ν} (h : Stored look ((a, n) :: rest)) (ha : look' a = some n')
    (hother : ∀ x, x ≠ a → look' x = look x) : Stored look' ((a, n') :: rest) := by
  have hnodup := List.nodup_cons.mp h.nodup
  refine ⟨.cons ha ?_, h.nodup⟩
  refine h.held.tail.frame fun x hx => ?_
  exact hother x fun hxa => hnodup.1 (hxa ▸ hx)

/-- A place that held nothing has no record yet. -/
theorem insert {a : η} {n : ν} (h : Stored look rest) (hnone : look a = none)
    (ha : look' a = some n) (hother : ∀ x, x ≠ a → look' x = look x) :
    Stored look' ((a, n) :: rest) := by
  have hnew : a ∉ rest.map Prod.fst := by
    intro hmem
    obtain ⟨e, he, rfl⟩ := List.mem_map.mp hmem
    rw [h.held e he] at hnone
    cases hnone
  refine ⟨.cons ha (h.held.frame fun x hx => hother x fun hxa => hnew (hxa ▸ hx)), ?_⟩
  exact List.nodup_cons.mpr ⟨hnew, h.nodup⟩

theorem look_eq {a : η} {n : ν} (h : Stored look records) (hmem : (a, n) ∈ records) :
    look a = some n := h.held _ hmem

end Stored

namespace Hierarchy

variable {η κ ν : Type} {mk : κ → Option η → List η → ν} {look : η → Option ν}
  {parent : η → Option η} {below : η → List η} {kindOf : η → κ} {present : η → Prop}
  {depth size : Nat} {a : η}

open Rose (place places recordsAll)

private theorem map_place_unfold (below : η → List η) (kindOf : η → κ) (depth : Nat)
    (l : List η) :
    (Rose.mapAll (fun x => (x, kindOf x)) (l.map (Rose.unfold below depth))).map place = l := by
  rw [Rose.mapAll_eq_map, List.map_map, List.map_map]
  refine (List.map_congr_left fun h _ => ?_).trans (List.map_id l)
  simp [place]

/-- An arena holds what unfolding it gives. -/
private theorem held_unfold (H : Hierarchy parent below present size)
    (hlook : ∀ {a}, present a → look a = some (mk (kindOf a) (parent a) (below a)))
    (ha : present a) (hsettled : Rose.Settled below depth a) :
    Held look (Rose.records mk (parent a)
      ((Rose.unfold below depth a).map fun x => (x, kindOf x))) := by
  induction depth generalizing a with
  | zero =>
    rw [Rose.unfold, Rose.map, Rose.records]
    refine .cons ?_ .nil
    rw [hlook ha, show below a = [] from hsettled]
    rfl
  | succ depth ih =>
    rw [Rose.unfold, Rose.map, Rose.records, map_place_unfold]
    refine .cons (hlook ha) ?_
    have hall : ∀ l : List η, (∀ b ∈ l, b ∈ below a) → Held look (recordsAll mk (some a)
        (Rose.mapAll (fun x => (x, kindOf x)) (l.map (Rose.unfold below depth)))) := by
      intro l hl
      induction l with
      | nil => exact .nil
      | cons b l ihl =>
        have hb := hl b List.mem_cons_self
        have hparent := H.mem_below_iff.mp hb
        rw [List.map_cons, Rose.mapAll, recordsAll, ← hparent]
        refine (ih (H.present_of_parent hparent).2 (hsettled b hb)).append ?_
        rw [hparent]
        exact ihl fun c hc => hl c (List.mem_cons_of_mem _ hc)
    exact hall _ fun _ hb => hb

/-- An arena holds each place with the trees below it, and no place of them twice. -/
theorem stored_unfold (H : Hierarchy parent below present size)
    (hlook : ∀ {a}, present a → look a = some (mk (kindOf a) (parent a) (below a)))
    (ha : present a) :
    Stored look (Rose.records mk (parent a) (.node (a, kindOf a)
      (Rose.mapAll (fun x => (x, kindOf x)) ((below a).map (Rose.unfold below size))))) := by
  refine ⟨held_unfold H hlook ha (H.settled a).succ, ?_⟩
  have hnodup := H.nodup_preorder (size + 1) a
  rw [Rose.map_fst_records, Rose.preorder, Rose.preorderAll_mapAll, List.map_cons, List.map_map]
  simpa [Rose.unfold, Rose.preorder, Function.comp_def] using hnodup

end Hierarchy

end LiveMarkup
