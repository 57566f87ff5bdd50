import LiveMarkup.Proofs.Leveled
import LiveMarkup.Proofs.Markup.Fields
import LiveMarkup.Proofs.Patch.Compile

/-!
# Listings tell programs apart

A listing shows an instruction on each line, in front of it blanks for the depth, and from the line
without the blanks the instruction can be read off: the first word tells its kind, names end where a
character comes that is in no name, and texts are between quotes. So two programs have one listing
exactly if they agree in all that a listing shows. It does not show where a key comes from, or, if
it is masked, the values of the keys that the compiler chose.

That names are names is needed for this. It holds of every compiled program (`named_compile`).
Whether opens and closes are balanced makes no difference.
-/

namespace LiveMarkup.Patch

open Markup (enclosed fields isAttributeName isTagName)

variable {κ ι : Type}

/-- All names in an instruction are read back as they are. -/
def Instruction.Named : Instruction κ → Prop
  | .openTag name _ attributes =>
    isTagName name = true ∧ ∀ a ∈ attributes, isAttributeName a.1 = true
  | .closeTag name => isTagName name = true
  | _ => True

/-- All names in a program are read back as they are. -/
def Named (p : Patch) : Prop := ∀ i ∈ p.instructions, i.Named

/-- What is accepted has names that are read back. -/
theorem Accepted.named {p : List (Instruction κ)} (h : Accepted p) : ∀ i ∈ p, i.Named := by
  induction h with
  | nil => simp
  | text content _ ih => exact List.forall_mem_cons.mpr ⟨trivial, ih⟩
  | element name key attributes hname hattributes _ _ _ _ ihbody ih =>
    rw [List.forall_mem_cons, List.forall_mem_append, List.forall_mem_cons]
    exact ⟨⟨hname, hattributes⟩, ihbody, hname, ih⟩
  | hollow name key attributes hname hattributes hbody _ ih =>
    rw [List.forall_mem_cons, List.forall_mem_append, List.forall_mem_cons]
    refine ⟨⟨hname, hattributes⟩, ?_, hname, ih⟩
    rcases hbody with rfl | rfl
    · simp
    · exact List.forall_mem_singleton.mpr trivial
  | rawText name key attributes content hname hattributes _ _ _ ih =>
    rw [List.forall_mem_cons, List.forall_mem_cons, List.forall_mem_cons]
    exact ⟨⟨hname, hattributes⟩, trivial, hname, ih⟩

theorem named_compile {config : Config} {source : Source} {p : Patch}
    (h : compile config source = .ok p) : p.Named :=
  (accepted_compile h).named

theorem toList_quoted (s : String) :
    (Text.quoted s).toList = enclosed Text.quotedChar s := by
  rw [Text.quoted, String.toList_ofList, enclosed, List.cons_append]

theorem quoted_inj {s s' : String} : Text.quoted s = Text.quoted s' ↔ s = s' := by
  refine ⟨fun h => ?_, congrArg Text.quoted⟩
  have hquoted := congrArg (fun s => String.toList s ++ []) h
  simp only [toList_quoted] at hquoted
  exact (Markup.enclosed_cancel Text.escapes_quotedChar hquoted).1

/-- A key that is shown is determined, and so is what stands behind it: it is a star or a quoted
value. -/
theorem display_cancel {keys : KeyDisplay} {key key' : Key} {rest rest' : List Char}
    (h : (key.display keys).toList ++ rest = (key'.display keys).toList ++ rest') :
    key.display keys = key'.display keys ∧ rest = rest' := by
  unfold Key.display at h ⊢
  split_ifs at h ⊢ with hstar hstar'
  · exact ⟨rfl, by simpa using h⟩
  · rw [toList_quoted] at h
    exact absurd (List.cons.inj h).1 (by decide)
  · rw [toList_quoted] at h
    exact absurd (List.cons.inj h).1 (by decide)
  · rw [toList_quoted, toList_quoted] at h
    obtain ⟨hvalue, hrest⟩ := Markup.enclosed_cancel Text.escapes_quotedChar h
    exact ⟨congrArg Text.quoted hvalue, hrest⟩

theorem display_full_inj {key key' : Key} :
    key.display .full = key'.display .full ↔ key.value = key'.value := by
  simp [Key.display, quoted_inj]

/-- A star stands for a chosen key only, since a given key is between quotes. -/
theorem display_masked_inj {key key' : Key} :
    key.display .masked = key'.display .masked ↔ key.masked = key'.masked := by
  have hstar : ∀ value, "*" ≠ Text.quoted value := by
    intro value heq
    have hlist := congrArg String.toList heq
    rw [toList_quoted] at hlist
    exact absurd (List.cons.inj hlist).1 (by decide)
  obtain ⟨value, origin⟩ := key
  obtain ⟨value', origin'⟩ := key'
  cases origin <;> cases origin' <;>
    simp [Key.display, Key.masked, Key.generated, quoted_inj, hstar, (hstar _).symm]

namespace Instruction

variable {i j : Instruction Key}

theorem toList_fields (attributes : List (String × String)) :
    (String.join (attributes.map fun (name, value) =>
      " " ++ name ++ "=" ++ Text.quoted value)).toList = fields Text.quotedChar attributes := by
  rw [String.toList_join, List.flatMap_map, fields]
  refine List.flatMap_congr fun a _ => ?_
  simp [String.toList_append, toList_quoted]

/-- The line of an instruction as characters. -/
theorem toList_line (keys : KeyDisplay) (i : Instruction Key) :
    (i.line keys).toList =
      match i with
      | .openTag name key attributes =>
        ['o', 'p', 'e', 'n', ' '] ++ (name.toList ++ ' ' :: (['k', 'e', 'y', '='] ++
          ((key.display keys).toList ++ fields Text.quotedChar attributes)))
      | .closeTag name => ['c', 'l', 'o', 's', 'e', ' '] ++ name.toList
      | .text content => ['t', 'e', 'x', 't', ' '] ++ enclosed Text.quotedChar content
      | .skip => ['s', 'k', 'i', 'p'] := by
  cases i <;> simp [line, ← toList_fields, ← toList_quoted]

/-- The first letter of an instruction's line. -/
def initial : Instruction κ → Char
  | .openTag _ _ _ => 'o'
  | .closeTag _ => 'c'
  | .text _ => 't'
  | .skip => 's'

theorem exists_line_eq_cons (keys : KeyDisplay) (i : Instruction Key) :
    ∃ more, (i.line keys).toList = i.initial :: more := by
  rw [toList_line]
  cases i <;> exact ⟨_, rfl⟩

theorem initial_ne_blank (i : Instruction κ) : i.initial ≠ ' ' := by
  cases i <;> simp [initial]

/-- What a line shows of an instruction can be read off it. -/
theorem mapKey_eq_of_line_eq {keys : KeyDisplay} (hi : i.Named) (hj : j.Named)
    (h : i.line keys = j.line keys) :
    i.mapKey (·.display keys) = j.mapKey (·.display keys) := by
  have hline := congrArg String.toList h
  have hinitial : i.initial = j.initial := by
    obtain ⟨more, hmore⟩ := exists_line_eq_cons keys i
    obtain ⟨more', hmore'⟩ := exists_line_eq_cons keys j
    rw [hmore, hmore'] at hline
    exact (List.cons.inj hline).1
  rw [toList_line, toList_line] at hline
  cases i <;> cases j
  case openTag.openTag name key attributes name' key' attributes' =>
    obtain ⟨rfl, hkey⟩ := Markup.name_cancel (Markup.isAttributeName_of_isTagName hi.1)
      (Markup.isAttributeName_of_isTagName hj.1) (by decide) (by decide)
      (List.append_cancel_left hline)
    obtain ⟨hshown, hfields⟩ := display_cancel (List.append_cancel_left (List.cons.inj hkey).2)
    have hends : ∀ more : List Char, [] ≠ ' ' :: more := nofun
    obtain ⟨rfl, -⟩ := Markup.fields_cancel Text.escapes_quotedChar hi.2 hj.2 hends hends
      (congrArg (· ++ []) hfields)
    rw [mapKey, mapKey, hshown]
  case closeTag.closeTag name name' =>
    rw [String.toList_inj.mp (List.append_cancel_left hline)]
  case text.text content content' =>
    have hcontent := congrArg (· ++ []) (List.append_cancel_left hline)
    rw [(Markup.enclosed_cancel Text.escapes_quotedChar hcontent).1]
  case skip.skip => rfl
  -- All other pairs differ in the first letter of their lines.
  all_goals simp [initial] at hinitial

/-- A line shows no more of an instruction than that. -/
theorem line_eq_of_mapKey_eq {keys : KeyDisplay}
    (h : i.mapKey (·.display keys) = j.mapKey (·.display keys)) : i.line keys = j.line keys := by
  cases i <;> cases j <;> simp_all [mapKey, line]

theorem isOpen_mapKey (f : κ → ι) (i : Instruction κ) : (i.mapKey f).isOpen = i.isOpen := by
  cases i <;> rfl

theorem isClose_mapKey (f : κ → ι) (i : Instruction κ) : (i.mapKey f).isClose = i.isClose := by
  cases i <;> rfl

/-- Two ways to show keys that tell the same keys apart tell the same instructions apart. -/
theorem mapKey_inj_congr {ν : Type} {f : κ → ι} {g : κ → ν}
    (hfg : ∀ {k k'}, f k = f k' ↔ g k = g k') (i j : Instruction κ) :
    i.mapKey f = j.mapKey f ↔ i.mapKey g = j.mapKey g := by
  cases i <;> cases j <;> simp [mapKey, hfg]

end Instruction

/-- Two programs have one listing exactly if they agree in all that their lines show, wherever the
listing starts. -/
theorem listingFrom_inj {keys : KeyDisplay} {p q : List (Instruction Key)}
    (hp : ∀ i ∈ p, i.Named) (hq : ∀ i ∈ q, i.Named) (depth : Nat) :
    listingFrom keys depth p = listingFrom keys depth q ↔
      p.map (·.mapKey (·.display keys)) = q.map (·.mapKey (·.display keys)) := by
  induction p generalizing q depth with
  | nil => cases q <;> simp [listingFrom]
  | cons i p ih =>
    cases q with
    | nil => simp [listingFrom]
    | cons j q =>
      obtain ⟨hi, hp⟩ := List.forall_mem_cons.mp hp
      obtain ⟨hj, hq⟩ := List.forall_mem_cons.mp hq
      rw [listingFrom, listingFrom, List.map_cons, List.map_cons, List.cons.injEq, List.cons.injEq]
      -- The depth of the lines behind depends on the kind of the instruction only.
      have hbehind : i.mapKey (·.display keys) = j.mapKey (·.display keys) →
          i.isClose = j.isClose ∧ i.isOpen = j.isOpen := by
        intro hsame
        have hclose := congrArg Instruction.isClose hsame
        have hopen := congrArg Instruction.isOpen hsame
        rw [Instruction.isClose_mapKey, Instruction.isClose_mapKey] at hclose
        rw [Instruction.isOpen_mapKey, Instruction.isOpen_mapKey] at hopen
        exact ⟨hclose, hopen⟩
      constructor
      · rintro ⟨hline, hlines⟩
        obtain ⟨more, hmore⟩ := Instruction.exists_line_eq_cons keys i
        obtain ⟨more', hmore'⟩ := Instruction.exists_line_eq_cons keys j
        have hwords := Markup.margin_cancel ⟨_, more, hmore, i.initial_ne_blank⟩
          ⟨_, more', hmore', j.initial_ne_blank⟩ hline
        have hsame := Instruction.mapKey_eq_of_line_eq hi hj hwords.2
        obtain ⟨hclose, hopen⟩ := hbehind hsame
        rw [hclose, hopen] at hlines
        exact ⟨hsame, (ih hp hq _).mp hlines⟩
      · rintro ⟨hsame, hrest⟩
        obtain ⟨hclose, hopen⟩ := hbehind hsame
        rw [hclose, hopen, Instruction.line_eq_of_mapKey_eq hsame]
        exact ⟨rfl, (ih hp hq _).mpr hrest⟩

/-- The listing of a program with names that are names identifies it, balanced or not. In full, it
identifies the program up to the origins of its keys; with masked keys, up to the values of the keys
that the compiler chose. Compiled programs have such names. -/
theorem listing_inj {p q : Patch} (hp : p.Named) (hq : q.Named) :
    (p.listing .full = q.listing .full ↔
      p.instructions.map (·.mapKey Key.value) = q.instructions.map (·.mapKey Key.value)) ∧
    (p.listing .masked = q.listing .masked ↔ p.masked = q.masked) ∧
    ∀ config source r, compile config source = .ok r → r.Named := by
  refine ⟨?_, ?_, fun config source r h => named_compile h⟩
  · rw [listing, listing, listingFrom_inj hp hq]
    exact map_eq_map_congr fun i _ j _ => Instruction.mapKey_inj_congr display_full_inj i j
  · rw [listing, listing, listingFrom_inj hp hq, masked, masked, Patch.mk.injEq]
    exact map_eq_map_congr fun i _ j _ => Instruction.mapKey_inj_congr display_masked_inj i j

/-- A value that reads like a field and a text that reads like a line, with a close that closes
nothing. Two programs that differ only in who chose a key have one full listing and two masked
ones. -/
theorem listing_inj_origins :
    let program (key : Key) : Patch := ⟨[.openTag "a" key [("b", "\" c=\"d")], .text "\"\nskip é",
      .closeTag "a", .closeTag "i"]⟩
    (program (.explicit "k")).Named ∧ (program (.generated "k")).Named ∧
      (program (.explicit "k")).listing .full = (program (.generated "k")).listing .full ∧
      (program (.explicit "k")).listing .masked ≠ (program (.generated "k")).listing .masked := by
  intro program
  have hnamed : ∀ key, (program key).Named := by
    intro key
    simp only [Named, program, List.forall_mem_cons, Instruction.Named, List.not_mem_nil,
      false_implies, implies_true, and_true, true_and]
    decide
  obtain ⟨hfull, hmasked, -⟩ := listing_inj (hnamed (.explicit "k")) (hnamed (.generated "k"))
  exact ⟨hnamed _, hnamed _, hfull.mpr rfl, fun h => absurd (hmasked.mp h) (by decide)⟩

end LiveMarkup.Patch
