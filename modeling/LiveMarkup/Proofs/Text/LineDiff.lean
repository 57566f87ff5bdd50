import LiveMarkup.Proofs.Text.Escape
import LiveMarkup.Text.LineDiff
import Mathlib

/-!
# What a report on two lists of lines tells

A report is right if it is empty for equal lists only and otherwise names the first line at which
the lists differ, where a line that one of them does not have counts as a difference
(`ReportedExactly`). The lists are compared as if the shorter one went on with placeholders, so a
placeholder that stands in the longer list where the shorter one ends is overlooked. Nothing else
is: a report is right exactly if there is no such line (`reportedExactly_iff`).
-/

namespace LiveMarkup.Text

variable {expected actual : List String} {i j : Nat}

/-- The lists differ at this index and agree in front of it. A line that only one of them has is a
difference. -/
def DiffersFirstAt (expected actual : List String) (i : Nat) : Prop :=
  expected[i]? ≠ actual[i]? ∧ ∀ j < i, expected[j]? = actual[j]?

/-- The same for the lists continued with placeholders. -/
def ShowsFirstAt (expected actual : List String) (i : Nat) : Prop :=
  lineAt expected i ≠ lineAt actual i ∧ ∀ j < i, lineAt expected j = lineAt actual j

/-- A report says that the lists differ first at the line with this number. -/
def Names (report : String) (number : Nat) : Prop :=
  ∃ rest, report = "first mismatch at line " ++ toString number ++ " (showing " ++ rest

/-- The report on two lists is empty if they are equal, and otherwise names the line at which they
differ first. -/
def ReportedExactly (expected actual : List String) : Prop :=
  (lineDiff expected actual = "" ↔ expected = actual) ∧
    ∀ i, Names (lineDiff expected actual) (i + 1) ↔ DiffersFirstAt expected actual i

/-- The second list is the first one with more lines behind it, of which the first is the
placeholder. -/
def Overlooked (shorter longer : List String) : Prop :=
  ∃ rest, longer = shorter ++ missingLine :: rest

theorem lineAt_eq (lines : List String) (i : Nat) : lineAt lines i = lines[i]?.getD missingLine :=
  List.getD_eq_getElem?_getD

theorem lineAt_congr (h : expected[i]? = actual[i]?) : lineAt expected i = lineAt actual i := by
  rw [lineAt_eq, lineAt_eq, h]

/-- Behind both lists there are placeholders only. -/
theorem lineAt_congr_of_length_le (h : max expected.length actual.length ≤ i) :
    lineAt expected i = lineAt actual i := by
  refine lineAt_congr ?_
  rw [List.getElem?_eq_none (by omega), List.getElem?_eq_none (by omega)]

theorem DiffersFirstAt.symm (h : DiffersFirstAt expected actual i) :
    DiffersFirstAt actual expected i :=
  ⟨h.1.symm, fun j hj => (h.2 j hj).symm⟩

theorem ShowsFirstAt.unique (h : ShowsFirstAt expected actual i)
    (h' : ShowsFirstAt expected actual j) : i = j := by
  rcases Nat.lt_trichotomy i j with hlt | heq | hlt
  · exact absurd (h'.2 i hlt) h.1
  · exact heq
  · exact absurd (h.2 j hlt) h'.1

/-- Different lists differ somewhere for the first time. -/
theorem exists_differsFirstAt (h : expected ≠ actual) : ∃ i, DiffersFirstAt expected actual i := by
  classical
  have hexists : ∃ i : Nat, expected[i]? ≠ actual[i]? := by
    by_contra hnone
    exact h (List.ext_getElem? fun i => by_contra fun hne => hnone ⟨i, hne⟩)
  exact ⟨Nat.find hexists, Nat.find_spec hexists,
    fun j hj => by_contra fun hne => Nat.find_min hexists hj hne⟩

/-- Where only the first list has a line at the first difference, it goes on behind the second. -/
theorem DiffersFirstAt.eq_append {line : String} (h : DiffersFirstAt expected actual i)
    (hline : expected[i]? = some line) (hnone : actual[i]? = none) :
    ∃ rest, expected = actual ++ line :: rest := by
  obtain ⟨hi, rfl⟩ := List.getElem?_eq_some_iff.mp hline
  have hlength : actual.length = i := by
    refine Nat.le_antisymm (List.getElem?_eq_none_iff.mp hnone) (Nat.le_of_not_lt fun hlt => ?_)
    have hend := h.2 actual.length hlt
    rw [List.getElem?_eq_none (Nat.le_refl _), List.getElem?_eq_none_iff] at hend
    omega
  have hfront : expected.take i = actual := by
    refine List.ext_getElem? fun j => ?_
    rw [List.getElem?_take]
    split_ifs with hj
    · exact h.2 j hj
    · exact (List.getElem?_eq_none (by omega)).symm
  refine ⟨expected.drop (i + 1), ?_⟩
  rw [← List.drop_eq_getElem_cons hi]
  conv_rhs => rw [← hfront]
  exact (List.take_append_drop i expected).symm

/-- A line that is not overlooked differs from the placeholder that it is compared with. -/
theorem DiffersFirstAt.showsFirstAt (h : DiffersFirstAt expected actual i)
    (hexpected : ¬ Overlooked expected actual) (hactual : ¬ Overlooked actual expected) :
    ShowsFirstAt expected actual i := by
  refine ⟨?_, fun j hj => lineAt_congr (h.2 j hj)⟩
  rw [lineAt_eq, lineAt_eq]
  cases hline : expected[i]? with
  | none =>
    cases hline' : actual[i]? with
    | none => exact absurd (hline.trans hline'.symm) h.1
    | some line =>
      obtain ⟨rest, hrest⟩ := h.symm.eq_append hline' hline
      rintro rfl
      exact hexpected ⟨rest, hrest⟩
  | some line =>
    cases hline' : actual[i]? with
    | none =>
      obtain ⟨rest, hrest⟩ := h.eq_append hline hline'
      rintro rfl
      exact hactual ⟨rest, hrest⟩
    | some line' =>
      have hne := h.1
      rw [hline, hline'] at hne
      exact fun heq => hne (congrArg some heq)

/-- A line that is overlooked is the first difference. -/
theorem Overlooked.differsFirstAt (h : Overlooked actual expected) :
    DiffersFirstAt expected actual actual.length ∧
      lineAt expected actual.length = lineAt actual actual.length := by
  obtain ⟨rest, rfl⟩ := h
  have hnone : actual[actual.length]? = none := List.getElem?_eq_none (Nat.le_refl _)
  refine ⟨⟨?_, fun j hj => List.getElem?_append_left hj⟩, ?_⟩
  · rw [hnone]
    simp
  · rw [lineAt_eq, lineAt_eq, hnone]
    simp

/-- The first difference that is found is the first one of the continued lists. -/
theorem firstDifference?_eq_some_iff :
    firstDifference? expected actual = some i ↔ ShowsFirstAt expected actual i := by
  rw [firstDifference?, List.find?_range_eq_some, ShowsFirstAt]
  simp only [bne_iff_ne, List.mem_range, Bool.not_eq_true', bne_eq_false_iff_eq]
  refine ⟨fun h => ⟨h.1, h.2.2⟩, fun h => ⟨h.1, ?_, h.2⟩⟩
  by_contra hout
  exact h.1 (lineAt_congr_of_length_le (Nat.le_of_not_lt hout))

theorem firstDifference?_eq_none_iff : firstDifference? expected actual = none ↔
    ∀ i, lineAt expected i = lineAt actual i := by
  rw [firstDifference?, List.find?_range_eq_none]
  simp only [Bool.not_eq_true', bne_eq_false_iff_eq]
  refine ⟨fun h i => ?_, fun h i _ => h i⟩
  by_cases hi : i < max expected.length actual.length
  · exact h i hi
  · exact lineAt_congr_of_length_le (Nat.le_of_not_lt hi)

/-- No report names two lines. -/
theorem Names.unique {report : String} {n m : Nat} (h : Names report n) (h' : Names report m) :
    n = m := by
  obtain ⟨rest, rfl⟩ := h
  obtain ⟨rest', heq⟩ := h'
  have hdigits : ∀ n : Nat, ' ' ∉ (toString n).toList := by
    intro n hmem
    rw [Nat.toString_eq_ofList_toDigits, String.toList_ofList] at hmem
    exact absurd (Nat.isDigit_of_mem_toDigits (by decide) (by decide) hmem) (by decide)
  have hlists := congrArg String.toList heq
  simp only [String.toList_append, List.append_assoc] at hlists
  have hnumbers := append_cons_cancel (a := ' ') (hdigits n) (hdigits m)
    (List.append_cancel_left hlists)
  exact Nat.repr_inj.mp (String.toList_inj.mp hnumbers.1)

theorem names_lineDiff (h : firstDifference? expected actual = some i) :
    Names (lineDiff expected actual) (i + 1) := by
  rw [lineDiff, h]
  exact ⟨_, by simp only [String.append_assoc]; rfl⟩

theorem names_lineDiff_iff :
    Names (lineDiff expected actual) (i + 1) ↔ ShowsFirstAt expected actual i := by
  cases hfirst : firstDifference? expected actual with
  | none =>
    have hempty : lineDiff expected actual = "" := by rw [lineDiff, hfirst]
    refine ⟨fun h => ?_, fun h => ?_⟩
    · obtain ⟨rest, hrest⟩ := h
      rw [hempty] at hrest
      simp at hrest
    · exact absurd (firstDifference?_eq_none_iff.mp hfirst i) h.1
  | some first =>
    have hshows := firstDifference?_eq_some_iff.mp hfirst
    have hnames := names_lineDiff hfirst
    refine ⟨fun h => ?_, fun h => ?_⟩
    · rwa [Nat.succ.inj (h.unique hnames)]
    · rwa [h.unique hshows]

theorem lineDiff_eq_empty_iff :
    lineDiff expected actual = "" ↔ ∀ i, lineAt expected i = lineAt actual i := by
  rw [← firstDifference?_eq_none_iff]
  cases hfirst : firstDifference? expected actual with
  | none => simp [lineDiff, hfirst]
  | some first =>
    obtain ⟨rest, hrest⟩ := names_lineDiff hfirst
    simp [hrest]

/-- Two lists of lines are compared as if both went on with placeholders: the report is empty if
they agree at each line, and names the first at which they do not. It is right about the lists
themselves exactly if neither of them goes on behind the other with a line that is the
placeholder. -/
theorem reportedExactly_iff (expected actual : List String) :
    (lineDiff expected actual = "" ↔ ∀ i, lineAt expected i = lineAt actual i) ∧
    (∀ i, Names (lineDiff expected actual) (i + 1) ↔ ShowsFirstAt expected actual i) ∧
    (ReportedExactly expected actual ↔
      ¬ Overlooked expected actual ∧ ¬ Overlooked actual expected) := by
  refine ⟨lineDiff_eq_empty_iff, fun i => names_lineDiff_iff, ?_, ?_⟩
  · rintro ⟨-, hnames⟩
    have hshows : ∀ i, DiffersFirstAt expected actual i → lineAt expected i ≠ lineAt actual i :=
      fun i hi => (names_lineDiff_iff.mp ((hnames i).mpr hi)).1
    constructor
    · intro h
      obtain ⟨hdiffers, hsame⟩ := h.differsFirstAt
      exact hshows _ hdiffers.symm hsame.symm
    · intro h
      obtain ⟨hdiffers, hsame⟩ := h.differsFirstAt
      exact hshows _ hdiffers hsame
  · rintro ⟨hexpected, hactual⟩
    refine ⟨?_, fun i => ?_⟩
    · rw [lineDiff_eq_empty_iff]
      refine ⟨fun h => ?_, fun h i => by rw [h]⟩
      by_contra hne
      obtain ⟨i, hi⟩ := exists_differsFirstAt hne
      exact (hi.showsFirstAt hexpected hactual).1 (h i)
    · rw [names_lineDiff_iff]
      refine ⟨fun h => ?_, fun h => h.showsFirstAt hexpected hactual⟩
      have hne : expected ≠ actual := fun heq => h.1 (by rw [heq])
      obtain ⟨j, hj⟩ := exists_differsFirstAt hne
      rwa [h.unique (hj.showsFirstAt hexpected hactual)]

/-- A second line that is the placeholder itself is overlooked. -/
theorem not_reportedExactly_placeholder :
    lineDiff ["a"] ["a", "<missing>"] = "" ∧ ¬ ReportedExactly ["a"] ["a", "<missing>"] := by
  have hempty : lineDiff ["a"] ["a", "<missing>"] = "" := by decide
  exact ⟨hempty, fun h => absurd (h.1.mp hempty) (by decide)⟩

end LiveMarkup.Text
