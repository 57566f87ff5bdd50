import LiveMarkup.Proofs.Markup.Scan
import LiveMarkup.Proofs.Text.Escape

/-!
# Fields on a line

Listings and snapshots show the attributes of an element in one way: a space, the name, an equals
sign and the value between double quotes. In front of a line they put blanks for its depth. A name
goes up to the first character that is in no name, and a value up to the quote behind it, so the
depth and the fields can be told from the line.
-/

namespace LiveMarkup.Markup

open Text (Escapes)

variable {code : Char → List Char} {name name' : String} {rest rest' : List Char}

/-- A line that does not start with a blank can be told from the blanks in front of it. -/
theorem margin_cancel {s s' : String} (hs : ∃ c more, s.toList = c :: more ∧ c ≠ ' ')
    (hs' : ∃ c more, s'.toList = c :: more ∧ c ≠ ' ') {n m : Nat}
    (h : String.ofList (List.replicate n ' ') ++ s = String.ofList (List.replicate m ' ') ++ s') :
    n = m ∧ s = s' := by
  obtain ⟨c, more, hc, hblank⟩ := hs
  obtain ⟨c', more', hc', hblank'⟩ := hs'
  have hlists := congrArg String.toList h
  rw [String.toList_append, String.toList_append, String.toList_ofList, String.toList_ofList, hc,
    hc'] at hlists
  have hcount : n = m ∧ c :: more = c' :: more' := by
    clear h
    induction n generalizing m with
    | zero =>
      cases m with
      | zero => exact ⟨rfl, hlists⟩
      | succ m => exact absurd (List.cons.inj hlists).1 hblank
    | succ n ih =>
      cases m with
      | zero => exact absurd (List.cons.inj hlists).1.symm hblank'
      | succ m =>
        obtain ⟨rfl, hmore⟩ := ih (List.cons.inj hlists).2
        exact ⟨rfl, hmore⟩
  exact ⟨hcount.1, String.toList_inj.mp (by rw [hc, hc', hcount.2])⟩

/-- A value between double quotes. -/
def enclosed (code : Char → List Char) (value : String) : List Char :=
  '"' :: (value.toList.flatMap code ++ ['"'])

/-- Attributes on a line. -/
def fields (code : Char → List Char) (attributes : List (String × String)) : List Char :=
  attributes.flatMap fun (name, value) => ' ' :: (name.toList ++ '=' :: enclosed code value)

theorem enclosed_cancel (hcode : ∀ c, Escapes c (code c)) {value value' : String}
    (h : enclosed code value ++ rest = enclosed code value' ++ rest') :
    value = value' ∧ rest = rest' := by
  simp only [enclosed, List.cons_append, List.append_assoc, List.nil_append] at h
  obtain ⟨hvalue, hrest⟩ := Text.flatMap_append_quote_cancel hcode hcode (List.cons.inj h).2
  exact ⟨String.toList_inj.mp hvalue, hrest⟩

/-- A name is determined by what is read up to the first character that is in no name. -/
theorem name_cancel (hname : isAttributeName name = true) (hname' : isAttributeName name' = true)
    {c c' : Char} (hc : isNameChar c = false) (hc' : isNameChar c' = false)
    (h : name.toList ++ c :: rest = name'.toList ++ c' :: rest') :
    name = name' ∧ c :: rest = c' :: rest' := by
  obtain ⟨htake, hdrop⟩ := Token.takeWhile_name hname hc rest
  obtain ⟨htake', hdrop'⟩ := Token.takeWhile_name hname' hc' rest'
  rw [h] at htake hdrop
  exact ⟨String.toList_inj.mp (htake.symm.trans htake'), hdrop.symm.trans hdrop'⟩

/-- The fields of a line are determined, and what stands behind them if that starts with no
space. -/
theorem fields_cancel (hcode : ∀ c, Escapes c (code c))
    {attributes attributes' : List (String × String)}
    (hnames : ∀ a ∈ attributes, isAttributeName a.1 = true)
    (hnames' : ∀ a ∈ attributes', isAttributeName a.1 = true)
    (hrest : ∀ more, rest ≠ ' ' :: more) (hrest' : ∀ more, rest' ≠ ' ' :: more)
    (h : fields code attributes ++ rest = fields code attributes' ++ rest') :
    attributes = attributes' ∧ rest = rest' := by
  induction attributes generalizing attributes' with
  | nil =>
    cases attributes' with
    | nil => exact ⟨rfl, h⟩
    | cons b attributes' => exact absurd h (hrest _)
  | cons a attributes ih =>
    cases attributes' with
    | nil => exact absurd h.symm (hrest' _)
    | cons b attributes' =>
      simp only [fields, List.flatMap_cons, List.cons_append, List.append_assoc, List.cons.injEq,
        true_and] at h
      obtain ⟨hname, hassigned⟩ := name_cancel (hnames a List.mem_cons_self)
        (hnames' b List.mem_cons_self) (by decide) (by decide) h
      obtain ⟨hvalue, hlater⟩ := enclosed_cancel hcode (List.cons.inj hassigned).2
      obtain ⟨rfl, hrest⟩ := ih (fun x hx => hnames x (List.mem_cons_of_mem _ hx))
        (fun x hx => hnames' x (List.mem_cons_of_mem _ hx)) hlater
      exact ⟨by rw [Prod.ext hname hvalue], hrest⟩

/-- A name with fields behind it is determined, up to a character that is in no name and no
space. -/
theorem name_fields_cancel (hcode : ∀ c, Escapes c (code c))
    {attributes attributes' : List (String × String)} (hname : isAttributeName name = true)
    (hname' : isAttributeName name' = true)
    (hnames : ∀ a ∈ attributes, isAttributeName a.1 = true)
    (hnames' : ∀ a ∈ attributes', isAttributeName a.1 = true) {c : Char}
    (hc : isNameChar c = false) (hspace : c ≠ ' ')
    (h : name.toList ++ (fields code attributes ++ c :: rest) =
      name'.toList ++ (fields code attributes' ++ c :: rest')) :
    name = name' ∧ attributes = attributes' ∧ rest = rest' := by
  have hbehind : ∀ (attributes : List (String × String)) (rest : List Char),
      ∃ d more, fields code attributes ++ c :: rest = d :: more ∧ isNameChar d = false := by
    intro attributes rest
    cases attributes with
    | nil => exact ⟨c, rest, rfl, hc⟩
    | cons a attributes => exact ⟨' ', _, rfl, by decide⟩
  obtain ⟨d, more, hd, hnot⟩ := hbehind attributes rest
  obtain ⟨d', more', hd', hnot'⟩ := hbehind attributes' rest'
  rw [hd, hd'] at h
  obtain ⟨rfl, hmore⟩ := name_cancel hname hname' hnot hnot' h
  rw [← hd, ← hd'] at hmore
  have hstop : ∀ rest more : List Char, c :: rest ≠ ' ' :: more :=
    fun rest more heq => hspace (List.cons.inj heq).1
  obtain ⟨rfl, hrest⟩ := fields_cancel hcode hnames hnames' (hstop _) (hstop _) hmore
  exact ⟨rfl, rfl, (List.cons.inj hrest).2⟩

end LiveMarkup.Markup
